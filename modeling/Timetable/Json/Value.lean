import Timetable.Decimal.Shortest

/-!
# JSON values

A value keeps the members of its objects in the order they were written, with all repetitions.
Comparing and storing go through the *normal form*: members sorted by name, of several with one
name the last.

A reader may leave a part *unread* that has the form of a value but is none, such as a number beyond all
bounds. Such a part does no harm where nobody looks at it; `Json.isWhole` tells whether there are any.

* `Json.normal` computes the normal form, `Json.Normal` says what it is;
* `Json.depth` counts the containers around the innermost value.
-/

namespace Timetable

inductive Json where
  | null
  | bool (b : Bool)
  | int (n : Int)
  | real (d : Decimal)
  | str (s : String)
  | arr (items : List Json)
  | obj (members : List (String × Json))
  /-- The place of something that was not read. -/
  | unread
deriving Inhabited

namespace Json

/-! ## Equality -/

mutual

def decEq : (a b : Json) → Decidable (a = b)
  | .arr xs, .arr ys =>
    match decEqItems xs ys with
    | isTrue h => isTrue (by rw [h])
    | isFalse h => isFalse (by simpa using h)
  | .obj ms, .obj ns =>
    match decEqMembers ms ns with
    | isTrue h => isTrue (by rw [h])
    | isFalse h => isFalse (by simpa using h)
  | .null, .null => isTrue rfl
  | .unread, .unread => isTrue rfl
  | .bool x, .bool y =>
    if h : x = y then isTrue (by rw [h]) else isFalse (by simpa using h)
  | .int x, .int y =>
    if h : x = y then isTrue (by rw [h]) else isFalse (by simpa using h)
  | .real x, .real y =>
    if h : x = y then isTrue (by rw [h]) else isFalse (by simpa using h)
  | .str x, .str y =>
    if h : x = y then isTrue (by rw [h]) else isFalse (by simpa using h)
  | .null, .bool _ | .null, .int _ | .null, .real _ | .null, .str _ | .null, .arr _
  | .null, .obj _ | .bool _, .null | .bool _, .int _ | .bool _, .real _ | .bool _, .str _
  | .bool _, .arr _ | .bool _, .obj _ | .int _, .null | .int _, .bool _ | .int _, .real _
  | .int _, .str _ | .int _, .arr _ | .int _, .obj _ | .real _, .null | .real _, .bool _
  | .real _, .int _ | .real _, .str _ | .real _, .arr _ | .real _, .obj _ | .str _, .null
  | .str _, .bool _ | .str _, .int _ | .str _, .real _ | .str _, .arr _ | .str _, .obj _
  | .arr _, .null | .arr _, .bool _ | .arr _, .int _ | .arr _, .real _ | .arr _, .str _
  | .arr _, .obj _ | .obj _, .null | .obj _, .bool _ | .obj _, .int _ | .obj _, .real _
  | .obj _, .str _ | .obj _, .arr _ | .unread, .null | .unread, .bool _ | .unread, .int _
  | .unread, .real _ | .unread, .str _ | .unread, .arr _ | .unread, .obj _ | .null, .unread
  | .bool _, .unread | .int _, .unread | .real _, .unread | .str _, .unread | .arr _, .unread
  | .obj _, .unread => isFalse (by simp)

def decEqItems : (xs ys : List Json) → Decidable (xs = ys)
  | [], [] => isTrue rfl
  | [], _ :: _ => isFalse (by simp)
  | _ :: _, [] => isFalse (by simp)
  | x :: xs, y :: ys =>
    match decEq x y, decEqItems xs ys with
    | isTrue h, isTrue h' => isTrue (by rw [h, h'])
    | isFalse h, _ => isFalse (by simp [h])
    | _, isFalse h => isFalse (by simp [h])

def decEqMembers : (ms ns : List (String × Json)) → Decidable (ms = ns)
  | [], [] => isTrue rfl
  | [], _ :: _ => isFalse (by simp)
  | _ :: _, [] => isFalse (by simp)
  | (k, x) :: ms, (l, y) :: ns =>
    if hk : k = l then
      match decEq x y, decEqMembers ms ns with
      | isTrue h, isTrue h' => isTrue (by rw [hk, h, h'])
      | isFalse h, _ => isFalse (by simp [h])
      | _, isFalse h => isFalse (by simp [h])
    else isFalse (by simp [hk])

end

instance : DecidableEq Json := decEq

/-! ## Normal form -/

/-- Puts a member in its place among sorted ones, over an earlier one of its name. -/
def putMember (name : String) (value : Json) : List (String × Json) → List (String × Json)
  | [] => [(name, value)]
  | (k, x) :: rest =>
    if name < k then (name, value) :: (k, x) :: rest
    else if name = k then (name, value) :: rest
    else (k, x) :: putMember name value rest

mutual

/-- Every object with its members sorted by name, the last of each name. -/
def normal : Json → Json
  | .arr items => .arr (normalItems items)
  | .obj members => .obj (normalMembers [] members)
  | j => j

def normalItems : List Json → List Json
  | [] => []
  | x :: xs => x.normal :: normalItems xs

/-- Puts members one after the other among sorted ones. -/
def normalMembers (sorted : List (String × Json)) : List (String × Json) → List (String × Json)
  | [] => sorted
  | (k, x) :: rest => normalMembers (putMember k x.normal sorted) rest

end

mutual

/-- Every object has its members strictly sorted by name, and nothing is unread. -/
def Normal : Json → Prop
  | .arr items => NormalItems items
  | .obj members => members.Pairwise (fun a b => a.1 < b.1) ∧ NormalMembers members
  | .unread => False
  | _ => True

def NormalItems : List Json → Prop
  | [] => True
  | x :: xs => x.Normal ∧ NormalItems xs

def NormalMembers : List (String × Json) → Prop
  | [] => True
  | (_, x) :: rest => x.Normal ∧ NormalMembers rest

end

/-! ## Whole values -/

mutual

/-- Whether no part is unread. -/
def isWhole : Json → Bool
  | .arr items => itemsAreWhole items
  | .obj members => membersAreWhole members
  | .unread => false
  | _ => true

def itemsAreWhole : List Json → Bool
  | [] => true
  | x :: xs => x.isWhole && itemsAreWhole xs

def membersAreWhole : List (String × Json) → Bool
  | [] => true
  | (_, x) :: rest => x.isWhole && membersAreWhole rest

end

/-! ## Depth -/

mutual

/-- The number of containers around the innermost value. -/
def depth : Json → Nat
  | .arr items => depthItems items + 1
  | .obj members => depthMembers members + 1
  | _ => 0

def depthItems : List Json → Nat
  | [] => 0
  | x :: xs => max x.depth (depthItems xs)

def depthMembers : List (String × Json) → Nat
  | [] => 0
  | (_, x) :: rest => max x.depth (depthMembers rest)

end

/-! ## Members -/

/-- The value of the first member of a name. -/
def member? (members : List (String × Json)) (name : String) : Option Json :=
  (members.find? (·.1 == name)).map (·.2)

mutual

/-- A value laid over another one: objects member by member, all else as a whole. -/
def overlay (base : Json) : Json → Json
  | .obj members =>
    match base with
    | .obj under => .obj (overlayMembers under members)
    | _ => .obj members
  | j => j

def overlayMembers (under : List (String × Json)) : List (String × Json) → List (String × Json)
  | [] => under
  | (k, x) :: rest =>
    let value := match member? under k with
      | some old => overlay old x
      | none => x
    overlayMembers (putMember k value under) rest

end

example : normal (.obj [("b", .int 1), ("a", .null), ("b", .int 2)]) =
    .obj [("a", .null), ("b", .int 2)] := by decide

example : overlay (.obj [("a", .obj [("x", .int 1), ("y", .int 2)])]) (.obj [("a", .obj [("y", .null)])]) =
    .obj [("a", .obj [("x", .int 1), ("y", .null)])] := by decide

end Json

end Timetable
