import Timetable.Proofs.Web.Percent
import Timetable.Web.FunctionService

/-!
# Where the URL of a function leads

An identifier is one segment within `functions`, below the base URL, as long as it has no tabs and line ends
(`Url.Names`). These are left out of every segment, and the test for dots, which comes before that, does not see what
is left (`sent`): an identifier with some of them shares the URL of the one without, or names no function at all and may
even lead out of `functions` (`functionPath_eq`).

So `functions_named_apart`: apart from tabs and line ends, no two identifiers have one URL.
-/

namespace Timetable.Web

variable {special : Bool} {text id : String} {trailing : List String}

/-! ## Segments -/

/-- What is left of a text within a URL. -/
def sent (text : String) : String := String.ofList (text.toList.filter (!isTabOrNewline ·))

/-- A text without tabs and line ends. -/
def IsClean (text : String) : Prop := ∀ c ∈ text.toList, isTabOrNewline c = false

instance (text : String) : Decidable (IsClean text) := List.decidableBAll (isTabOrNewline · = false) text.toList

/-- A text that is a segment of its own. -/
structure IsSegment (text : String) : Prop where
  addressable : isUnaddressable text = false
  clean : IsClean text

/-- What a text is as a segment. -/
def segmentOf (special : Bool) (text : String) : List Char := percentEncode (segmentSet special) (sent text).toList

theorem mark_mem_segmentSet (special : Bool) : '%' ∈ segmentSet special := by cases special <;> decide

theorem dot_not_mem_segmentSet (special : Bool) : '.' ∉ segmentSet special := by cases special <;> decide

theorem isUnaddressable_iff : isUnaddressable text = true ↔ text = "" ∨ text = "." ∨ text = ".." := by
  simp [isUnaddressable]

theorem sent_eq_iff : sent text = text ↔ IsClean text := by
  rw [sent, ← String.toList_inj, String.toList_ofList, List.filter_eq_self]
  simp [IsClean]

theorem sent_sent (text : String) : sent (sent text) = sent text := by
  rw [sent, sent, String.toList_ofList, List.filter_filter]
  simp

/-- Dots as such are sent as they are. -/
theorem sent_of_isUnaddressable (h : isUnaddressable text = true) : sent text = text := by
  rcases isUnaddressable_iff.mp h with rfl | rfl | rfl <;> decide

theorem percentText?_segmentOf (special : Bool) (text : String) :
    percentText? (segmentOf special text) = some (sent text) := by
  rw [segmentOf, percentText?_percentEncode (mark_mem_segmentSet special), String.ofList_toList]

theorem segmentOf_eq_nil : segmentOf special text = [] ↔ sent text = "" := by
  constructor
  · intro empty
    have same : percentEncode (segmentSet special) (sent text).toList = percentEncode (segmentSet special) [] := empty
    exact String.toList_inj.mp (percentEncode_inj (mark_mem_segmentSet special) same)
  · intro empty
    rw [segmentOf, empty]
    rfl

theorem isSingleDot_segmentOf : Path.isSingleDot (segmentOf special text) = true ↔ sent text = "." := by
  rw [segmentOf, isSingleDot_percentEncode (mark_mem_segmentSet special) (dot_not_mem_segmentSet special),
    ← String.toList_inj]
  rfl

theorem isDoubleDot_segmentOf : Path.isDoubleDot (segmentOf special text) = true ↔ sent text = ".." := by
  rw [segmentOf, isDoubleDot_percentEncode (mark_mem_segmentSet special) (dot_not_mem_segmentSet special),
    ← String.toList_inj]
  rfl

/-- What divides the parts of a URL is encoded in a segment. -/
theorem not_mem_segmentOf (special : Bool) (text : String) : ∀ c ∈ ['/', '?', '#'], c ∉ segmentOf special text := by
  intro c divides
  have encoded : ∀ c ∈ ['/', '?', '#'], c ∈ segmentSet special ∧ c ≠ '%' ∧ Text.hexValue? c = none := by
    simp only [List.forall_mem_cons]
    cases special <;> exact ⟨by decide, by decide, by decide, nofun⟩
  obtain ⟨named, mark, digit⟩ := encoded c divides
  exact not_mem_percentEncode named mark digit

theorem segmentOf_functions (special : Bool) : segmentOf special "functions" = "functions".toList := by
  cases special <;> decide +kernel

namespace IsSegment

theorem sent_eq (h : IsSegment text) : sent text = text := sent_eq_iff.mpr h.clean

theorem ne_dots (h : IsSegment text) : sent text ≠ "" ∧ sent text ≠ "." ∧ sent text ≠ ".." := by
  have addressable := h.addressable
  rw [h.sent_eq]
  refine ⟨?_, ?_, ?_⟩ <;> rintro rfl <;> cases addressable

end IsSegment

/-! ## Paths -/

namespace Path

/-- What pushed segments come behind: nothing, if a path is no more than a slash. -/
def stem (p : Path) : Path := if p.trimEnd = root then [] else p.trimEnd

theorem append_ne_root (p : Path) {segment : List Char} (nonempty : segment ≠ []) : p ++ [segment] ≠ root := by
  intro same
  have last := congrArg List.getLast? same
  rw [List.getLast?_concat] at last
  exact nonempty (Option.some.inj last)

/-- What is left of a text decides where it leads, but for dots as such. -/
theorem push_of_addressable (special : Bool) (p : Path) (addressable : isUnaddressable text = false) :
    p.push special text.toList = close (if p = root then [] else p) (segmentOf special text) := by
  have noDots : ¬ (text.toList = ['.'] ∨ text.toList = ['.', '.']) := by
    intro dots
    have unaddressable : isUnaddressable text = true :=
      isUnaddressable_iff.mpr (.inr (dots.imp String.toList_inj.mp String.toList_inj.mp))
    exact Bool.false_ne_true (addressable.symm.trans unaddressable)
  rw [push, if_neg noDots, segmentOf, sent, String.toList_ofList]

theorem close_of_ne (p : Path) (one : sent text ≠ ".") (two : sent text ≠ "..") :
    p.close (segmentOf special text) = p ++ [segmentOf special text] := by
  rw [close, if_neg]
  rw [Bool.or_eq_true, isDoubleDot_segmentOf, isSingleDot_segmentOf]
  exact not_or.mpr ⟨two, one⟩

theorem push_of_isSegment (p : Path) (h : IsSegment text) :
    p.push special text.toList = (if p = root then [] else p) ++ [segmentOf special text] := by
  obtain ⟨-, one, two⟩ := h.ne_dots
  rw [push_of_addressable special p h.addressable, close_of_ne _ one two]

theorem pushAll_cons (special : Bool) (p : Path) (text : String) (texts : List String) :
    p.pushAll special (text :: texts) = (p.push special text.toList).pushAll special texts := rfl

/-- Segments come one behind the other. -/
theorem pushAll_of_isSegment {p : Path} (large : p ≠ root) (plain : ∀ text ∈ trailing, IsSegment text) :
    p.pushAll special trailing = p ++ trailing.map (segmentOf special) := by
  induction trailing generalizing p with
  | nil => exact (List.append_nil p).symm
  | cons text trailing ih =>
    obtain ⟨segment, rest⟩ := List.forall_mem_cons.mp plain
    have larger : p ++ [segmentOf special text] ≠ root :=
      append_ne_root p (mt segmentOf_eq_nil.mp segment.ne_dots.1)
    rw [pushAll_cons, push_of_isSegment p segment, if_neg large, ih larger rest, List.map_cons, List.append_assoc,
      List.singleton_append]

/-- The path that all functions of a service are below. -/
def functions (base : Path) : Path := base.stem ++ ["functions".toList]

theorem functions_ne_root (base : Path) : base.functions ≠ root := append_ne_root base.stem (by decide)

theorem push_functions (special : Bool) (base : Path) :
    base.trimEnd.push special "functions".toList = base.functions := by
  rw [push_of_isSegment base.trimEnd ⟨by decide, by decide⟩, segmentOf_functions]
  rfl

/-- Going up leaves `functions`. -/
theorem up_functions (base : Path) : base.functions.up = base.stem := by
  have deep : base.functions.getLast?.any isDriveLetter = false := by
    rw [functions, List.getLast?_concat]
    decide
  rw [up, deep, if_neg Bool.false_ne_true, functions, List.dropLast_concat]

/-- Where the segment of an identifier leads: out of `functions` if two dots are left of it, and else within. -/
theorem close_functions (special : Bool) (base : Path) (id : String) :
    base.functions.close (segmentOf special id) =
      if sent id = ".." then base.stem ++ [[]]
      else base.functions ++ [if sent id = "." then [] else segmentOf special id] := by
  split
  · next two =>
    have up : isDoubleDot (segmentOf special id) = true := isDoubleDot_segmentOf.mpr two
    rw [close, if_pos (by rw [up, Bool.true_or]), enter, if_pos up, up_functions]
  · next two =>
    split
    · next one =>
      have stay : isSingleDot (segmentOf special id) = true := isSingleDot_segmentOf.mpr one
      rw [close, if_pos (by rw [stay, Bool.or_true]), enter, if_neg (mt isDoubleDot_segmentOf.mp two), if_pos stay]
    · next one => exact close_of_ne base.functions one two

/-- Every text adds at most one segment. -/
theorem length_pushAll_le (special : Bool) (p : Path) (plain : ∀ text ∈ trailing, IsSegment text) :
    (p.pushAll special trailing).length ≤ p.length + trailing.length := by
  induction trailing generalizing p with
  | nil => exact Nat.le_refl p.length
  | cons text trailing ih =>
    obtain ⟨segment, rest⟩ := List.forall_mem_cons.mp plain
    have one : (p.push special text.toList).length ≤ p.length + 1 := by
      rw [push_of_isSegment p segment, List.length_append, List.length_singleton]
      split <;> simp
    have others := ih (p.push special text.toList) rest
    rw [pushAll_cons, List.length_cons]
    omega

end Path

/-- Where the path of an identifier leads: within `functions` to what is left of the identifier, or out of it. -/
theorem functionPath_eq (special : Bool) (base : Path) (addressable : isUnaddressable id = false)
    (plain : ∀ text ∈ trailing, IsSegment text) :
    functionPath special base id trailing =
      if sent id = ".." then Path.pushAll special (base.stem ++ [[]]) trailing
      else base.stem ++ "functions".toList :: (if sent id = "." then [] else segmentOf special id) ::
        trailing.map (segmentOf special) := by
  have start : functionPath special base id trailing =
      (base.functions.close (segmentOf special id)).pushAll special trailing := by
    rw [functionPath, Path.pushAll_cons, Path.pushAll_cons, Path.push_functions,
      Path.push_of_addressable special _ addressable, if_neg base.functions_ne_root]
  rw [start, Path.close_functions]
  split
  · rfl
  · have large : base.functions ++ [if sent id = "." then [] else segmentOf special id] ≠ Path.root := by
      intro same
      have length := congrArg List.length same
      simp [Path.functions, Path.root] at length
    rw [Path.pushAll_of_isSegment large plain, Path.functions, List.append_assoc, List.append_assoc]
    rfl

theorem sent_addressable (h : isUnaddressable (sent id) = false) : isUnaddressable id = false := by
  refine Bool.eq_false_iff.mpr fun dots => ?_
  rw [sent_of_isUnaddressable dots, dots] at h
  cases h

/-! ## URLs -/

variable {base url url' : Url} {id' : String} {segment : List Char}

/-- A URL names a function by a segment within `functions`, below the base URL and with what follows it behind. -/
structure Url.Names (url base : Url) (trailing : List String) (id : String) (segment : List Char) : Prop where
  path : url.path =
    base.path.stem ++ "functions".toList :: segment :: trailing.map (segmentOf (isSpecial base.scheme))
  elsewhere : url = { base with path := url.path }
  text : percentText? segment = some id
  nonempty : segment ≠ []
  whole : ∀ c ∈ ['/', '?', '#'], c ∉ segment
  stays : Path.isSingleDot segment = false ∧ Path.isDoubleDot segment = false

theorem functionUrl_eq_ok : functionUrl base id trailing = .ok url ↔
    isUnaddressable id = false ∧
      url = { base with path := functionPath (isSpecial base.scheme) base.path id trailing } := by
  rw [functionUrl]
  split
  · next unaddressable => simp [unaddressable]
  · next addressable => simp [Bool.eq_false_iff.mpr addressable, eq_comm]

/-- A clean identifier is named by its segment. -/
theorem names_of_clean (plain : ∀ text ∈ trailing, IsSegment text) (clean : IsClean id)
    (ok : functionUrl base id trailing = .ok url) :
    url.Names base trailing id (segmentOf (isSpecial base.scheme) id) := by
  obtain ⟨addressable, rfl⟩ := functionUrl_eq_ok.mp ok
  have segment : IsSegment id := ⟨addressable, clean⟩
  obtain ⟨empty, one, two⟩ := segment.ne_dots
  refine
    { path := ?_
      elsewhere := rfl
      text := ?_
      nonempty := mt segmentOf_eq_nil.mp empty
      whole := not_mem_segmentOf _ id
      stays := ⟨Bool.eq_false_iff.mpr (mt isSingleDot_segmentOf.mp one),
        Bool.eq_false_iff.mpr (mt isDoubleDot_segmentOf.mp two)⟩ }
  · rw [functionPath_eq _ _ addressable plain, if_neg two, if_neg one]
  · rw [percentText?_segmentOf, segment.sent_eq]

/-- Only clean identifiers are named. -/
theorem Url.Names.clean (h : url.Names base trailing id segment) (plain : ∀ text ∈ trailing, IsSegment text)
    (ok : functionUrl base id trailing = .ok url) : IsClean id := by
  obtain ⟨addressable, rfl⟩ := functionUrl_eq_ok.mp ok
  have path := h.path
  rw [functionPath_eq _ _ addressable plain] at path
  split at path
  · -- out of `functions` the path is too short
    have length := congrArg List.length path
    have short := Path.length_pushAll_le (isSpecial base.scheme) (base.path.stem ++ [[]]) plain
    simp only [List.length_append, List.length_cons, List.length_map, List.length_nil] at length short
    omega
  · have own := (List.cons.inj (List.cons.inj (List.append_cancel_left path)).2).1
    split at own
    · exact absurd own.symm h.nonempty
    · have text := h.text
      rw [← own, percentText?_segmentOf] at text
      exact sent_eq_iff.mp (Option.some.inj text)

/-- What a request asks for tells named functions apart. -/
theorem Url.Names.inj {segment' : List Char} (h : url.Names base trailing id segment)
    (h' : url'.Names base trailing id' segment') (same : url.target = url'.target) : id = id' := by
  have query : url.query = url'.query := by rw [h.elsewhere, h'.elsewhere]
  have targets := String.ofList_injective same
  rw [query] at targets
  have paths := List.append_cancel_right targets
  rw [h.path, h'.path, Path.chars, Path.chars, List.flatMap_append, List.flatMap_append] at paths
  have below := List.append_cancel_left paths
  simp only [List.flatMap_cons] at below
  have segments := List.append_cancel_right (List.append_cancel_left below)
  have text := h.text
  rw [(List.cons.inj segments).2, h'.text] at text
  exact (Option.some.inj text).symm

/-- Only what is left of an identifier makes a difference. -/
theorem functionUrl_sent (base : Url) (trailing : List String) (addressable : isUnaddressable (sent id) = false) :
    functionUrl base id trailing = functionUrl base (sent id) trailing := by
  have path : functionPath (isSpecial base.scheme) base.path id trailing =
      functionPath (isSpecial base.scheme) base.path (sent id) trailing := by
    rw [functionPath, functionPath, Path.pushAll_cons, Path.pushAll_cons, Path.pushAll_cons, Path.pushAll_cons,
      Path.push_of_addressable _ _ (sent_addressable addressable), Path.push_of_addressable _ _ addressable, segmentOf,
      segmentOf, sent_sent]
  rw [functionUrl, functionUrl, sent_addressable addressable, addressable, path, if_neg Bool.false_ne_true,
    if_neg Bool.false_ne_true]

/-- Every identifier but dots and the empty one has a URL. It is named there, by one segment within `functions`,
exactly if it is clean, and then no other clean one comes to the same request. Any other is sent as what is left. -/
theorem functions_named_apart (base : Url) {trailing : List String} (plain : ∀ text ∈ trailing, IsSegment text) :
    (∀ id, (∃ url, functionUrl base id trailing = .ok url) ↔ id ∉ ["", ".", ".."]) ∧
    (∀ id url, functionUrl base id trailing = .ok url →
      ((∃ segment, url.Names base trailing id segment) ↔ IsClean id)) ∧
    (∀ id id' url url', functionUrl base id trailing = .ok url → functionUrl base id' trailing = .ok url' →
      IsClean id → IsClean id' → url.target = url'.target → id = id') ∧
    ∀ id, isUnaddressable (sent id) = false → functionUrl base id trailing = functionUrl base (sent id) trailing := by
  refine ⟨fun id => ?_, fun id url ok => ?_, fun id id' url url' ok ok' clean clean' same => ?_,
    fun id addressable => functionUrl_sent base trailing addressable⟩
  · simp [functionUrl_eq_ok, isUnaddressable]
  · constructor
    · rintro ⟨segment, named⟩
      exact named.clean plain ok
    · exact fun clean => ⟨_, names_of_clean plain clean ok⟩
  · exact (names_of_clean plain clean ok).inj (names_of_clean plain clean' ok') same

/-- A service below a path of its own. -/
def serviceUrl : Url := { scheme := "http", host := some loopback, path := ["api".toList] }

/-- An identifier that is all the parts of a URL. -/
theorem identifier_like_a_url_named :
    ∃ segment url, functionUrl serviceUrl "../a?b=é%2e" ["execute"] = .ok url ∧
      url.target = "/api/functions/..%2Fa%3Fb=%C3%A9%252e/execute" ∧
      url.Names serviceUrl ["execute"] "../a?b=é%2e" segment := by
  have plain : ∀ text ∈ ["execute"], IsSegment text := by
    rintro _ (_ | ⟨_, ⟨⟩⟩)
    exact ⟨by decide, by decide⟩
  obtain ⟨known, named, -⟩ := functions_named_apart serviceUrl plain
  obtain ⟨url, ok⟩ := (known "../a?b=é%2e").mpr (by decide)
  obtain ⟨segment, names⟩ := (named _ url ok).mpr (by decide)
  refine ⟨segment, url, ok, ?_, names⟩
  obtain ⟨-, rfl⟩ := functionUrl_eq_ok.mp ok
  decide +kernel

/-- Two dots around a tab pass the test for dots, and lead out of `functions`; and a tab within an identifier makes no
difference. -/
theorem dots_around_a_tab_leave_functions :
    ".\t." ∉ ["", ".", ".."] ∧
    (functionUrl serviceUrl ".\t." ["execute"]).map Url.target = .ok "/api//execute" ∧
    (∀ url segment, functionUrl serviceUrl ".\t." ["execute"] = .ok url →
      ¬ url.Names serviceUrl ["execute"] ".\t." segment) ∧
    "a\tb" ≠ "ab" ∧
    functionUrl serviceUrl "a\tb" ["execute"] = functionUrl serviceUrl "ab" ["execute"] := by
  refine ⟨by decide, by rfl, fun url segment ok names => ?_, by decide, by rfl⟩
  obtain ⟨-, rfl⟩ := functionUrl_eq_ok.mp ok
  have length := congrArg List.length names.path
  rw [List.length_append, List.length_cons, List.length_cons, List.length_map] at length
  exact absurd length (by decide +kernel)

end Timetable.Web
