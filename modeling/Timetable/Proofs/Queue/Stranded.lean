import Mathlib.Logic.Function.Basic
import Timetable.Proofs.Keyspace.Program
import Timetable.Proofs.Queue.Exclusion
import Timetable.Proofs.Queue.Represented

/-!
# Entries that are out of reach

Any number of clients ask requests of one keyspace and take turns after any command (`Crowd`). An entry is `Stranded` if
it is stored and neither waits nor is claimed. Then it is never claimed, finished or removed again, and no other is
stored under its identifier.

A claim stores its entry with a command of its own, after it has won it. If its lease ends in between, the entry may be
recovered, claimed by another and finished; then the late claim stores it again. Also a claim that finds no entry under
an identifier takes that from those that wait, and may come late for an entry that was added again. These are the only
two ways to strand an entry (`stranded_iff_late`), and both happen (`late_claims_strand_entries`).

Every identifier has a place (`Place`), and a command moves one identifier at a time from place to place. No command
leads out of the last one.
-/

namespace Timetable

open Program

/-! ## Many clients -/

/-- Any number of clients of one keyspace, each with a program that is left to run. -/
structure Crowd (ι : Type) where
  rest : ι → Program Unit
  keys : Keyspace
  /-- The commands that were sent, each with the keyspace that it met. -/
  sent : List (Command × Keyspace) := []

namespace Crowd

variable {ι : Type}

/-- Nobody has anything left to send. -/
def idle (keys : Keyspace) : Crowd ι where
  rest _ := .done ()
  keys := keys

variable [DecidableEq ι]

/-- A client turns to a program. -/
def start (i : ι) (p : Program Unit) (x : Crowd ι) : Crowd ι := { x with rest := Function.update x.rest i p }

/-- A client sends its next command. -/
def send (i : ι) (x : Crowd ι) : Crowd ι where
  rest := Function.update x.rest i ((x.rest i).step x.keys).1
  keys := ((x.rest i).step x.keys).2
  sent := match x.rest i with
    | .send c _ => (c, x.keys) :: x.sent
    | _ => x.sent

inductive Turn (may : Program Unit → Prop) (x : Crowd ι) : Crowd ι → Prop
  | start (i : ι) {p : Program Unit} : may p → Turn may x (x.start i p)
  | send (i : ι) : Turn may x (x.send i)

/-- What the clients may come to, in whatever order they take turns. -/
abbrev Reach (may : Program Unit → Prop) : Crowd ι → Crowd ι → Prop := Relation.ReflTransGen (Turn may)

end Crowd

theorem Program.Only.mono {α : Type} {P P' : Command → Prop} {p : Program α} (h : p.Only P) (sub : ∀ c, P c → P' c) :
    p.Only P' := by
  induction h with
  | done => exact .done
  | fail => exact .fail
  | send allowed _ ih => exact .send (sub _ allowed) ih

namespace SharedQueue

/-! ## Commands of requests -/

/-- A command that leaves claims and leases to scripts, and deletes no entry by itself. -/
def Regular : Command → Prop
  | .hset .active _ _ | .hdel .entries _ | .hdel .active _ | .zrem .leases _ => False
  | _ => True

theorem Quiet.regular {c : Command} (quiet : Quiet c) : Regular c := by
  cases c with
  | hset h _ _ => cases h <;> trivial
  | hdel h _ => cases h <;> trivial
  | zrem z _ => cases z <;> trivial
  | _ => trivial

section

variable {rules : ClaimRules} {now : Instant}

theorem release_regular (id : String) (claim : ActiveClaim) :
    (discard (release id claim) : Program Unit).Only Regular :=
  Only.discard (.ask trivial)

theorem handOut_regular (id : String) (stored : StoredEntry) (claim : ActiveClaim) :
    (handOut rules now id stored claim).Only Regular := by
  have drop : (do discard (release id claim); return none : Program (Option StoredEntry)).Only Regular :=
    (release_regular id claim).bind fun _ => .done
  have save (e : StoredEntry) : (saveEntry id e).Only Regular := .ask trivial
  unfold handOut
  dsimp only
  split
  · exact (save _).bind fun _ => .done
  · refine ((loadRecord_quiet _).mono fun _ => Quiet.regular).bind fun record => ?_
    split
    · exact drop
    · refine (save _).bind fun _ => ((advanceChain_quiet record _).mono fun _ => Quiet.regular).bind fun _ => ?_
      split
      · refine ((keyIsActive_quiet _).mono fun _ => Quiet.regular).bind fun blocked => ?_
        split
        · exact drop
        · exact .done
      · exact .done

theorem claimId_regular (id : String) : (claimId rules now id).Only Regular := by
  refine .send trivial fun text => ?_
  cases text with
  | none => exact .send trivial fun _ => .done
  | some text =>
    refine Only.ofExcept.bind fun stored => Only.ofExcept.bind fun expiry => .send trivial fun won => ?_
    cases won with
    | true => exact handOut_regular id stored _
    | false => exact .done

theorem claimDue_regular (limit : Nat) : (claimDue rules now limit).Only Regular := by
  have each (ids : List String) : (claimEach rules now ids).Only Regular := by
    induction ids with
    | nil => exact .done
    | cons id ids ih =>
      refine (claimId_regular id).bind fun one => ?_
      cases one with
      | none => exact ih
      | some e => exact ih.bind fun _ => .done
  exact (Only.discard (.ask trivial)).bind fun _ => .send trivial each

theorem program_regular (rules : ClaimRules) (now : Instant) (r : QueueRequest) :
    (program rules now r).Only Regular := by
  have quiet {α : Type} {p : Program α} (h : p.Only Quiet) : p.Only Regular := h.mono fun _ => Quiet.regular
  cases r with
  | addRepeating key spec payload => exact quiet addRepeating_quiet
  | addDelayed key delay payload => exact quiet addDelayed_quiet
  | removeRepeating key spec => exact quiet removeRepeating_quiet
  | removeDelayed key => exact .ask trivial
  | listRepeating => exact .send trivial fun _ => .ofExcept
  | listEntries states => exact quiet listEntries_quiet
  | getEntry key => exact quiet getEntry_quiet
  | claimDue limit => exact claimDue_regular limit
  | renewLease e =>
    show (renewLease rules e now).Only Regular
    unfold renewLease
    cases ActiveClaim.ofEntry? e with
    | none => exact .done
    | some claim => exact Only.ofExcept.bind fun _ => .ask trivial
  | recoverStalled => exact .ask trivial
  | finish e =>
    show (finish e).Only Regular
    unfold finish
    cases ActiveClaim.ofEntry? e with
    | none => exact .done
    | some claim => exact release_regular _ claim
  | size => exact .ask trivial

end

/-! ## Places -/

/-- Where an identifier is found. -/
structure Place where
  stored : Bool
  waits : Bool
  claimed : Bool
  leased : Bool
deriving DecidableEq

namespace Place

def absent : Place := ⟨false, false, false, false⟩

def waiting : Place := ⟨true, true, false, false⟩

def taken : Place := ⟨true, false, true, true⟩

/-- Stored, but out of reach. -/
def stranded : Place := ⟨true, false, false, false⟩

def all : List Place := [absent, waiting, taken, stranded]

/-! What changes of a keyspace do to the place of the identifier that they name. -/

def addPending (p : Place) : Place := { p with stored := true, waits := true }

def dropPending (p : Place) : Place := { p with stored := false, waits := false }

def addClaim (p : Place) : Place := { p with waits := false, claimed := true, leased := true }

def extendLease (p : Place) : Place := { p with leased := true }

def dropClaimed (p : Place) : Place := { p with stored := false, claimed := false, leased := false }

def giveUp (p : Place) : Place := ⟨p.stored, p.stored || p.waits, false, false⟩

def store (p : Place) : Place := { p with stored := true }

def unschedule (p : Place) : Place := { p with waits := false }

theorem eq_absent_iff : ∀ {p}, p ∈ all → (p = absent ↔ p.stored = false) := by decide

theorem eq_waiting_iff : ∀ {p}, p ∈ all → (p = waiting ↔ p.waits = true) := by decide

theorem eq_taken : ∀ {p}, p ∈ all → p.claimed = true → p = taken := by decide

theorem eq_taken_of_leased : ∀ {p}, p ∈ all → p.leased = true → p = taken := by decide

theorem eq_stranded_iff : ∀ {p}, p ∈ all →
    (p = stranded ↔ p.stored = true ∧ p.waits = false ∧ p.claimed = false) := by decide

theorem stored_of : ∀ {p}, p ∈ all → p.waits = true ∨ p.claimed = true → p.stored = true := by decide

end Place

variable {s s' : Keyspace} {id x text : String} {strands : String → Prop}

def placeOf (s : Keyspace) (id : String) : Place :=
  ⟨s.entries.contains id, s.delayed.contains id, s.active.contains id, s.leases.contains id⟩

/-- Every identifier is in one of the four places. -/
def Placed (s : Keyspace) : Prop := ∀ id, placeOf s id ∈ Place.all

theorem Represented.placed (h : Represented s) (id : String) :
    placeOf s id ∈ Place.all ∧ placeOf s id ≠ .stranded := by
  have stored := h.held id
  have disjoint := h.disjoint id
  unfold placeOf
  rw [h.leased id]
  revert stored disjoint
  cases s.entries.contains id <;> cases s.delayed.contains id <;> cases s.active.contains id <;> decide

section

variable (s : Keyspace) (id x text : String) (score : Int)

theorem placeOf_addPending : placeOf (s.addPending id text score) x =
    if id = x then (placeOf s x).addPending else placeOf s x := by
  unfold placeOf Keyspace.addPending Place.addPending
  split <;> simp [*]

theorem placeOf_dropPending : placeOf (s.dropPending id) x =
    if id = x then (placeOf s x).dropPending else placeOf s x := by
  unfold placeOf Keyspace.dropPending Place.dropPending
  split <;> simp [*]

theorem placeOf_addClaim : placeOf (s.addClaim id text score) x =
    if id = x then (placeOf s x).addClaim else placeOf s x := by
  unfold placeOf Keyspace.addClaim Place.addClaim
  split <;> simp [*]

theorem placeOf_extendLease : placeOf (s.extendLease id score) x =
    if id = x then (placeOf s x).extendLease else placeOf s x := by
  unfold placeOf Keyspace.extendLease Place.extendLease
  split <;> simp [*]

theorem placeOf_dropClaimed : placeOf (s.dropClaimed id) x =
    if id = x then (placeOf s x).dropClaimed else placeOf s x := by
  unfold placeOf Keyspace.dropClaimed Place.dropClaimed
  split <;> simp [*]

theorem placeOf_giveUp : placeOf (s.giveUp score id) x =
    if id = x then (placeOf s x).giveUp else placeOf s x := by
  unfold placeOf Keyspace.giveUp Place.giveUp
  by_cases same : id = x
  · subst same
    cases s.entries.contains id <;> simp
  · cases s.entries.contains id <;> simp [same]

theorem placeOf_store : placeOf { s with entries := s.entries.set id text } x =
    if id = x then (placeOf s x).store else placeOf s x := by
  unfold placeOf Place.store
  split <;> simp [*]

theorem placeOf_unschedule : placeOf { s with delayed := s.delayed.erase id } x =
    if id = x then (placeOf s x).unschedule else placeOf s x := by
  unfold placeOf Place.unschedule
  split <;> simp [*]

end

/-- The entry for which a command comes too late: it stores one that is there no more, or takes one that was added again
from those that wait. -/
def strandedBy (c : Command) (s : Keyspace) : Option String :=
  match c with
  | .hset .entries id _ => if s.entries.contains id then none else some id
  | .zrem .delayed id => if s.delayed.contains id then some id else none
  | _ => none

/-- What a command makes of the places, and which entries it strands. -/
structure Moved (s s' : Keyspace) (strands : String → Prop) : Prop where
  placed : Placed s'
  stranded : ∀ x, placeOf s' x = .stranded ↔ placeOf s x = .stranded ∨ strands x

namespace Moved

variable {s'' : Keyspace} {f : Place → Place} {source : Place}

theorem same (placed : Placed s) (same : ∀ x, placeOf s' x = placeOf s x) : Moved s s' fun _ => False where
  placed x := same x ▸ placed x
  stranded x := by rw [same x, or_false]

theorem congr {strands' : String → Prop} (h : Moved s s' strands) (same : ∀ x, strands x ↔ strands' x) :
    Moved s s' strands' :=
  ⟨h.placed, fun x => (h.stranded x).trans (or_congr_right (same x))⟩

theorem trans (h : Moved s s' fun _ => False) (h' : Moved s' s'' fun _ => False) : Moved s s'' fun _ => False :=
  ⟨h'.placed, fun x => (h'.stranded x).trans ((or_iff_left id).trans (h.stranded x))⟩

/-- One identifier goes from a place to another, neither of them the last. -/
theorem one (placed : Placed s) (own : placeOf s id = source)
    (moves : ∀ x, placeOf s' x = if id = x then f (placeOf s x) else placeOf s x) (reached : f source ∈ Place.all)
    (apart : source ≠ .stranded ∧ f source ≠ .stranded) : Moved s s' fun _ => False where
  placed x := by
    rw [moves]
    split
    · next same => exact same ▸ own ▸ reached
    · exact placed x
  stranded x := by
    rw [moves, or_false]
    split
    · next same =>
      rw [← same, own]
      exact iff_of_false apart.2 apart.1
    · exact Iff.rfl

/-- One identifier is stranded, if it is in some place. -/
theorem strand (source : Place) (placed : Placed s)
    (moves : ∀ x, placeOf s' x = if id = x then f (placeOf s x) else placeOf s x)
    (lost : f source = .stranded) (kept : ∀ p ∈ Place.all, p ≠ source → f p = p) :
    Moved s s' fun x => id = x ∧ placeOf s id = source where
  placed x := by
    rw [moves]
    split
    · by_cases own : placeOf s x = source
      · rw [own, lost]
        decide
      · rw [kept _ (placed x) own]
        exact placed x
    · exact placed x
  stranded x := by
    rw [moves]
    split
    · next same =>
      subst same
      by_cases own : placeOf s id = source
      · rw [own, lost]
        exact iff_of_true rfl (.inr ⟨rfl, rfl⟩)
      · rw [kept _ (placed id) own]
        exact (or_iff_left fun strands => own strands.2).symm
    · next other => exact (or_iff_left fun strands => other strands.1).symm

end Moved

/-- Claims whose leases ended are given up: their entries wait again. -/
theorem moved_foldl_giveUp (now : Int) {ids : List String} (nodup : ids.Nodup) (placed : Placed s)
    (leased : ∀ id ∈ ids, s.leases.contains id = true) : Moved s (ids.foldl (·.giveUp now) s) fun _ => False := by
  induction ids generalizing s with
  | nil => exact .same placed fun _ => rfl
  | cons id ids ih =>
    obtain ⟨absent, nodup⟩ := List.nodup_cons.mp nodup
    obtain ⟨first, rest⟩ := List.forall_mem_cons.mp leased
    have taken := Place.eq_taken_of_leased (placed id) first
    have moved : Moved s (s.giveUp now id) fun _ => False :=
      .one placed taken (fun x => placeOf_giveUp s id x now) (by decide) (by decide)
    refine moved.trans (ih nodup moved.placed fun x mem => ?_)
    have ne : id ≠ x := by
      rintro rfl
      exact absent mem
    have kept := (placeOf_giveUp s id x now).trans (if_neg ne)
    exact (congrArg Place.leased kept).trans (rest x mem)

/-- What every command does: but for those that come late, each moves entries between the first three places. -/
theorem moved_outcome {c : Command} (regular : Regular c) (placed : Placed s) :
    Moved s (c.outcome s).2 (strandedBy c s = some ·) := by
  have none {s' : Keyspace} (h : Moved s s' fun _ => False) : Moved s s' (Option.none = some ·) :=
    h.congr fun x => iff_of_false not_false nofun
  have stays : Moved s s (Option.none = some ·) := none (.same placed fun _ => rfl)
  cases c with
  | hset h id text =>
    cases h with
    | repeats => exact none (.same placed fun _ => rfl)
    | entries =>
      have moved := Moved.strand .absent placed (fun x => placeOf_store s id x text) rfl (by decide)
      refine moved.congr fun x => ?_
      rw [Place.eq_absent_iff (placed id), strandedBy]
      cases stored : s.entries.contains id <;> simp [placeOf, stored]
    | active => exact regular.elim
  | hdel h id =>
    cases h with
    | repeats => exact none (.same placed fun _ => rfl)
    | entries | active => exact regular.elim
  | zrem z id =>
    cases z with
    | delayed =>
      have moved := Moved.strand .waiting placed (fun x => placeOf_unschedule s id x) rfl (by decide)
      refine moved.congr fun x => ?_
      rw [Place.eq_waiting_iff (placed id), strandedBy]
      cases waits : s.delayed.contains id <;> simp [placeOf, waits]
    | leases => exact regular.elim
  | insertIfAbsent id text score =>
    rw [Command.outcome]
    split
    · exact stays
    · next absent =>
      have absent := (Place.eq_absent_iff (placed id)).mpr (Bool.eq_false_iff.mpr absent)
      exact none (.one placed absent (fun x => placeOf_addPending s id x text score) (by decide) (by decide))
  | removePending id =>
    rw [Command.outcome]
    split
    · next waits =>
      have waiting := (Place.eq_waiting_iff (placed id)).mpr waits
      exact none (.one placed waiting (fun x => placeOf_dropPending s id x) (by decide) (by decide))
    · exact stays
  | claim id text expiry =>
    rw [Command.outcome]
    split
    · next waits =>
      have waiting := (Place.eq_waiting_iff (placed id)).mpr waits
      exact none (.one placed waiting (fun x => placeOf_addClaim s id x text expiry) (by decide) (by decide))
    · exact stays
  | renew id text expiry =>
    rw [Command.outcome]
    split
    · next held =>
      have taken := Place.eq_taken (placed id) (Table.contains_iff.mpr ⟨text, held⟩)
      exact none (.one placed taken (fun x => placeOf_extendLease s id x expiry) (by decide) (by decide))
    · exact stays
  | release id text =>
    rw [Command.outcome]
    split
    · next held =>
      have taken := Place.eq_taken (placed id) (Table.contains_iff.mpr ⟨text, held⟩)
      exact none (.one placed taken (fun x => placeOf_dropClaimed s id x) (by decide) (by decide))
    · exact stays
  | recover now =>
    refine none (moved_foldl_giveUp now (SortedSet.nodup_upTo _ _) placed fun id mem => ?_)
    obtain ⟨expiry, lease, -⟩ := SortedSet.mem_upTo.mp mem
    exact Table.contains_iff.mpr ⟨expiry, lease⟩
  | hget | hexists | hgetall | hkeys | hvals | hlen | upTo => exact stays

/-! ## Requests of many clients -/

/-- A program that asks one request, by any rules and at any time. -/
def Asks (p : Program Unit) : Prop := ∃ rules now r, p = discard (program rules now r)

section

variable {ι : Type} [DecidableEq ι] {x y z : Crowd ι}

/-- What holds whatever clients do. -/
structure Watched (s : Keyspace) (y : Crowd ι) : Prop where
  regular : ∀ i, (y.rest i).Only Regular
  placed : Placed y.keys
  stranded : ∀ id, placeOf y.keys id = .stranded ↔ placeOf s id = .stranded ∨ ∃ p ∈ y.sent, strandedBy p.1 p.2 = some id

namespace Watched

theorem update (h : Watched s y) (i : ι) {p : Program Unit} (regular : p.Only Regular) (j : ι) :
    (Function.update y.rest i p j).Only Regular :=
  (Function.forall_update_iff y.rest fun _ p => p.Only Regular).mpr ⟨regular, fun j _ => h.regular j⟩ j

theorem start (h : Watched s y) (i : ι) {p : Program Unit} (asks : Asks p) : Watched s (y.start i p) := by
  obtain ⟨rules, now, r, rfl⟩ := asks
  exact ⟨h.update i (program_regular rules now r).discard, h.placed, h.stranded⟩

theorem send (h : Watched s y) (i : ι) : Watched s (y.send i) := by
  have regular := h.regular i
  unfold Crowd.send
  cases rest : y.rest i with
  | done a | fail e =>
    rw [rest] at regular
    exact ⟨h.update i regular, h.placed, h.stranded⟩
  | send c next =>
    rw [rest] at regular
    obtain ⟨allowed, after⟩ : Regular c ∧ ∀ answer, (next answer).Only Regular := by
      cases regular with
      | send allowed after => exact ⟨allowed, after⟩
    have moved := moved_outcome allowed h.placed
    rw [step_send]
    refine ⟨h.update i (after _), moved.placed, fun id => (moved.stranded id).trans ?_⟩
    rw [h.stranded id, List.exists_mem_cons_iff, or_assoc]
    exact or_congr_right or_comm

theorem of_reach (placed : Placed s) (run : Crowd.Reach Asks (.idle s) y) : Watched s y := by
  induction run with
  | refl => exact ⟨fun _ => .done, placed, fun id => by simp [Crowd.idle]⟩
  | tail _ turn ih =>
    cases turn with
    | start i asks => exact ih.start i asks
    | send i => exact ih.send i

end Watched

/-- An entry is stored, but it neither waits nor is claimed. -/
def Stranded (s : Keyspace) (id : String) : Prop :=
  s.entries.contains id = true ∧ s.delayed.contains id = false ∧ s.active.contains id = false

instance : Decidable (Stranded s id) := inferInstanceAs (Decidable (_ ∧ _ ∧ _))

theorem sent_of_reach (run : Crowd.Reach Asks y z) {p : Command × Keyspace} (mem : p ∈ y.sent) : p ∈ z.sent := by
  induction run with
  | refl => exact mem
  | tail _ turn ih =>
    cases turn with
    | start i _ => exact ih
    | send i =>
      unfold Crowd.send
      dsimp only
      split
      · exact List.mem_cons_of_mem _ ih
      · exact ih

/-- As long as an entry is claimed, no command comes too late for it. -/
theorem strandedBy_ne_of_claimed (placed : Placed s) (claimed : s.active.contains id = true) (c : Command) :
    strandedBy c s ≠ some id := by
  have taken := Place.eq_taken (placed id) claimed
  have stored : s.entries.contains id = true := congrArg Place.stored taken
  have parked : s.delayed.contains id = false := congrArg Place.waits taken
  unfold strandedBy
  intro late
  split at late
  · split at late
    · cases late
    · next absent =>
      obtain rfl := Option.some.inj late
      exact absent stored
  · split at late
    · next waits =>
      obtain rfl := Option.some.inj late
      rw [parked] at waits
      cases waits
    · cases late
  · cases late

/-- Whatever clients ask and in whatever order they take turns, an entry is stranded exactly if a command came too
late for it, which none does while the entry is claimed. It stays so for good. All other entries wait or are claimed,
and what waits or is claimed is stored. -/
theorem stranded_iff_late (start : Represented s) (run : Crowd.Reach Asks (.idle s) y) :
    (∀ id, Stranded y.keys id ↔ ∃ p ∈ y.sent, strandedBy p.1 p.2 = some id) ∧
      (∀ id, y.keys.delayed.contains id = true ∨ y.keys.active.contains id = true →
        y.keys.entries.contains id = true) ∧
      (∀ id, y.keys.active.contains id = true → ∀ c, strandedBy c y.keys ≠ some id) ∧
      ∀ {z}, Crowd.Reach Asks y z → ∀ id, Stranded y.keys id → Stranded z.keys id := by
  have placed : Placed s := fun id => (start.placed id).1
  have late {z : Crowd ι} (run : Crowd.Reach Asks (.idle s) z) (id : String) :
      Stranded z.keys id ↔ ∃ p ∈ z.sent, strandedBy p.1 p.2 = some id := by
    have watched := Watched.of_reach placed run
    have own : Stranded z.keys id ↔ placeOf z.keys id = .stranded := (Place.eq_stranded_iff (watched.placed id)).symm
    rw [own, watched.stranded id]
    exact or_iff_right (start.placed id).2
  have inPlace := (Watched.of_reach placed run).placed
  refine ⟨late run, fun id => Place.stored_of (inPlace id), fun id => strandedBy_ne_of_claimed inPlace,
    fun more id stranded => ?_⟩
  obtain ⟨p, mem, strands⟩ := (late run id).mp stranded
  exact (late (run.trans more) id).mpr ⟨p, sent_of_reach more mem, strands⟩

end

/-! ## Clients at work -/

section

variable {ι : Type} [DecidableEq ι]

/-- A client asks a request at some time, or sends its next command. -/
def turn (x : Crowd ι) : ι × Option (Instant × QueueRequest) → Crowd ι
  | (i, some (now, r)) => x.start i (discard (program {} now r))
  | (i, none) => x.send i

/-- Turns in a given order. -/
def follow (turns : List (ι × Option (Instant × QueueRequest))) (x : Crowd ι) : Crowd ι := turns.foldl turn x

theorem reach_follow (turns : List (ι × Option (Instant × QueueRequest))) (x : Crowd ι) :
    Crowd.Reach Asks x (follow turns x) := by
  induction turns generalizing x with
  | nil => exact .refl
  | cons first turns ih =>
    obtain ⟨i, _ | ⟨now, r⟩⟩ := first
    · exact .head (.send i) (ih _)
    · exact .head (.start i ⟨_, _, _, rfl⟩) (ih _)

/-- A client asks a request and sends some of its commands. -/
def asking (i : ι) (now : Instant) (r : QueueRequest) (commands : Nat) : List (ι × Option (Instant × QueueRequest)) :=
  (i, some (now, r)) :: List.replicate commands (i, none)

end

/-- One client wins the claim of an entry. When its lease is over another client claims the entry. -/
def slowClaim : List (Bool × Option (Instant × QueueRequest)) :=
  asking false (.ofMillis 0) (.addDelayed "a" 0 .null) 1 ++ asking true (.ofMillis 0) (.claimDue 1) 4 ++
    asking false (.ofMillis 300000) (.claimDue 1) 5

/-- The first client stores the entry while it is claimed by the other, which does no harm. -/
theorem reachable_after_slow_claim :
    let y := follow (slowClaim ++ [(true, none)]) (.idle {})
    y.keys.active.contains "a:once" = true ∧ ∀ id, y.keys.entries.contains id = true ↔
      y.keys.delayed.contains id = true ∨ y.keys.active.contains id = true := by
  intro y
  have represented : Represented {} := Consistent.empty.represented
  obtain ⟨late, stored, -⟩ := stranded_iff_late represented (reach_follow (slowClaim ++ [(true, none)]) (.idle {}))
  have timely : ∀ p ∈ y.sent, strandedBy p.1 p.2 = none := by decide +kernel
  refine ⟨by decide +kernel, fun id => ⟨fun there => ?_, stored id⟩⟩
  by_contra out
  obtain ⟨waits, claimed⟩ := not_or.mp out
  obtain ⟨p, mem, strands⟩ := (late id).mp ⟨there, Bool.eq_false_iff.mpr waits, Bool.eq_false_iff.mpr claimed⟩
  rw [timely p mem] at strands
  cases strands

/-- The other client finishes the entry before the first one stores it. -/
def finishedMeanwhile : List (Bool × Option (Instant × QueueRequest)) :=
  slowClaim ++ asking false (.ofMillis 300000) (.finish (handedOut (.ofMillis 300000))) 1 ++ [(true, none)]

/-- A client is about to read an entry that is due. Another client removes the entry, and adds it again once the first
one has found nothing. -/
def addedAgain : List (Bool × Option (Instant × QueueRequest)) :=
  asking false (.ofMillis 0) (.addDelayed "a" 0 .null) 1 ++ asking true (.ofMillis 0) (.claimDue 1) 2 ++
    asking false (.ofMillis 0) (.removeDelayed "a") 1 ++ [(true, none)] ++
    asking false (.ofMillis 0) (.addDelayed "a" 0 .null) 1 ++ [(true, none)]

/-- Turns after which all requests have ended and the entry is stranded, and nothing that is asked of it later changes
anything: it is not added, removed, claimed, recovered or finished. -/
def StrandsForGood (turns : List (Bool × Option (Instant × QueueRequest))) : Prop :=
  let y := follow turns (.idle {})
  (y.rest true).result?.isSome ∧ (y.rest false).result?.isSome ∧ Stranded y.keys "a:once" ∧
    ∀ r ∈ ([.addDelayed "a" 0 .null, .removeDelayed "a", .claimDue 9, .recoverStalled,
        .finish (handedOut (.ofMillis 0)), .finish (handedOut (.ofMillis 300000))] : List QueueRequest),
      (((workQueue {} .none).ask (.ofMillis 900000) r).on ⟨y.keys, 0⟩).2.keys = y.keys

instance (turns : List (Bool × Option (Instant × QueueRequest))) : Decidable (StrandsForGood turns) :=
  inferInstanceAs (Decidable (_ ∧ _))

theorem late_claims_strand_entries : StrandsForGood finishedMeanwhile ∧ StrandsForGood addedAgain := by
  decide +kernel

end SharedQueue

end Timetable
