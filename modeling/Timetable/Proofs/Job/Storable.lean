import Timetable.Job.Json
import Timetable.Proofs.Json.Faithful
import Timetable.Proofs.Queue.Storable
import Timetable.Proofs.Schedule.Plan

/-!
# Jobs that survive being stored

A job is `Storable` if the payloads of its functions are. The whole job can then be the payload of an entry, and its
functions are storable again when they are read from their column.
-/

namespace Timetable

namespace Json

variable {j x : Json} {room : Nat}

/-! ## Parts of records -/

/-- What is read as a part of a record is representable, and less deep. -/
theorem part_of_record {names : List String} {slots : List Slot} (h : record? names j = some slots)
    (whole : j.Representable) (shallow : j.depth ≤ room + 1) (given : .given x ∈ slots) :
    x.Representable ∧ x.depth ≤ room := by
  cases j with
  | obj members =>
    obtain ⟨name, mem⟩ : ∃ name, (name, x) ∈ members := by
      rw [record?, Option.ite_none_right_eq_some] at h
      obtain ⟨-, ⟨⟩⟩ := h
      obtain ⟨name, -, own⟩ := List.mem_map.mp given
      cases found : member? members name with
      | none =>
        rw [found] at own
        cases own
      | some y =>
        rw [found] at own
        cases own
        obtain ⟨m, first, rfl⟩ := Option.map_eq_some_iff.mp found
        exact ⟨m.1, List.mem_of_find?_eq_some first⟩
    exact ⟨representableMembers_iff.mp whole _ mem, depthMembers_le_iff.mp (Nat.le_of_succ_le_succ shallow) _ mem⟩
  | arr items =>
    have mem : x ∈ items := by
      rw [record?, Option.ite_none_right_eq_some] at h
      obtain ⟨-, ⟨⟩⟩ := h
      rcases List.mem_append.mp given with own | ended
      · obtain ⟨y, mem, ⟨⟩⟩ := List.mem_map.mp own
        exact mem
      · cases (List.mem_replicate.mp ended).2
    exact ⟨representableItems_iff.mp whole _ mem, depthItems_le_iff.mp (Nat.le_of_succ_le_succ shallow) _ mem⟩
  | _ => cases h

theorem storable_empty : Json.empty.Storable := ⟨trivial, by decide⟩

/-- A part that is a payload, or left out, is storable. -/
theorem storable_of_orElse {slot : Slot} {payload : Json} (read : slot.orElse payload? .empty = some payload)
    (part : ∀ x, slot = .given x → x.Representable ∧ x.depth ≤ 100) : payload.Storable := by
  cases slot with
  | given x =>
    obtain ⟨whole, shallow⟩ := part x rfl
    obtain ⟨normal, depth⟩ := whole.normal
    obtain ⟨-, ⟨⟩⟩ := Option.ite_none_right_eq_some.mp (show (if x.isWhole then some x.normal else none) = _ from read)
    exact ⟨normal, depth.trans shallow⟩
  | missing =>
    cases read
    exact storable_empty
  | ended =>
    cases read
    exact storable_empty

end Json

open Json

/-! ## Functions -/

/-- All payloads may be stored. -/
structure FunctionSpec.Storable (f : FunctionSpec) : Prop where
  event : f.event.Storable
  headers : f.headers.Storable
  params : f.params.Storable

namespace FunctionSpec

variable {f : FunctionSpec} {fs fs' : List FunctionSpec} {j : Json}

theorem Storable.representable (h : f.Storable) : f.toJson.Representable :=
  ⟨h.event.representable, trivial, h.headers.representable, h.params.representable, trivial⟩

theorem Storable.shallow (h : f.Storable) : f.toJson.depth ≤ 101 := by
  have event := h.event.shallow
  have headers := h.headers.shallow
  have params := h.params.shallow
  simp only [toJson, depth, depthMembers]
  omega

theorem storable_of_ofJson? (read : ofJson? j = some f) (whole : j.Representable) (shallow : j.depth ≤ 101) :
    f.Storable := by
  unfold ofJson? at read
  simp only [Option.bind_eq_bind, Option.bind_eq_some_iff] at read
  obtain ⟨slots, record, read⟩ := read
  split at read
  · next id event headers params =>
    have part {x : Json} (given : Slot.given x ∈ [id, event, headers, params]) := part_of_record record whole shallow given
    simp only [Option.bind_eq_some_iff, Option.some.injEq] at read
    obtain ⟨_, _, e, he, h, hh, p, hp, rfl⟩ := read
    refine ⟨storable_of_orElse he ?_, storable_of_orElse hh ?_, storable_of_orElse hp ?_⟩
    all_goals
      rintro x rfl
      exact part (by simp)
  · cases read

/-- A list of functions with storable payloads, as it is written. -/
theorem representable_ofList (h : ∀ f ∈ fs, f.Storable) : (ofList toJson fs).Representable := by
  refine representableItems_iff.mpr fun x mem => ?_
  obtain ⟨f, own, rfl⟩ := List.mem_map.mp mem
  exact (h f own).representable

theorem depth_ofList (h : ∀ f ∈ fs, f.Storable) : (ofList toJson fs).depth ≤ 102 := by
  refine Nat.succ_le_succ (depthItems_le_iff.mpr fun x mem => ?_)
  obtain ⟨f, own, rfl⟩ := List.mem_map.mp mem
  exact (h f own).shallow

theorem storable_of_list? (read : list? ofJson? j = some fs) (whole : j.Representable) (shallow : j.depth ≤ 102) :
    ∀ f ∈ fs, f.Storable := by
  cases j with
  | arr items =>
    replace whole := representableItems_iff.mp whole
    replace shallow := depthItems_le_iff.mp (Nat.le_of_succ_le_succ shallow)
    change items.mapM ofJson? = some fs at read
    induction items generalizing fs with
    | nil =>
      cases read
      simp
    | cons x xs ih =>
      rw [List.mapM_cons] at read
      simp only [Option.bind_eq_bind, Option.bind_eq_some_iff, Option.pure_def, Option.some.injEq] at read
      obtain ⟨f, first, rest, others, rfl⟩ := read
      rw [List.forall_mem_cons] at whole shallow ⊢
      exact ⟨storable_of_ofJson? first whole.1 shallow.1, ih whole.2 shallow.2 others⟩
  | _ => cases read

/-- What is read of a column of functions is storable if what was written is. -/
theorem storable_of_readFunctions {kind : JsonColumn} {table : String} (h : ∀ f ∈ fs, f.Storable)
    (read : readFunctions table (functionsText kind fs) = .ok fs') : ∀ f ∈ fs', f.Storable := by
  have column : readJson? (list? ofJson?) (functionsText kind fs) = some fs' := by
    unfold readFunctions at read
    cases result : readJson? (list? ofJson?) (functionsText kind fs) with
    | none =>
      rw [result] at read
      cases read
    | some _ =>
      rw [result] at read
      cases read
      rfl
  rw [functionsText, kind.readJson?_text] at column
  obtain ⟨j, found, functions⟩ := Option.bind_eq_some_iff.mp column
  obtain ⟨⟨⟩, whole⟩ := Option.filter_eq_some_iff.mp found
  -- a column may change numbers, and what is read of it has no more containers than what was written
  obtain ⟨normal, depth⟩ := (representable_of_isWhole_reread whole).normal
  exact storable_of_list? functions normal (depth.trans ((depth_reread_le _ _ _).trans (depth_ofList h)))

end FunctionSpec

/-! ## Jobs -/

/-- The payloads of all functions may be stored. -/
def Job.Storable (j : Job) : Prop := ∀ f ∈ j.functions, f.Storable

/-- The whole job may be stored in an entry, whether its schedule was accepted or not. -/
theorem Job.Storable.keepable_of_narrow {j : Job} (h : j.Storable) (narrow : j.schedule.Narrow) :
    j.toJson.Keepable := by
  have schedule : j.schedule.valueJson.Representable ∧ j.schedule.valueJson.depth = 0 := by
    cases hs : j.schedule with
    | interval minutes =>
      rw [hs] at narrow
      have fits : minutes < 4294967296 := narrow
      exact ⟨⟨by omega, by simp only [wordLimit]; omega⟩, rfl⟩
    | periodical expression => exact ⟨trivial, rfl⟩
    | onTime at_ => exact ⟨trivial, rfl⟩
  constructor
  · exact ⟨trivial, trivial, trivial, FunctionSpec.representable_ofList h, trivial, trivial,
      ⟨trivial, schedule.1, trivial⟩, trivial, trivial, trivial⟩
  · have functions := FunctionSpec.depth_ofList h
    simp only [toJson, Schedule.toJson, depth, depthMembers, schedule.2, ofInstant, ofIdentifier, ExecutionType.toJson,
      JobStatus.toJson, ScheduleType.toJson]
    omega

theorem Job.Storable.keepable {j : Job} (h : j.Storable) (accepted : j.schedule.Accepted) : j.toJson.Keepable :=
  h.keepable_of_narrow accepted.narrow

end Timetable
