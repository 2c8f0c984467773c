import Timetable.Job.Basic
import Timetable.Proofs.Identifier
import Timetable.Proofs.Queue.Tidy

/-!
# Names are read from both ends

The name of an instance is its key, its specification and its millisecond with colons between them, and each of the
first two may hold colons itself. A name stands for one thing under either of two conditions:
* there is no colon in the keys, so that the key ends at the first colon, whatever the expressions are
  (`instanceId_inj_of_keys`, `repeatField_inj_of_keys`);
* the expressions are accepted ones, which hold no colon, so that the parts can be cut off from the last colon on,
  whatever the keys are (`instanceId_inj`, `repeatField_inj`).

The keys of jobs are of the first kind (`Job.colon_not_mem_queueKey`). Under neither condition names collide, which
the example at the end shows.
-/

namespace Timetable

open Text

/-! ## Keys without colons -/

/-- A text has one first colon. -/
theorem cut_first_unique {a b x y : List Char} (h : a ++ ':' :: x = b ++ ':' :: y) (ha : ':' ∉ a) (hb : ':' ∉ b) :
    a = b ∧ x = y := by
  have reversed : x.reverse ++ ':' :: a.reverse = y.reverse ++ ':' :: b.reverse := by
    simpa using congrArg List.reverse h
  obtain ⟨behind, before⟩ := cut_unique reversed (by simpa using ha) (by simpa using hb)
  exact ⟨List.reverse_inj.mp before, List.reverse_inj.mp behind⟩

variable {key key' : String} {spec spec' : RepeatSpec} {t t' : Instant}

theorem toList_instanceId_of_key (key : String) (spec : RepeatSpec) (t : Instant) :
    (instanceId key spec t).toList = key.toList ++ ':' :: (spec.id.toList ++ ':' :: signed t.millis) := by
  simp [instanceId, intText]

theorem instanceId_inj_of_keys (hk : ':' ∉ key.toList) (hk' : ':' ∉ key'.toList)
    (h : instanceId key spec t = instanceId key' spec' t') : key = key' ∧ spec = spec' ∧ t.millis = t'.millis := by
  have chars := congrArg String.toList h
  rw [toList_instanceId_of_key, toList_instanceId_of_key] at chars
  obtain ⟨keys, rest⟩ := cut_first_unique chars hk hk'
  obtain ⟨specs, times⟩ := cut_unique rest (colon_not_mem_signed _) (colon_not_mem_signed _)
  exact ⟨String.toList_inj.mp keys, RepeatSpec.id_injective (String.toList_inj.mp specs), signed_injective times⟩

theorem repeatField_inj_of_keys (hk : ':' ∉ key.toList) (hk' : ':' ∉ key'.toList)
    (h : repeatField key spec = repeatField key' spec') : key = key' ∧ spec = spec' := by
  have chars : key.toList ++ ':' :: ':' :: spec.id.toList = key'.toList ++ ':' :: ':' :: spec'.id.toList := by
    simpa [repeatField] using congrArg String.toList h
  obtain ⟨keys, rest⟩ := cut_first_unique chars hk hk'
  exact ⟨String.toList_inj.mp keys, RepeatSpec.id_injective (String.toList_inj.mp (List.cons.inj rest).2)⟩

/-! ## Keys of jobs -/

theorem Job.colon_not_mem_queueKey (j : Job) : ':' ∉ j.queueKey.toList := j.id.colon_not_mem_text

/-! ## Names -/

/-- The key and the specification can be told from a name: no colon stands in either key, or both expressions are
accepted ones. -/
def Separable (key key' : String) (spec spec' : RepeatSpec) : Prop :=
  (':' ∉ key.toList ∧ ':' ∉ key'.toList) ∨ (spec.Parsed ∧ spec'.Parsed)

theorem Separable.instanceId_iff (h : Separable key key' spec spec') (t t' : Instant) :
    instanceId key spec t = instanceId key' spec' t' ↔ key = key' ∧ spec = spec' ∧ t.millis = t'.millis := by
  constructor
  · intro same
    rcases h with ⟨hk, hk'⟩ | ⟨hs, hs'⟩
    · exact instanceId_inj_of_keys hk hk' same
    · exact instanceId_inj hs.colonless hs'.colonless same
  · rintro ⟨rfl, rfl, times⟩
    rw [instanceId, instanceId, times]

theorem Separable.repeatField_iff (h : Separable key key' spec spec') :
    repeatField key spec = repeatField key' spec' ↔ key = key' ∧ spec = spec' := by
  constructor
  · intro same
    rcases h with ⟨hk, hk'⟩ | ⟨hs, hs'⟩
    · exact repeatField_inj_of_keys hk hk' same
    · exact repeatField_inj hs.colonless hs'.colonless same
  · rintro ⟨rfl, rfl⟩
    rfl

/-- No name stands for two things: an instance is known by key, specification and millisecond, a record by key and
specification, and a single entry by its key. The keys of all jobs do for this. -/
theorem names_told_apart :
    (∀ key key' spec spec', Separable key key' spec spec' →
      (∀ t t', instanceId key spec t = instanceId key' spec' t' ↔ key = key' ∧ spec = spec' ∧ t.millis = t'.millis) ∧
      (repeatField key spec = repeatField key' spec' ↔ key = key' ∧ spec = spec')) ∧
    Function.Injective singleId ∧
    (∀ key key' spec t, singleId key ≠ instanceId key' spec t) ∧
    ∀ job job' : Job, ∀ spec spec', Separable job.queueKey job'.queueKey spec spec' := by
  refine ⟨fun key key' spec spec' h => ⟨h.instanceId_iff, h.repeatField_iff⟩, fun _ _ same => singleId_inj same,
    fun _ _ _ _ => singleId_ne_instanceId, fun job job' _ _ => ?_⟩
  exact .inl ⟨job.colon_not_mem_queueKey, job'.colon_not_mem_queueKey⟩

/-- Two expressions with colons under one key, of which one is the other with more behind it. -/
theorem names_of_odd_expressions_told_apart :
    Separable "a" "a" (.cron "b") (.cron "b:0") ∧
    instanceId "a" (.cron "b") (.ofMillis 0) ≠ instanceId "a" (.cron "b:0") (.ofMillis 0) ∧
    repeatField "a" (.cron "b") ≠ repeatField "a" (.cron "b:0") := by
  have separable : Separable "a" "a" (.cron "b") (.cron "b:0") := .inl (by decide)
  obtain ⟨instances, records⟩ := names_told_apart.1 "a" "a" (.cron "b") (.cron "b:0") separable
  refine ⟨separable, ?_, ?_⟩
  · rw [ne_eq, instances]
    decide
  · rw [ne_eq, records]
    decide

example : instanceId "a" (.cron "b:every:1") (.ofMillis 0) = instanceId "a:cron:b" (.every 1) (.ofMillis 0) := by
  decide +kernel

end Timetable
