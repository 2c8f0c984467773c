import Timetable.Proofs.Schedule.Repeat
import Timetable.Queue.Entry

/-!
# Identifiers of entries and fields of records

Identifiers are made of parts with colons between them, and keys may hold colons too. They are still told apart,
since no part behind the key holds one:
* `instanceId_inj`: an instance is known by key, specification and millisecond;
* `repeatField_inj`: a record is known by key and specification;
* `singleId_inj`, `singleId_ne_instanceId`: the single entry of a key is like no other entry.
-/

namespace Timetable

open Text

/-! ## Parts -/

/-- A text has one last colon. -/
theorem cut_unique {a b x y : List Char} (h : a ++ ':' :: x = b ++ ':' :: y) (hx : ':' ∉ x)
    (hy : ':' ∉ y) : a = b ∧ x = y := by
  rcases List.append_eq_append_iff.mp h with ⟨mid, rfl, hm⟩ | ⟨mid, rfl, hm⟩
  · cases mid with
    | nil => simpa using hm
    | cons c mid =>
      rw [List.cons_append, List.cons.injEq] at hm
      exact absurd (hm.2 ▸ by simp) hx
  · cases mid with
    | nil => simpa [eq_comm] using hm
    | cons c mid =>
      rw [List.cons_append, List.cons.injEq] at hm
      exact absurd (hm.2 ▸ by simp) hy

namespace Text

theorem digits_injective {m n : Nat} (h : digits m = digits n) : m = n := by
  rw [← ofDigits_digits m, h, ofDigits_digits]

theorem mem_signed {n : Int} {c : Char} (h : c ∈ signed n) : c = '-' ∨ c.isDigit := by
  cases n with
  | ofNat n => exact .inr (isDigit_of_mem_digits h)
  | negSucc n => exact (List.mem_cons.mp h).imp_right isDigit_of_mem_digits

theorem signed_injective {m n : Int} (h : signed m = signed n) : m = n := by
  have positive {k l : Nat} (h : digits k = '-' :: digits l) : False := by
    have := isDigit_of_mem_digits (n := k) (c := '-') (by simp [h])
    revert this
    decide
  cases m with
  | ofNat m =>
    cases n with
    | ofNat n => exact congrArg Int.ofNat (digits_injective h)
    | negSucc n => exact (positive h).elim
  | negSucc m =>
    cases n with
    | ofNat n => exact (positive h.symm).elim
    | negSucc n =>
      simp only [signed, List.cons.injEq, true_and] at h
      rw [Nat.succ.inj (digits_injective h)]

theorem colon_not_mem_signed (n : Int) : ':' ∉ signed n := fun h => by
  rcases mem_signed h with h | h <;> revert h <;> decide

theorem colon_not_mem_digits (n : Nat) : ':' ∉ digits n := colon_not_mem_signed n

end Text

namespace RepeatSpec

/-- The part of an identifier in front of the colon. -/
def kindChars : RepeatSpec → List Char
  | every _ => "every".toList
  | cron _ => "cron".toList

/-- The part of an identifier behind the colon. -/
def valueChars : RepeatSpec → List Char
  | every millis => digits millis
  | cron expression => expression.toList

theorem toList_id (spec : RepeatSpec) :
    spec.id.toList = spec.kindChars ++ ':' :: spec.valueChars := by
  cases spec <;> simp [id, kindChars, valueChars, natText]

theorem colon_not_mem_kindChars (spec : RepeatSpec) : ':' ∉ spec.kindChars := by
  cases spec <;> simp [kindChars]

theorem Colonless.not_mem_valueChars {spec : RepeatSpec} (h : spec.Colonless) :
    ':' ∉ spec.valueChars := by
  cases spec with
  | every millis => exact colon_not_mem_digits millis
  | cron expression => exact h

theorem eq_of_chars_eq {spec spec' : RepeatSpec} (hk : spec.kindChars = spec'.kindChars)
    (hv : spec.valueChars = spec'.valueChars) : spec = spec' := by
  cases spec with
  | every millis =>
    cases spec' with
    | every millis' => exact congrArg every (digits_injective hv)
    | cron expression => simp [kindChars] at hk
  | cron expression =>
    cases spec' with
    | every millis' => simp [kindChars] at hk
    | cron expression' => exact congrArg cron (String.toList_inj.mp hv)

theorem id_injective {spec spec' : RepeatSpec} (h : spec.id = spec'.id) : spec = spec' := by
  have chars := congrArg String.toList h
  rw [toList_id, toList_id] at chars
  cases spec with
  | every millis =>
    cases spec' with
    | every millis' => exact eq_of_chars_eq rfl (List.cons.inj (List.append_cancel_left chars)).2
    | cron expression => simp [kindChars] at chars
  | cron expression =>
    cases spec' with
    | every millis' => simp [kindChars] at chars
    | cron expression' => exact eq_of_chars_eq rfl (List.cons.inj (List.append_cancel_left chars)).2

end RepeatSpec

/-! ## The whole -/

variable {key key' : String} {spec spec' : RepeatSpec} {t t' : Instant}

theorem toList_instanceId (key : String) (spec : RepeatSpec) (t : Instant) :
    (instanceId key spec t).toList =
      ((key.toList ++ ':' :: spec.kindChars) ++ ':' :: spec.valueChars) ++
        ':' :: signed t.millis := by
  simp [instanceId, intText, spec.toList_id]

/-- An instance is known by key, specification and millisecond. -/
theorem instanceId_inj (hs : spec.Colonless) (hs' : spec'.Colonless)
    (h : instanceId key spec t = instanceId key' spec' t') :
    key = key' ∧ spec = spec' ∧ t.millis = t'.millis := by
  have chars := congrArg String.toList h
  rw [toList_instanceId, toList_instanceId] at chars
  obtain ⟨chars, hm⟩ := cut_unique chars (colon_not_mem_signed _) (colon_not_mem_signed _)
  obtain ⟨chars, hv⟩ := cut_unique chars hs.not_mem_valueChars hs'.not_mem_valueChars
  obtain ⟨chars, hk⟩ :=
    cut_unique chars spec.colon_not_mem_kindChars spec'.colon_not_mem_kindChars
  exact ⟨String.toList_inj.mp chars, RepeatSpec.eq_of_chars_eq hk hv, signed_injective hm⟩

/-- A record is known by key and specification. -/
theorem repeatField_inj (hs : spec.Colonless) (hs' : spec'.Colonless)
    (h : repeatField key spec = repeatField key' spec') : key = key' ∧ spec = spec' := by
  have chars : ((key.toList ++ [':']) ++ ':' :: spec.kindChars) ++ ':' :: spec.valueChars =
      ((key'.toList ++ [':']) ++ ':' :: spec'.kindChars) ++ ':' :: spec'.valueChars := by
    simpa [repeatField, RepeatSpec.toList_id] using congrArg String.toList h
  obtain ⟨chars, hv⟩ := cut_unique chars hs.not_mem_valueChars hs'.not_mem_valueChars
  obtain ⟨chars, hk⟩ :=
    cut_unique chars spec.colon_not_mem_kindChars spec'.colon_not_mem_kindChars
  exact ⟨String.toList_inj.mp (List.append_cancel_right chars), RepeatSpec.eq_of_chars_eq hk hv⟩

/-- Keys of one length are told apart whatever the specifications are. -/
theorem repeatField_key (hl : key.toList.length = key'.toList.length)
    (h : repeatField key spec = repeatField key' spec') : key = key' := by
  have chars := congrArg String.toList h
  simp only [repeatField, String.toList_append, List.append_assoc] at chars
  exact String.toList_inj.mp (List.append_inj_left chars hl)

theorem toList_singleId (key : String) :
    (singleId key).toList = key.toList ++ ':' :: "once".toList := by
  simp [singleId]

theorem singleId_inj (h : singleId key = singleId key') : key = key' := by
  have chars := congrArg String.toList h
  rw [toList_singleId, toList_singleId] at chars
  exact String.toList_inj.mp (List.append_cancel_right chars)

theorem singleId_ne_instanceId : singleId key ≠ instanceId key' spec t := by
  intro h
  have chars := congrArg String.toList h
  rw [toList_singleId, toList_instanceId] at chars
  obtain ⟨_, hm⟩ := cut_unique chars (by decide) (colon_not_mem_signed _)
  have letter : 'o' ∈ signed t.millis := by simp [← hm]
  rcases mem_signed letter with h | h <;> revert h <;> decide

end Timetable
