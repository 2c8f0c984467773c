import Timetable.Proofs.Cron.Alphabet
import Timetable.Proofs.Cron.Later
import Timetable.Proofs.Instant.Order
import Timetable.Schedule.Repeat

/-!
# Fires lie ahead

For specifications that are `Usable`:
* `RepeatSpec.nextAfter_spec`: the next fire is later, at a whole millisecond, and within the calendar;
* `RepeatSpec.nextAfter_isOk`: there is an answer as long as the calendar reaches the next second.

Milliseconds beyond a signed word are counted down and may lead into the past. From a fire on there is an answer for
them as well (`RepeatSpec.continues_of_nextAfter`).
-/

namespace Timetable

/-- What can be a fire: a whole millisecond of the calendar. -/
structure Instant.Firable (t : Instant) : Prop where
  whole : t.Whole
  representable : t.Representable

namespace RepeatSpec

/-- An expression that is accepted, or a positive number of milliseconds that fits a signed word. -/
def Usable : RepeatSpec → Prop
  | every millis => 1 ≤ millis ∧ millis ≤ 9223372036854775807
  | cron expression => ∃ p, parseExpression expression = .ok p

/-- Any expression, or a positive number of milliseconds that fits a signed word. -/
def Countable : RepeatSpec → Prop
  | every millis => 1 ≤ millis ∧ millis ≤ 9223372036854775807
  | cron _ => True

theorem Usable.countable {spec : RepeatSpec} (h : spec.Usable) : spec.Countable := by
  cases spec with
  | every millis => exact h
  | cron expression => trivial

/-- Whether no colon is in the expression. -/
def Colonless : RepeatSpec → Prop
  | every _ => True
  | cron expression => ':' ∉ expression.toList

theorem Usable.colonless {spec : RepeatSpec} (h : spec.Usable) : spec.Colonless := by
  cases spec with
  | every millis => trivial
  | cron expression =>
    obtain ⟨p, hp⟩ := h
    exact colon_not_mem_of_parseExpression hp

/-! ## Multiples -/

theorem lt_nextMultiple {every : Int} (h : 1 ≤ every) (ms : Int) : ms < nextMultiple every ms := by
  rw [nextMultiple, Int.add_mul, Int.one_mul, Int.mul_comm]
  have := Int.mul_ediv_add_emod ms every
  have := Int.emod_lt_of_pos ms (by omega : 0 < every)
  omega

theorem nextMultiple_le {every : Int} (h : 1 ≤ every) (ms : Int) :
    nextMultiple every ms ≤ ms + every := by
  rw [nextMultiple, Int.add_mul, Int.one_mul, Int.mul_comm]
  have := Int.mul_ediv_add_emod ms every
  have := Int.emod_nonneg ms (by omega : every ≠ 0)
  omega

/-- The multiple next after a number is as far away as that number or `every`, whichever is farther. -/
theorem nextMultiple_bounds {every : Int} (h : 1 ≤ every) (ms : Int) :
    nextMultiple every ms ≤ max every (2 * ms) := by
  have le := nextMultiple_le h ms
  rcases Int.le_total every ms with hms | hms
  · omega
  · rcases Int.lt_or_le ms 0 with neg | pos
    · omega
    · rcases Int.lt_or_eq_of_le hms with hlt | rfl
      · have zero : ms / every = 0 := Int.ediv_eq_zero_of_lt pos hlt
        simp only [nextMultiple, zero]
        omega
      · omega

theorem fitsWord_nextMultiple {every ms : Int} (h : 1 ≤ every) (hfit : FitsWord every)
    (hms : -4611686018427387904 ≤ ms ∧ ms < 4611686018427387904) :
    FitsWord (nextMultiple every ms) := by
  have low := lt_nextMultiple h ms
  have high := nextMultiple_bounds h ms
  simp only [FitsWord] at *
  omega

/-- Multiples that are counted down only come closer to zero, up to the milliseconds themselves. -/
theorem fitsWord_nextMultiple_of_le {every ms ms' : Int} (neg : every < 0) (le : ms ≤ ms')
    (bound : ms' < 4611686018427387904) (fits : FitsWord (nextMultiple every ms)) :
    FitsWord (nextMultiple every ms') := by
  obtain ⟨down, rfl⟩ : ∃ down, every = -down := ⟨-every, by omega⟩
  have positive : 0 < down := by omega
  have counted (ms : Int) : nextMultiple (-down) ms = ms / down * down - down := by
    rw [nextMultiple, Int.ediv_neg, Int.mul_neg, ← Int.neg_mul, Int.neg_add, Int.neg_neg, Int.add_mul, Int.neg_mul,
      Int.one_mul, Int.sub_eq_add_neg]
  have later : ms / down * down ≤ ms' / down * down :=
    Int.mul_le_mul_of_nonneg_right (Int.ediv_le_ediv positive le) (Int.le_of_lt positive)
  have last : ms' / down * down ≤ ms' := Int.ediv_mul_le ms' (Int.ne_of_gt positive)
  rw [counted] at fits ⊢
  simp only [FitsWord] at *
  omega

/-- Milliseconds within the calendar, one second more or less, are far from the ends of a word. -/
theorem millis_bounds {t : Instant} (h : (t.add? Instant.nanosPerSecond).isSome) :
    -4611686018427387904 ≤ t.millis ∧ t.millis < 4611686018427387904 := by
  obtain ⟨u, hu⟩ := Option.isSome_iff_exists.mp h
  obtain ⟨rfl, low, high⟩ := Instant.add?_eq_some_iff.mp hu
  rw [Cron.Pattern.second_plus_second] at low high
  have := t.nano.isLt
  simp only [Instant.first, Instant.last] at low high
  simp only [Instant.millis, Instant.nanos, Instant.nanosPerSecond, Instant.nanosPerMilli]
  omega

/-- So are the milliseconds of a fire. -/
theorem firable_bounds {t : Instant} (h : t.Firable) :
    -4611686018427387904 ≤ t.millis ∧ t.millis < 4611686018427387904 := by
  obtain ⟨low, high⟩ := h.representable
  have := t.nano.isLt
  simp only [Instant.first, Instant.last] at low high
  simp only [Instant.millis, Instant.nanos, Instant.nanosPerSecond, Instant.nanosPerMilli]
  omega

/-! ## The next fire -/

theorem signedWord_every {millis : Nat} (h : (every millis).Usable) :
    1 ≤ signedWord millis ∧ FitsWord (signedWord millis) := by
  obtain ⟨low, high⟩ := h
  have fits : FitsWord millis := by
    simp only [FitsWord]
    omega
  rw [signedWord_of_fits fits]
  exact ⟨by omega, fits⟩

theorem nextAfter_every {millis : Nat} (h : 1 ≤ millis) (t : Instant) :
    (every millis).nextAfter t = nextFire (signedWord millis) t := by
  cases millis with
  | zero => omega
  | succ n => rfl

theorem nextFire_eq_ok_some_iff {every : Int} {t u : Instant} :
    nextFire every t = .ok (some u) ↔ FitsWord (nextMultiple every t.millis) ∧
      u = Instant.ofMillis (nextMultiple every t.millis) ∧ u.Representable := by
  simp only [nextFire, Instant.ofMillis?]
  split
  · next fits =>
    simp only [Except.ok.injEq, fits, true_and]
    split
    · next representable =>
      rw [Option.some.injEq, eq_comm]
      exact ⟨fun same => ⟨same, same ▸ representable⟩, fun h => h.1⟩
    · next beyond =>
      refine iff_of_false nofun ?_
      rintro ⟨rfl, representable⟩
      exact beyond representable
  · next wide => exact iff_of_false nofun fun h => wide h.1

theorem nextFire_firable {every : Int} {t u : Instant} (hu : nextFire every t = .ok (some u)) : u.Firable := by
  obtain ⟨-, rfl, representable⟩ := nextFire_eq_ok_some_iff.mp hu
  exact ⟨Instant.whole_ofMillis _, representable⟩

theorem nextFire_spec {every : Int} (h : 1 ≤ every) {t u : Instant}
    (hu : nextFire every t = .ok (some u)) : t < u ∧ u.Firable := by
  refine ⟨?_, nextFire_firable hu⟩
  obtain ⟨-, rfl, -⟩ := nextFire_eq_ok_some_iff.mp hu
  exact Instant.lt_ofMillis (lt_nextMultiple h _)

theorem nextAfter_cron {expression : String} {p : Cron.Pattern}
    (h : parseExpression expression = .ok p) (t : Instant) :
    (cron expression).nextAfter t = p.nextAfter t := by
  simp only [nextAfter, nextOccurrences, h]
  show Except.map List.head? (p.occurrences 1 t) = _
  simp only [Cron.Pattern.occurrences]
  cases p.nextAfter t with
  | error e => rfl
  | ok next => cases next <;> rfl

theorem regular_of_parseExpression {expression : String} {p : Cron.Pattern}
    (h : parseExpression expression = .ok p) : p.Regular := by
  unfold parseExpression at h
  split at h
  · next hp =>
    cases h
    exact Cron.Pattern.regular_of_ofChars? hp
  · cases h

/-- An expression is accepted if there is an answer. -/
theorem usable_of_nextAfter {expression : String} {t : Instant} {next : Option Instant}
    (h : (cron expression).nextAfter t = .ok next) : (cron expression).Usable := by
  cases parsed : parseExpression expression with
  | ok p => exact ⟨p, parsed⟩
  | error e =>
    simp only [nextAfter, nextOccurrences, parsed] at h
    cases h

theorem Countable.usable {spec : RepeatSpec} (h : spec.Countable) {t : Instant} {next : Option Instant}
    (fires : spec.nextAfter t = .ok next) : spec.Usable := by
  cases spec with
  | every millis => exact h
  | cron expression => exact usable_of_nextAfter fires

/-- The next fire is later, at a whole millisecond, and within the calendar. -/
theorem nextAfter_spec {spec : RepeatSpec} (h : spec.Usable) {t u : Instant}
    (hu : spec.nextAfter t = .ok (some u)) : t < u ∧ u.Firable := by
  cases spec with
  | every millis =>
    rw [nextAfter_every h.1] at hu
    exact nextFire_spec (signedWord_every h).1 hu
  | cron expression =>
    obtain ⟨p, hp⟩ := h
    rw [nextAfter_cron hp] at hu
    obtain ⟨later, nano, rep⟩ := Cron.Pattern.nextAfter_spec (regular_of_parseExpression hp) hu
    exact ⟨Instant.lt_of_second_lt later, Instant.whole_of_nano_eq_zero nano, rep⟩

/-- Only the end of the calendar leaves a search without an answer. -/
theorem nextAfter_eq_error {spec : RepeatSpec} (h : spec.Usable) {t : Instant} {e : ScheduleError}
    (he : spec.nextAfter t = .error e) : e = .outOfRange := by
  cases spec with
  | every millis =>
    rw [nextAfter_every h.1, nextFire] at he
    split at he <;> cases he
    rfl
  | cron expression =>
    obtain ⟨p, hp⟩ := h
    rw [nextAfter_cron hp, Cron.Pattern.nextAfter] at he
    split at he <;> cases he
    rfl

/-- There is an answer as long as the calendar reaches the next second. -/
theorem nextAfter_isOk {spec : RepeatSpec} (h : spec.Usable) {t : Instant}
    (ht : (t.add? Instant.nanosPerSecond).isSome) : ∃ next, spec.nextAfter t = .ok next := by
  cases spec with
  | every millis =>
    obtain ⟨low, fits⟩ := signedWord_every h
    have fires := fitsWord_nextMultiple low fits (millis_bounds ht)
    exact ⟨Instant.ofMillis? _, by rw [nextAfter_every h.1, nextFire, if_pos fires]⟩
  | cron expression =>
    obtain ⟨p, hp⟩ := h
    rw [nextAfter_cron hp]
    exact Cron.Pattern.nextAfter_isOk ht

/-! ## Beyond a signed word -/

/-- Whether there is an answer from an instant on, as long as the calendar reaches the next second. -/
def Continues (spec : RepeatSpec) (t : Instant) : Prop :=
  ∀ now, t ≤ now → (now.add? Instant.nanosPerSecond).isSome → ∃ next, spec.nextAfter now = .ok next

theorem Usable.continues {spec : RepeatSpec} (h : spec.Usable) (t : Instant) : spec.Continues t :=
  fun _ _ reach => nextAfter_isOk h reach

/-- A multiple that is counted down from lies far from the ends of a word with the multiple before it. -/
theorem fitsWord_nextMultiple_of_multiple {every ms : Int} (neg : every < 0) (fits : FitsWord every)
    (low : -4611686018427387904 ≤ ms) (high : ms < 4611686018427387904) (multiple : every ∣ ms) :
    FitsWord (nextMultiple every ms) := by
  obtain ⟨count, rfl⟩ := multiple
  have before : nextMultiple every (every * count) = every * count + every := by
    rw [nextMultiple, Int.mul_ediv_cancel_left count (Int.ne_of_lt neg), Int.add_mul, Int.one_mul, Int.mul_comm]
  rw [before]
  simp only [FitsWord] at *
  rcases Int.lt_or_le (every * count) 0 with negative | positive
  · -- what lies below zero lies at least as far below as one multiple
    have counted : 1 ≤ count := by
      by_contra none
      have := Int.mul_nonneg_of_nonpos_of_nonpos (Int.le_of_lt neg) (show count ≤ 0 by omega)
      omega
    have := Int.mul_le_mul_of_nonpos_left (Int.le_of_lt neg) counted
    omega
  · omega

/-- Where one fire was found, there is an answer from that fire on, whatever the milliseconds. -/
theorem continues_of_nextAfter {spec : RepeatSpec} {t u : Instant} (h : spec.nextAfter t = .ok (some u)) :
    spec.Continues u := by
  cases spec with
  | cron expression => exact (usable_of_nextAfter h).continues u
  | every millis =>
    cases millis with
    | zero => cases h
    | succ n =>
      intro now since reach
      rw [nextAfter_every (Nat.succ_pos n)] at h ⊢
      have word : FitsWord (signedWord (n + 1 : Nat)) := by
        simp only [signedWord, FitsWord, Int.bmod_def]
        omega
      have bounds := millis_bounds reach
      have fits : FitsWord (nextMultiple (signedWord (n + 1 : Nat)) now.millis) := by
        rcases Int.lt_trichotomy (signedWord (n + 1 : Nat)) 0 with neg | zero | pos
        · -- beyond a signed word the count wraps below zero
          have firable : u.Firable := nextFire_firable h
          have le : u.millis ≤ now.millis := Instant.millis_mono firable.whole.ordinary since
          obtain ⟨low, high⟩ := firable_bounds firable
          obtain ⟨-, rfl, -⟩ := nextFire_eq_ok_some_iff.mp h
          rw [Instant.millis_ofMillis] at le low high
          have multiple : signedWord (n + 1 : Nat) ∣ nextMultiple (signedWord (n + 1 : Nat)) t.millis :=
            Int.dvd_mul_left _ _
          exact fitsWord_nextMultiple_of_le neg le bounds.2
            (fitsWord_nextMultiple_of_multiple neg word low high multiple)
        · rw [zero, nextMultiple, Int.mul_zero]
          decide
        · exact fitsWord_nextMultiple pos word bounds
      exact ⟨Instant.ofMillis? _, by rw [nextFire, if_pos fits]⟩

end RepeatSpec

end Timetable
