import Mathlib.Order.Defs.LinearOrder
import Mathlib.Tactic.SplitIfs
import Timetable.Instant.Basic

/-!
# The order of instants

Instants are ordered linearly, and whole milliseconds lie among them as their numbers do.
-/

namespace Timetable.Instant

instance : LinearOrder Instant where
  le a b := a ≤ b
  lt a b := a < b
  le_refl a := by
    rw [le_iff]
    exact .inr ⟨rfl, Nat.le_refl _⟩
  le_trans a b c hab hbc := by
    simp only [le_iff, Fin.le_def] at *
    omega
  le_antisymm a b hab hba := by
    simp only [le_iff, Fin.le_def, ext_iff', Fin.ext_iff] at *
    omega
  le_total a b := by
    simp only [le_iff, Fin.le_def]
    omega
  lt_iff_le_not_ge a b := by
    simp only [le_iff, lt_iff, Fin.le_def, Fin.lt_def]
    omega
  toDecidableLE := inferInstance
  toDecidableLT := inferInstance

theorem lt_of_second_lt {t u : Instant} (h : t.second < u.second) : t < u := .inl h

/-! ## Whole milliseconds -/

/-- Whether an instant lies at a whole millisecond, outside leap seconds. -/
def Whole (t : Instant) : Prop := ofMillis t.millis = t

theorem whole_ofMillis (ms : Int) : (ofMillis ms).Whole := by
  simp [Whole]

theorem whole_of_nano_eq_zero {t : Instant} (h : t.nano.val = 0) : t.Whole := by
  obtain ⟨s, n⟩ := t
  simp only at h
  simp only [Whole, ofMillis, ofNanos, millis, nanos, nanosPerMilli, nanosPerSecond, ext_iff', h,
    Fin.ext_iff, val_nanosInto]
  omega

theorem Whole.ordinary {t : Instant} (h : t.Whole) : ¬ t.InLeapSecond := by
  rw [← h]
  exact not_inLeapSecond_ofNanos _

/-- An instant comes before every later millisecond, also from within a leap second. -/
theorem lt_ofMillis {t : Instant} {ms : Int} (h : t.millis < ms) : t < ofMillis ms := by
  obtain ⟨s, n⟩ := t
  have := n.isLt
  simp only [millis, nanos, ofMillis, ofNanos, nanosPerMilli, nanosPerSecond, lt_iff, Fin.lt_def,
    val_nanosInto] at *
  omega

/-- Outside leap seconds milliseconds pass with the time. -/
theorem millis_mono {t u : Instant} (h : ¬ t.InLeapSecond) (le : t ≤ u) : t.millis ≤ u.millis := by
  simp only [InLeapSecond, le_iff, Fin.le_def, millis, nanos, nanosPerSecond, nanosPerMilli] at *
  omega

theorem eq_of_millis_eq {t u : Instant} (ht : t.Whole) (hu : u.Whole) (h : t.millis = u.millis) :
    t = u := by
  rw [← ht, ← hu, h]

/-! ## Passing time -/

/-- Outside leap seconds the place on the clock goes on with the time. -/
theorem nanos_mono {t u : Instant} (h : ¬ t.InLeapSecond) (le : t ≤ u) : t.nanos ≤ u.nanos := by
  simp only [InLeapSecond, le_iff, Fin.le_def, nanos, nanosPerSecond] at *
  omega

theorem ofNanos_mono {m n : Int} (le : m ≤ n) : ofNanos m ≤ ofNanos n := by
  simp only [ofNanos, le_iff, Fin.le_def, nanosPerSecond, val_nanosInto]
  omega

theorem le_plus {t : Instant} {span : Int} (h : 0 ≤ span) : t ≤ t.plus span := by
  obtain ⟨s, n⟩ := t
  have := n.isLt
  simp only [plus]
  split_ifs with hleap hwithin
  · -- still within the leap second
    simp only [InLeapSecond, nanos, nanosPerSecond, le_iff, Fin.le_def, val_nanosInto, true_and] at *
    omega
  all_goals
    simp only [InLeapSecond, nanos, ofNanos, nanosPerSecond, le_iff, Fin.le_def,
      val_nanosInto] at *
    omega

theorem le_plusMillis (t : Instant) (ms : Nat) : t ≤ t.plusMillis ms :=
  le_plus (by simp only [nanosPerMilli]; omega)

/-- Whoever waits longer comes later, also from within a leap second. -/
theorem plus_le_plus {t : Instant} {a b : Int} (h : 0 ≤ a) (le : a ≤ b) : t.plus a ≤ t.plus b := by
  obtain ⟨s, n⟩ := t
  have := n.isLt
  simp only [plus]
  split_ifs with leap within within'
  all_goals
    simp only [InLeapSecond, nanos, ofNanos, nanosPerSecond, le_iff, Fin.le_def, val_nanosInto, true_and] at *
    omega

theorem plusMillis_le_plusMillis (t : Instant) {a b : Nat} (le : a ≤ b) : t.plusMillis a ≤ t.plusMillis b :=
  plus_le_plus (by simp only [nanosPerMilli]; omega) (by simp only [nanosPerMilli]; omega)

theorem plusMillis_ofMillis (a b : Int) : (ofMillis a).plusMillis b = ofMillis (a + b) := by
  unfold plusMillis ofMillis
  rw [plus_of_not_inLeapSecond (not_inLeapSecond_ofNanos _), nanos_ofNanos, ← Int.add_mul]

section

variable {t u : Instant}

theorem not_inLeapSecond_plus (h : ¬ t.InLeapSecond) (span : Int) : ¬ (t.plus span).InLeapSecond := by
  rw [plus_of_not_inLeapSecond h]
  exact not_inLeapSecond_ofNanos _

theorem nanos_plus (h : ¬ t.InLeapSecond) (span : Int) : (t.plus span).nanos = t.nanos + span := by
  rw [plus_of_not_inLeapSecond h, nanos_ofNanos]

theorem plus_plus (h : ¬ t.InLeapSecond) (a b : Int) : (t.plus a).plus b = t.plus (a + b) := by
  rw [plus_of_not_inLeapSecond (not_inLeapSecond_plus h a), nanos_plus h, plus_of_not_inLeapSecond h, Int.add_assoc]

theorem plus_mono (h : ¬ t.InLeapSecond) (h' : ¬ u.InLeapSecond) (le : t ≤ u) {span span' : Int}
    (longer : span ≤ span') : t.plus span ≤ u.plus span' := by
  rw [plus_of_not_inLeapSecond h, plus_of_not_inLeapSecond h']
  exact ofNanos_mono (Int.add_le_add (nanos_mono h le) longer)

end

end Timetable.Instant
