/-!
# Instants

A point of the time line in UTC: a second, counted from the start of 1970, and nanoseconds into it.
A second may have a *leap second* behind it, which the count of seconds skips. An instant in it belongs to the
second before and lies 10⁹ nanoseconds or more into that.

The calendar that the library writes and reads ends at the years `-262143` and `262142`; an instant outside is
*unrepresentable*, and an operation that would produce one says so instead of wrapping.

* instants are ordered by second, then by nanosecond, so a leap second comes before the second after it;
* `Instant.nanos` is the place on a clock without leap seconds, on which a leap second is the second after it;
* `Instant.millis` rounds that toward the past, `Instant.sinceMillis` rounds a difference toward zero;
* `Instant.add?` and `Instant.ofMillis?` refuse what lies outside the calendar.
-/

namespace Timetable

/-- A number as a signed 64-bit word, the form in which milliseconds are counted. -/
def signedWord (n : Int) : Int := n.bmod 18446744073709551616

/-- Whether a signed 64-bit word can hold a number. -/
def FitsWord (n : Int) : Prop := -9223372036854775808 ≤ n ∧ n < 9223372036854775808

instance (n : Int) : Decidable (FitsWord n) := inferInstanceAs (Decidable (_ ∧ _))

theorem signedWord_of_fits {n : Int} (h : FitsWord n) : signedWord n = n := by
  obtain ⟨low, high⟩ := h
  unfold signedWord
  rw [Int.bmod_eq_of_le] <;> omega

structure Instant where
  /-- Seconds from the start of 1970, negative before it. -/
  second : Int
  /-- Nanoseconds into the second, from 10⁹ on in the leap second behind it. -/
  nano : Fin 2000000000
deriving DecidableEq, Inhabited

namespace Instant

instance : LT Instant := ⟨fun a b => a.second < b.second ∨ a.second = b.second ∧ a.nano < b.nano⟩
instance : LE Instant := ⟨fun a b => a.second < b.second ∨ a.second = b.second ∧ a.nano ≤ b.nano⟩
instance (a b : Instant) : Decidable (a < b) := inferInstanceAs (Decidable (_ ∨ _))
instance (a b : Instant) : Decidable (a ≤ b) := inferInstanceAs (Decidable (_ ∨ _))

theorem lt_iff {a b : Instant} :
    a < b ↔ a.second < b.second ∨ a.second = b.second ∧ a.nano < b.nano := Iff.rfl

theorem le_iff {a b : Instant} :
    a ≤ b ↔ a.second < b.second ∨ a.second = b.second ∧ a.nano ≤ b.nano := Iff.rfl

theorem ext_iff' {a b : Instant} : a = b ↔ a.second = b.second ∧ a.nano = b.nano := by
  cases a; cases b; simp

/-! ## Units -/

def nanosPerMilli : Int := 1000000
def nanosPerSecond : Int := 1000000000
def secondsPerDay : Int := 86400

/-! ## Leap seconds -/

/-- Whether an instant lies in a leap second. -/
def InLeapSecond (t : Instant) : Prop := 1000000000 ≤ t.nano.val

instance (t : Instant) : Decidable t.InLeapSecond := inferInstanceAs (Decidable (_ ≤ _))

/-- Nanoseconds from the start of 1970 on a clock without leap seconds. -/
def nanos (t : Instant) : Int := t.second * nanosPerSecond + t.nano.val

/-- A number of nanoseconds into a second, or into the leap second behind it. -/
def nanosInto (n : Nat) : Fin 2000000000 := ⟨n % 2000000000, Nat.mod_lt n (by decide)⟩

@[simp] theorem val_nanosInto (n : Nat) : (nanosInto n).val = n % 2000000000 := rfl

/-- The instant at a place on a clock without leap seconds. -/
def ofNanos (n : Int) : Instant :=
  ⟨n / nanosPerSecond, nanosInto (n % nanosPerSecond).toNat⟩

/-- What a clock without leap seconds shows. -/
def smoothed (t : Instant) : Instant := ofNanos t.nanos

/-- Seconds from midnight. -/
def timeOfDay (t : Instant) : Int := t.second % secondsPerDay

@[simp] theorem nanos_ofNanos (n : Int) : (ofNanos n).nanos = n := by
  simp only [nanos, ofNanos, nanosPerSecond, val_nanosInto]
  omega

theorem not_inLeapSecond_ofNanos (n : Int) : ¬ (ofNanos n).InLeapSecond := by
  simp only [InLeapSecond, ofNanos, nanosPerSecond, val_nanosInto]
  omega

theorem ofNanos_nanos {t : Instant} (h : ¬ t.InLeapSecond) : ofNanos t.nanos = t := by
  obtain ⟨s, n⟩ := t
  simp only [InLeapSecond, Nat.not_le] at h
  simp only [ext_iff', ofNanos, nanos, nanosPerSecond, Fin.ext_iff, val_nanosInto]
  omega

/-! ## The calendar's ends -/

/-- The first instant of the year `-262143`. -/
def first : Instant := ⟨-8334601228800, 0⟩

/-- The last nanosecond of the year `262142`. -/
def last : Instant := ⟨8210266876799, 999999999⟩

/-- Whether the calendar reaches this instant. A leap second counts with the second before it. -/
def Representable (t : Instant) : Prop := first.second ≤ t.second ∧ t.second ≤ last.second

instance (t : Instant) : Decidable t.Representable :=
  inferInstanceAs (Decidable (_ ∧ _))

/-! ## Milliseconds -/

/-- Whole milliseconds since 1970, rounded toward the past. -/
def millis (t : Instant) : Int := t.nanos / nanosPerMilli

def ofMillis (ms : Int) : Instant := ofNanos (ms * nanosPerMilli)

def ofMillis? (ms : Int) : Option Instant :=
  if (ofMillis ms).Representable then some (ofMillis ms) else none

@[simp] theorem millis_ofMillis (ms : Int) : (ofMillis ms).millis = ms := by
  simp [millis, ofMillis, nanosPerMilli]

theorem millis_le_iff {t : Instant} {ms : Int} (h : ¬ t.InLeapSecond) :
    ms ≤ t.millis ↔ ofMillis ms ≤ t := by
  obtain ⟨s, n⟩ := t
  simp only [InLeapSecond, Nat.not_le] at h
  simp only [millis, nanos, ofMillis, ofNanos, nanosPerMilli, nanosPerSecond, le_iff, Fin.le_def,
    val_nanosInto]
  omega

/-! ## Differences and sums -/

/-- The second by which a difference grows or shrinks for a leap second at one of its ends: the end with the
earlier time of day counts, whatever the days are. -/
def leapBetween (t earlier : Instant) : Int :=
  if earlier.timeOfDay < t.timeOfDay then if earlier.InLeapSecond then 1 else 0
  else if t.timeOfDay < earlier.timeOfDay then if t.InLeapSecond then -1 else 0
  else 0

/-- Nanoseconds from `earlier` to `t`. -/
def sinceNanos (t earlier : Instant) : Int :=
  t.nanos - earlier.nanos + t.leapBetween earlier * nanosPerSecond

/-- Milliseconds from `earlier` to `t`, rounded toward zero. -/
def sinceMillis (t earlier : Instant) : Int := (t.sinceNanos earlier).tdiv nanosPerMilli

/-- The instant `span` nanoseconds later, be it beyond the calendar. Whoever is in a leap second stays there as
long as it lasts, and it counts for whoever leaves it toward the future. -/
def plus (t : Instant) (span : Int) : Instant :=
  let reached := t.nanos + span
  let leapStart := (t.second + 1) * nanosPerSecond
  if t.InLeapSecond ∧ leapStart ≤ reached then
    if reached < leapStart + nanosPerSecond then
      ⟨t.second, nanosInto (reached - t.second * nanosPerSecond).toNat⟩
    else ofNanos (reached - nanosPerSecond)
  else ofNanos reached

theorem plus_of_not_inLeapSecond {t : Instant} (h : ¬ t.InLeapSecond) (span : Int) :
    t.plus span = ofNanos (t.nanos + span) := by
  simp [plus, h]

/-- The instant `span` nanoseconds later, if the calendar reaches it. -/
def add? (t : Instant) (span : Int) : Option Instant :=
  if (t.plus span).Representable then some (t.plus span) else none

def addMillis? (t : Instant) (ms : Int) : Option Instant := t.add? (ms * nanosPerMilli)

/-- The instant some milliseconds later, be it beyond the calendar. -/
def plusMillis (t : Instant) (ms : Int) : Instant := t.plus (ms * nanosPerMilli)

/-- Drops what is finer than a microsecond, toward the past. -/
def floorMicros (t : Instant) : Instant := ofNanos (t.nanos / 1000 * 1000)

theorem add?_eq_some_iff {t u : Instant} {span : Int} :
    t.add? span = some u ↔ u = t.plus span ∧ u.Representable := by
  unfold add?
  split
  · constructor
    · rintro h; cases h; exact ⟨rfl, by assumption⟩
    · rintro ⟨rfl, _⟩; rfl
  · constructor
    · intro h; cases h
    · rintro ⟨rfl, h⟩; contradiction

example : (Instant.mk 59 1250000000).plus 1000000000 = ⟨60, 250000000⟩ := by decide +kernel
example : (Instant.mk 60 750000000).sinceNanos ⟨59, 1250000000⟩ = 1500000000 := by decide +kernel

end Instant

end Timetable
