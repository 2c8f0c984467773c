import Timetable.Proofs.Cron.First
import Timetable.Proofs.Schedule.Repeat

/-!
# The times at which a specification fires

`RepeatSpec.FiresAt` says when a specification fires, apart from any search: at the multiples of its milliseconds, or at the
dates and times of its pattern. The search for the next fire finds the first of them (`RepeatSpec.nextAfter_isNextFire`),
for a pattern that allows every year and from 1970 on. Multiples are counted on a clock without leap seconds, so a
specification that counts them must not be asked from within one.

What is next is the same anywhere between two fires (`RepeatSpec.IsNextFire.later`), and there is only one
(`RepeatSpec.IsNextFire.unique`).
-/

namespace Timetable

theorem Instant.ofMillis_le_ofMillis {a b : Int} (h : a ≤ b) : ofMillis a ≤ ofMillis b := by
  refine (millis_le_iff (not_inLeapSecond_ofNanos _)).mp ?_
  rw [← ofMillis, millis_ofMillis]
  exact h

theorem Instant.second_mono {t u : Instant} (h : t ≤ u) : t.second ≤ u.second := by
  rw [le_iff] at h
  omega

/-- From the start of 1970 on the year is 1970 or later. -/
theorem Instant.year_civil_ge {t : Instant} (h : 0 ≤ t.second) : 1970 ≤ t.civil.date.year := by
  show 1970 ≤ yearOfDay t.dayNumber
  by_contra before
  have start : yearStart (yearOfDay t.dayNumber + 1) ≤ yearStart 1970 := yearStart_mono (by omega)
  have stop := lt_yearStart_yearOfDay_succ t.dayNumber
  have zero : yearStart 1970 = 0 := by decide
  simp only [dayNumber, secondsPerDay] at *
  omega

namespace RepeatSpec

variable {spec : RepeatSpec} {t u : Instant} {next : Option Instant}

/-- Whether a specification fires at an instant. -/
def FiresAt : RepeatSpec → Instant → Prop
  | every millis, t => (∃ n : Int, t = .ofMillis (n * millis)) ∧ t.Representable
  | cron expression, t => ∃ p, parseExpression expression = .ok p ∧ ∃ c, p.Matches c ∧ t = c.instant

/-- Whether this is the first fire after an instant, or that there is none. -/
def IsNextFire (spec : RepeatSpec) (t : Instant) : Option Instant → Prop
  | some u => t < u ∧ spec.FiresAt u ∧ ∀ v, t < v → spec.FiresAt v → u ≤ v
  | none => ∀ v, t < v → ¬ spec.FiresAt v

/-- Whether these are the first fires after an instant, and the one after them. -/
def Fires (spec : RepeatSpec) : Instant → List Instant → Option Instant → Prop
  | t, [], next => spec.IsNextFire t next
  | t, u :: us, next => spec.IsNextFire t (some u) ∧ spec.Fires u us next

/-- A positive number of milliseconds that fits a signed word, or an expression that is accepted and allows every year. -/
def Yearless : RepeatSpec → Prop
  | every millis => 1 ≤ millis ∧ millis ≤ 9223372036854775807
  | cron expression => ∃ p, parseExpression expression = .ok p ∧ p.years = Cron.Field.years.all

/-- Whether a specification can be asked from this instant for what is next: multiples are counted on a clock without leap
seconds. -/
def Plain : RepeatSpec → Instant → Prop
  | every _, t => ¬ t.InLeapSecond
  | cron _, _ => True

instance (t : Instant) : Decidable (spec.Plain t) := by
  cases spec <;> unfold Plain <;> infer_instance

theorem Yearless.usable (h : spec.Yearless) : spec.Usable := by
  cases spec with
  | every millis => exact h
  | cron expression =>
    obtain ⟨p, parsed, -⟩ := h
    exact ⟨p, parsed⟩

/-! ## What is next -/

theorem IsNextFire.unique {next' : Option Instant} (h : spec.IsNextFire t next) (h' : spec.IsNextFire t next') :
    next = next' := by
  cases next with
  | none =>
    cases next' with
    | none => rfl
    | some u' => exact absurd h'.2.1 (h u' h'.1)
  | some u =>
    cases next' with
    | none => exact absurd h.2.1 (h' u h.1)
    | some u' => exact congrArg some (le_antisymm (h.2.2 u' h'.1 h'.2.1) (h'.2.2 u h.1 h.2.1))

/-- Until it fires, what is next stays next. -/
theorem IsNextFire.later (h : spec.IsNextFire t next) (le : t ≤ u) (before : ∀ v, next = some v → u < v) :
    spec.IsNextFire u next := by
  cases next with
  | none => exact fun v lt => h v (lt_of_le_of_lt le lt)
  | some v => exact ⟨before v rfl, h.2.1, fun w lt => h.2.2 w (lt_of_le_of_lt le lt)⟩

/-- What comes before one next fire comes before any. -/
theorem IsNextFire.before {c : Instant} (h : spec.IsNextFire t (some u)) (before : c < u) :
    ∀ v, spec.IsNextFire t (some v) → c < v := fun v other => by
  cases other.unique h
  exact before

/-! ## Fires in a row -/

namespace Fires

variable {us vs : List Instant} {next' : Option Instant}

theorem lt (h : spec.Fires t us (some u)) : t < u := by
  induction us generalizing t with
  | nil => exact h.1
  | cons v us ih => exact lt_trans h.1.1 (ih h.2)

theorem firesAt (h : spec.Fires t us (some u)) : spec.FiresAt u := by
  induction us generalizing t with
  | nil => exact h.2.1
  | cons v us ih => exact ih h.2

theorem snoc (h : spec.Fires t us (some u)) (following : spec.IsNextFire u next) : spec.Fires t (us ++ [u]) next := by
  induction us generalizing t with
  | nil => exact ⟨h, following⟩
  | cons v us ih => exact ⟨h.1, ih h.2⟩

/-- No fire is left out. -/
theorem mem (h : spec.Fires t us next) (at_ : spec.FiresAt u) (later : t < u) (before : ∀ v, next = some v → u < v) :
    u ∈ us := by
  induction us generalizing t with
  | nil =>
    cases next with
    | none => exact absurd at_ (h u later)
    | some v => exact absurd (h.2.2 u later at_) (not_le.mpr (before v rfl))
  | cons v us ih =>
    rcases lt_or_eq_of_le (h.1.2.2 u later at_) with lt | rfl
    · exact List.mem_cons_of_mem v (ih h.2 lt)
    · exact List.mem_cons_self

/-- After each of the fires some fire is next, or there is none. -/
theorem following (h : spec.Fires t us next) (mem : u ∈ us) : ∃ following, spec.IsNextFire u following := by
  induction us generalizing t with
  | nil => simp at mem
  | cons v us ih =>
    rcases List.mem_cons.mp mem with rfl | mem
    · cases us with
      | nil => exact ⟨next, h.2⟩
      | cons w us => exact ⟨some w, h.2.1⟩
    · exact ih h.2 mem

/-- Fires up to a time are determined by where they start. -/
theorem unique (h : spec.Fires t us next) (h' : spec.Fires t vs next') (before : ∀ v ∈ vs, ∀ u, next = some u → v < u)
    (before' : ∀ u ∈ us, ∀ v, next' = some v → u < v) : us = vs := by
  induction us generalizing t vs with
  | nil =>
    cases vs with
    | nil => rfl
    | cons v vs => exact absurd (before v List.mem_cons_self v (h.unique h'.1)) (lt_irrefl v)
  | cons u us ih =>
    cases vs with
    | nil => exact absurd (before' u List.mem_cons_self u (h'.unique h.1)) (lt_irrefl u)
    | cons v vs =>
      obtain rfl : u = v := Option.some.inj (h.1.unique h'.1)
      exact congrArg (u :: ·) (ih h.2 h'.2 (fun v mem => before v (List.mem_cons_of_mem u mem))
        fun u mem => before' u (List.mem_cons_of_mem _ mem))

end Fires

/-! ## What the search finds -/

theorem nextMultiple_le_of_lt {every ms n : Int} (h : 1 ≤ every) (lt : ms < n * every) :
    nextMultiple every ms ≤ n * every := by
  have below : ms / every < n := Int.ediv_lt_of_lt_mul (by omega) lt
  exact Int.mul_le_mul_of_nonneg_right (by omega) (by omega)

theorem nextFire_isNextFire {millis : Nat} (h : 1 ≤ millis) (since : 0 ≤ t.second) (plain : ¬ t.InLeapSecond)
    (fires : nextFire millis t = .ok next) : (every millis).IsNextFire t next := by
  have pos : 1 ≤ (millis : Int) := by omega
  have ahead : t < .ofMillis (nextMultiple millis t.millis) := Instant.lt_ofMillis (lt_nextMultiple pos _)
  have least {v : Instant} (lt : t < v) (at_ : ∃ n : Int, v = .ofMillis (n * millis)) :
      .ofMillis (nextMultiple millis t.millis) ≤ v := by
    obtain ⟨n, rfl⟩ := at_
    refine Instant.ofMillis_le_ofMillis (nextMultiple_le_of_lt pos (Int.not_le.mp fun le => ?_))
    exact absurd ((Instant.millis_le_iff plain).mp le) (not_le.mpr lt)
  simp only [nextFire] at fires
  split at fires
  · simp only [Except.ok.injEq, Instant.ofMillis?] at fires
    split at fires
    · next rep =>
      subst fires
      exact ⟨ahead, ⟨⟨_, rfl⟩, rep⟩, fun v lt at_ => least lt at_.1⟩
    · next beyond =>
      subst fires
      -- the next multiple is behind the calendar's end, and so is every other
      rintro v lt ⟨at_, low, high⟩
      have later := Instant.second_mono (le_of_lt ahead)
      refine beyond ⟨?_, Int.le_trans (Instant.second_mono (least lt at_)) high⟩
      simp only [Instant.first]
      omega
  · cases fires

theorem nextAfter_isNextFire (yearless : spec.Yearless) (since : 0 ≤ t.second) (plain : spec.Plain t)
    (fires : spec.nextAfter t = .ok next) : spec.IsNextFire t next := by
  cases spec with
  | every millis =>
    have fits : FitsWord millis := by
      have := yearless.2
      simp only [FitsWord]
      omega
    rw [nextAfter_every yearless.1, signedWord_of_fits fits] at fires
    exact nextFire_isNextFire yearless.1 since plain fires
  | cron expression =>
    obtain ⟨p, parsed, all⟩ := yearless
    rw [nextAfter_cron parsed, Cron.Pattern.nextAfter] at fires
    split at fires
    · next start reached =>
      obtain ⟨rfl, -⟩ := Instant.add?_eq_some_iff.mp reached
      have startSecond := Cron.Pattern.second_plus_second t
      have first := Cron.Pattern.search_isFirst (i := (t.plus Instant.nanosPerSecond).civil)
        (regular_of_parseExpression parsed) all
        ⟨Cron.Pattern.timely_civil _, Date.valid_ofDayNumber _⟩ (Instant.year_civil_ge (by omega))
      -- to lie ahead of the next second is to come after the instant
      have ahead {c : Civil} (matches_ : p.Matches c) :
          (t.plus Instant.nanosPerSecond).civil.instant.second ≤ c.instant.second ↔ t < c.instant := by
        have whole : c.instant.nano.val = 0 := matches_.2.2.2.2.2.2.2.2
        rw [Instant.instant_civil, startSecond, Instant.lt_iff, Fin.lt_def, whole]
        omega
      cases fires
      cases found : p.search (t.plus Instant.nanosPerSecond).civil with
      | none =>
        rw [found] at first
        rintro v lt ⟨p', parsed', c, matches_, rfl⟩
        cases parsed.symm.trans parsed'
        exact first c ⟨matches_, (ahead matches_).mpr lt⟩
      | some c =>
        rw [found] at first
        obtain ⟨⟨matches_, lt⟩, least⟩ := first
        refine ⟨(ahead matches_).mp lt, ⟨p, parsed, c, matches_, rfl⟩, ?_⟩
        rintro v lt ⟨p', parsed', d, matches', rfl⟩
        cases parsed.symm.trans parsed'
        have le := least d ⟨matches', (ahead matches').mpr lt⟩
        have whole : c.instant.nano.val = 0 := matches_.2.2.2.2.2.2.2.2
        rw [Instant.le_iff, Fin.le_def, whole]
        omega
    · cases fires

/-- A search without an answer has come to the end of the calendar, and no fire is left. -/
theorem isNextFire_of_error {failure : ScheduleError} (yearless : spec.Yearless) (since : 0 ≤ t.second)
    (fails : spec.nextAfter t = .error failure) : spec.IsNextFire t none := by
  intro v lt at_
  have le := Instant.second_mono (le_of_lt lt)
  cases spec with
  | every millis =>
    obtain ⟨-, -, high⟩ := at_
    obtain ⟨positive, word⟩ := signedWord_every yearless
    have bounds : -4611686018427387904 ≤ t.millis ∧ t.millis < 4611686018427387904 := by
      have := t.nano.isLt
      simp only [Instant.last] at high
      simp only [Instant.millis, Instant.nanos, Instant.nanosPerSecond, Instant.nanosPerMilli]
      omega
    rw [nextAfter_every yearless.1, nextFire, if_pos (fitsWord_nextMultiple positive word bounds)] at fails
    cases fails
  | cron expression =>
    obtain ⟨p, parsed, c, matches_, rfl⟩ := at_
    -- the years of a pattern are over long before the calendar ends
    have reach : (t.add? Instant.nanosPerSecond).isSome := by
      have last := Cron.Pattern.second_lt_of_matches (regular_of_parseExpression parsed) matches_
      have start := Cron.Pattern.second_plus_second t
      refine Option.isSome_iff_exists.mpr ⟨_, Instant.add?_eq_some_iff.mpr ⟨rfl, ?_⟩⟩
      simp only [Instant.Representable, Instant.first, Instant.last]
      omega
    obtain ⟨next, found⟩ := nextAfter_isOk yearless.usable reach
    cases found.symm.trans fails

end RepeatSpec

end Timetable
