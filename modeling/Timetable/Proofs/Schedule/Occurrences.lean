import Mathlib.Order.Bounds.Basic
import Timetable.Proofs.Schedule.Fires

/-!
# Occurrences of an expression

An expression that names no year has occurrences until the end of 2100: the instants at a whole second whose second,
minute, hour, day, month and weekday are among those that it lists (`Cron.Pattern.Admits`). For every such expression and
every instant since 1970:

1. `Cron.years_of_namesNoYear`: it allows every year;
2. `nextAfter_isLeast`: what is next is the least occurrence after the instant, with none just if none comes after it;
3. `occurrences_earliest`: searching again from each occurrence that was found leaves none out and gives none twice,
   however many are wanted.

The search begins a second after the instant. In the last second of the calendar it breaks off, although there is
nothing to find any more (`search_breaks_off_in_last_second`).
-/

namespace Timetable

/-- The first `n` of some instants after one, or all of them if they are fewer. -/
structure EarliestAfter (S : Instant → Prop) (t : Instant) (n : Nat) (us : List Instant) : Prop where
  ascending : us.Pairwise (· < ·)
  among : ∀ u ∈ us, t < u ∧ S u
  length_le : us.length ≤ n
  /-- What is left out comes later than all of the `n`. -/
  complete : ∀ v, t < v → S v → v ∈ us ∨ us.length = n ∧ ∀ u ∈ us, u < v

namespace EarliestAfter

variable {S : Instant → Prop} {t u : Instant} {n : Nat} {us : List Instant}

theorem none_left (h : ∀ v, t < v → ¬ S v) : EarliestAfter S t n [] where
  ascending := .nil
  among := by simp
  length_le := Nat.zero_le n
  complete v later at_ := absurd at_ (h v later)

theorem none_wanted : EarliestAfter S t 0 [] where
  ascending := .nil
  among := by simp
  length_le := le_refl 0
  complete v later at_ := .inr ⟨rfl, by simp⟩

/-- The least one, and then the first after that. -/
theorem cons (least : IsLeast {v | t < v ∧ S v} u) (h : EarliestAfter S u n us) : EarliestAfter S t (n + 1) (u :: us) where
  ascending := List.pairwise_cons.mpr ⟨fun v mem => (h.among v mem).1, h.ascending⟩
  among v mem := by
    rcases List.mem_cons.mp mem with rfl | mem
    · exact least.1
    · exact ⟨lt_trans least.1.1 (h.among v mem).1, (h.among v mem).2⟩
  length_le := Nat.succ_le_succ h.length_le
  complete v later at_ := by
    rcases lt_or_eq_of_le (least.2 ⟨later, at_⟩) with lt | rfl
    · rcases h.complete v lt at_ with mem | ⟨full, beyond⟩
      · exact .inl (List.mem_cons_of_mem u mem)
      · refine .inr ⟨congrArg (· + 1) full, fun w mem => ?_⟩
        rcases List.mem_cons.mp mem with rfl | mem
        · exact lt
        · exact beyond w mem
    · exact .inl List.mem_cons_self

end EarliestAfter

namespace Cron

/-! ## Expressions without a year -/

/-- What is left of a text behind its first six fields. -/
def behindSixFields? (cs : List Char) : Option (List Char) := do
  let (_, cs) ← field? .seconds cs
  let (_, cs) ← field? .minutes cs
  let (_, cs) ← field? .hours cs
  let (_, cs) ← field? .days cs
  let (_, cs) ← field? .months cs
  let (_, cs) ← field? .weekdays cs
  return cs

/-- A text is one of the five words, or has six fields and no seventh. -/
def NamesNoYear (cs : List Char) : Prop := (Pattern.ofWord? cs).isSome ∨ behindSixFields? cs = some []

instance (cs : List Char) : Decidable (NamesNoYear cs) := inferInstanceAs (Decidable (_ ∨ _))

theorem years_of_mem_words : ∀ w ∈ Pattern.words, w.2.years = Field.years.all := by decide

theorem years_of_namesNoYear {cs : List Char} {p : Pattern} (noYear : NamesNoYear cs) (read : Pattern.ofChars? cs = some p) :
    p.years = Field.years.all := by
  rcases (Option.orElse_eq_some _ _ _).mp read with word | ⟨noWord, fields⟩
  · obtain ⟨w, found, rfl⟩ := Option.map_eq_some_iff.mp word
    exact years_of_mem_words w (List.mem_of_find?_eq_some found)
  · have six : behindSixFields? cs = some [] := noYear.resolve_left (by simp [noWord])
    simp only [Pattern.ofFields?, Option.bind_eq_bind, Option.bind_eq_some_iff, Prod.exists] at fields
    obtain ⟨_, _, h₁, _, _, h₂, _, _, h₃, _, _, h₄, _, _, h₅, _, rest, h₆, fields⟩ := fields
    simp only [behindSixFields?, Option.bind_eq_bind, h₁, h₂, h₃, h₄, h₅, h₆, Option.bind_some, Option.pure_def,
      Option.some.injEq] at six
    subst six
    cases fields
    rfl

/-! ## Occurrences as instants -/

namespace Pattern

variable {p : Pattern} {t u : Instant}

/-- Whether an instant lies at a whole second until the end of 2100, all of whose units but the year are among those of
the pattern. -/
def Admits (p : Pattern) (t : Instant) : Prop :=
  t.nano.val = 0 ∧ t.civil.second ∈ p.seconds ∧ t.civil.minute ∈ p.minutes ∧ t.civil.hour ∈ p.hours ∧
    t.civil.date.day ∈ p.days ∧ t.civil.date.month ∈ p.months ∧ weekday t.dayNumber ∈ p.weekdays ∧
    t.civil.date.year ≤ 2100

instance : Decidable (p.Admits t) := inferInstanceAs (Decidable (_ ∧ _))

/-- Since 1970 such an instant is one of a date and time that matches. -/
theorem admits_iff (reg : p.Regular) (allYears : p.years = Field.years.all) (since : 0 ≤ t.second) :
    p.Admits t ↔ ∃ c, p.Matches c ∧ t = c.instant := by
  constructor
  · rintro ⟨whole, second, minute, hour, day, month, weekdays, last⟩
    have first := Instant.year_civil_ge since
    have same : t.civil.date.dayNumber = t.dayNumber := Date.dayNumber_ofDayNumber _
    refine ⟨t.civil, ⟨second, minute, hour, day, month, same ▸ weekdays, ⟨t.civil.date.year.toNat, ?_, by omega⟩,
      Date.valid_ofDayNumber _, whole⟩, t.instant_civil.symm⟩
    rw [allYears, Field.mem_all (by decide)]
    simp only [Field.years]
    omega
  · rintro ⟨c, matches_, rfl⟩
    obtain ⟨⟨hour, minute, second⟩, valid⟩ := Matches.proper reg matches_
    have same : c.instant.civil = c := Civil.civil_instant valid hour minute second
    have day : c.date.dayNumber = c.instant.dayNumber :=
      (congrArg (·.date.dayNumber) same).symm.trans (Date.dayNumber_ofDayNumber c.instant.dayNumber)
    obtain ⟨seconds, minutes, hours, days, months, weekdays, ⟨year, years, own⟩, -, whole⟩ := matches_
    have last : year ≤ 2100 := Field.high_of_mem_all (reg.years.subset years) (by decide)
    have until_ : c.date.year ≤ 2100 := by omega
    rw [day] at weekdays
    simp only [Admits, same]
    exact ⟨whole, seconds, minutes, hours, days, months, weekdays, until_⟩

/-- Long before the calendar ends there are no more occurrences. -/
theorem reach_of_admits (reg : p.Regular) (allYears : p.years = Field.years.all) (since : 0 ≤ t.second) (at_ : p.Admits t) :
    (t.add? Instant.nanosPerSecond).isSome := by
  obtain ⟨c, matches_, rfl⟩ := (admits_iff reg allYears since).mp at_
  have last := second_lt_of_matches reg matches_
  have start := second_plus_second c.instant
  refine Option.isSome_iff_exists.mpr ⟨_, Instant.add?_eq_some_iff.mpr ⟨rfl, ?_⟩⟩
  simp only [Instant.Representable, Instant.first, Instant.last]
  omega

end Pattern

end Cron

/-! ## The search for occurrences -/

section Expression

variable {expression : String} {p : Cron.Pattern} {t u : Instant} {next : Option Instant}

theorem allYears_of_parseExpression (parsed : parseExpression expression = .ok p)
    (noYear : Cron.NamesNoYear (normalizeExpression expression).toList) : p.years = Cron.Field.years.all := by
  unfold parseExpression at parsed
  split at parsed
  · next read =>
    cases parsed
    exact Cron.years_of_namesNoYear noYear read
  · cases parsed

/-- From 1970 on the expression fires at the instants that its pattern admits. -/
theorem firesAt_iff_admits (parsed : parseExpression expression = .ok p) (allYears : p.years = Cron.Field.years.all)
    (since : 0 ≤ t.second) : (RepeatSpec.cron expression).FiresAt t ↔ p.Admits t := by
  rw [Cron.Pattern.admits_iff (RepeatSpec.regular_of_parseExpression parsed) allYears since]
  constructor
  · rintro ⟨p', parsed', fires⟩
    cases parsed.symm.trans parsed'
    exact fires
  · exact fun fires => ⟨p, parsed, fires⟩

/-- What is next is the least occurrence. -/
theorem nextAfter_isLeast (parsed : parseExpression expression = .ok p) (allYears : p.years = Cron.Field.years.all)
    (since : 0 ≤ t.second) (found : p.nextAfter t = .ok next) :
    (∀ u, next = some u ↔ IsLeast {v | t < v ∧ p.Admits v} u) ∧ (next = none ↔ ∀ v, t < v → ¬ p.Admits v) := by
  have first : (RepeatSpec.cron expression).IsNextFire t next :=
    RepeatSpec.nextAfter_isNextFire ⟨p, parsed, allYears⟩ since trivial
      ((RepeatSpec.nextAfter_cron parsed t).trans found)
  have fires {v : Instant} (later : t < v) : (RepeatSpec.cron expression).FiresAt v ↔ p.Admits v :=
    firesAt_iff_admits parsed allYears (since.trans (Instant.second_mono (le_of_lt later)))
  cases next with
  | none =>
    have nothing : ∀ v, t < v → ¬ p.Admits v := fun v later => mt (fires later).mpr (first v later)
    exact ⟨fun u => ⟨nofun, fun least => absurd least.1.2 (nothing u least.1.1)⟩, ⟨fun _ => nothing, fun _ => rfl⟩⟩
  | some u =>
    obtain ⟨later, at_, least⟩ := first
    have isLeast : IsLeast {v | t < v ∧ p.Admits v} u :=
      ⟨⟨later, (fires later).mp at_⟩, fun v own => least v own.1 ((fires own.1).mpr own.2)⟩
    refine ⟨fun v => ⟨?_, fun other => congrArg some (isLeast.unique other)⟩, ⟨nofun, fun nothing => ?_⟩⟩
    · rintro ⟨⟩
      exact isLeast
    · exact absurd isLeast.1.2 (nothing u later)

/-- Searching again from each occurrence that was found gives the earliest ones. -/
theorem occurrences_earliest (parsed : parseExpression expression = .ok p) (allYears : p.years = Cron.Field.years.all)
    (n : Nat) (since : 0 ≤ t.second) (reach : (t.add? Instant.nanosPerSecond).isSome) :
    ∃ us, p.occurrences n t = .ok us ∧ EarliestAfter p.Admits t n us := by
  induction n generalizing t with
  | zero => exact ⟨[], rfl, .none_wanted⟩
  | succ n ih =>
    obtain ⟨next, found⟩ := Cron.Pattern.nextAfter_isOk (p := p) reach
    have least := nextAfter_isLeast parsed allYears since found
    simp only [Cron.Pattern.occurrences, found, bind, Except.bind]
    cases next with
    | none => exact ⟨[], rfl, .none_left (least.2.mp rfl)⟩
    | some u =>
      have isLeast := (least.1 u).mp rfl
      have later : 0 ≤ u.second := since.trans (Instant.second_mono (le_of_lt isLeast.1.1))
      have regular := RepeatSpec.regular_of_parseExpression parsed
      obtain ⟨us, rest, earliest⟩ := ih later (Cron.Pattern.reach_of_admits regular allYears later isLeast.1.2)
      exact ⟨u :: us, by simp only [rest]; rfl, earliest.cons isLeast⟩

/-- For an expression without a year, since 1970: the next fire is the least occurrence after the instant, with none just
if no occurrence comes after it, and the next `n` occurrences are the earliest `n`. -/
theorem occurrences_of_expression (parsed : parseExpression expression = .ok p)
    (noYear : Cron.NamesNoYear (normalizeExpression expression).toList) (since : 0 ≤ t.second)
    (reach : (t.add? Instant.nanosPerSecond).isSome) :
    (∃ next, (RepeatSpec.cron expression).nextAfter t = .ok next ∧
      (∀ u, next = some u ↔ IsLeast {v | t < v ∧ p.Admits v} u) ∧ (next = none ↔ ∀ v, t < v → ¬ p.Admits v)) ∧
    ∀ n, ∃ us, nextOccurrences expression t n = .ok us ∧ EarliestAfter p.Admits t n us := by
  have allYears := allYears_of_parseExpression parsed noYear
  obtain ⟨next, found⟩ := Cron.Pattern.nextAfter_isOk (p := p) reach
  refine ⟨⟨next, (RepeatSpec.nextAfter_cron parsed t).trans found, nextAfter_isLeast parsed allYears since found⟩,
    fun n => ?_⟩
  obtain ⟨us, searched, earliest⟩ := occurrences_earliest parsed allYears n since reach
  exact ⟨us, by rw [nextOccurrences, parsed]; exact searched, earliest⟩

end Expression

/-- Noon of each leap day, as seen from the start of 2095. -/
theorem noon_on_leap_days :
    (∃ next, (RepeatSpec.cron "0 12 29 2 *").nextAfter ⟨3944678400, 0⟩ = .ok next ∧
      (∀ u, next = some u ↔ IsLeast {v | ⟨3944678400, 0⟩ < v ∧ Cron.Pattern.Admits
        { seconds := [0], minutes := [0], hours := [12], days := [29], months := [2] } v} u) ∧
      (next = none ↔ ∀ v, ⟨3944678400, 0⟩ < v → ¬ Cron.Pattern.Admits
        { seconds := [0], minutes := [0], hours := [12], days := [29], months := [2] } v)) ∧
    ∀ n, ∃ us, nextOccurrences "0 12 29 2 *" ⟨3944678400, 0⟩ n = .ok us ∧ EarliestAfter (Cron.Pattern.Admits
      { seconds := [0], minutes := [0], hours := [12], days := [29], months := [2] }) ⟨3944678400, 0⟩ n us :=
  occurrences_of_expression (by decide +kernel) (by decide +kernel) (by decide) (by decide +kernel)

/-- In the last second of the calendar no occurrence is left, but the search does not come to say so. -/
theorem search_breaks_off_in_last_second :
    parseExpression "* * * * *" = .ok { seconds := [0] } ∧
      Cron.NamesNoYear (normalizeExpression "* * * * *").toList ∧ 0 ≤ Instant.last.second ∧
      (∀ v, Instant.last < v → ¬ Cron.Pattern.Admits { seconds := [0] } v) ∧
      (RepeatSpec.cron "* * * * *").nextAfter Instant.last = .error .outOfRange := by
  have parsed : parseExpression "* * * * *" = .ok { seconds := [0] } := by decide +kernel
  refine ⟨parsed, by decide +kernel, by decide, fun v later at_ => ?_, by decide +kernel⟩
  have ahead := Instant.second_mono (le_of_lt later)
  have since : 0 ≤ v.second := le_trans (by decide) ahead
  have regular := RepeatSpec.regular_of_parseExpression parsed
  obtain ⟨c, matches_, rfl⟩ := (Cron.Pattern.admits_iff regular rfl since).mp at_
  have last := Cron.Pattern.second_lt_of_matches regular matches_
  simp only [Instant.last] at ahead
  omega

end Timetable
