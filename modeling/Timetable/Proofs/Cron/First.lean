import Timetable.Proofs.Cron.Later

/-!
# The search leaves nothing out

The search of a pattern that allows every year, from a time since 1970 on, finds the first date and time that matches
(`Pattern.search_isFirst`), unit by unit: what a unit finds under a value of it comes before everything under later values,
and only under the value of the start does the next smaller unit begin at the start.

Neither restriction can be left out. Where the year of the start is not among the values, the search begins in a later
year, in the month of the start.
-/

namespace Timetable.Cron.Pattern

/-- A result is the first of some dates and times, if there are any. -/
def IsFirst (S : Civil → Prop) : Option Civil → Prop
  | some c => S c ∧ ∀ d, S d → c.instant.second ≤ d.instant.second
  | none => ∀ d, ¬ S d

variable {p : Pattern} {i c : Civil} {S S' : Civil → Prop} {T : Nat → Civil → Prop} {r : Option Civil} {fresh : Bool}
  {search : Bool → Nat → Option Civil}

theorem IsFirst.congr (h : IsFirst S r) (same : ∀ c, S c ↔ S' c) : IsFirst S' r := by
  obtain rfl : S = S' := funext fun c => propext (same c)
  exact h

/-! ## Choosing a value -/

theorem firstOf_isFirst {ns : List Nat} (sorted : ns.Pairwise (· < ·))
    (ordered : ∀ {m n c d}, m < n → T m c → T n d → c.instant.second ≤ d.instant.second)
    (first : ∀ n ∈ ns, ∀ flag, (flag = true → fresh = true ∧ ∀ m ∈ ns, n ≤ m) →
      (flag = false → fresh = false ∨ ∃ m ∈ ns, m < n) → IsFirst (T n) (search flag n)) :
    IsFirst (fun c => ∃ n ∈ ns, T n c) (firstOf search fresh ns) := by
  induction ns generalizing fresh with
  | nil => simp [firstOf, IsFirst]
  | cons n ns ih =>
    have later (m : Nat) (mem : m ∈ ns) : n < m := List.rel_of_pairwise_cons sorted mem
    have head : IsFirst (T n) (search fresh n) := by
      refine first n List.mem_cons_self fresh (fun is => ⟨is, fun m mem => ?_⟩) .inl
      rcases List.mem_cons.mp mem with rfl | mem
      · exact Nat.le_refl _
      · exact Nat.le_of_lt (later m mem)
    have tail : IsFirst (fun c => ∃ n ∈ ns, T n c) (firstOf search false ns) := by
      refine ih sorted.of_cons fun m mem flag is isNot => first m (List.mem_cons_of_mem n mem) flag ?_ ?_
      · exact fun true => absurd (is true).1 Bool.false_ne_true
      · exact fun _ => .inr ⟨n, List.mem_cons_self, later m mem⟩
    simp only [firstOf]
    cases found : search fresh n with
    | some c =>
      rw [found] at head
      refine ⟨⟨n, List.mem_cons_self, head.1⟩, ?_⟩
      rintro d ⟨m, mem, under⟩
      rcases List.mem_cons.mp mem with rfl | mem
      · exact head.2 d under
      · exact ordered (later m mem) head.1 under
    | none =>
      rw [found] at head
      refine tail.congr fun c => ⟨?_, ?_⟩
      · rintro ⟨m, mem, under⟩
        exact ⟨m, List.mem_cons_of_mem n mem, under⟩
      · rintro ⟨m, mem, under⟩
        rcases List.mem_cons.mp mem with rfl | mem
        · exact absurd under (head c)
        · exact ⟨m, mem, under⟩

/-- Of the values from a bound on, only the bound itself is searched fresh. -/
theorem firstOf_filter_isFirst {values : List Nat} {bound : Nat} {keep : Nat → Bool} (sorted : values.Pairwise (· < ·))
    (above : ∀ m ∈ values, keep m = true → bound ≤ m) (kept : fresh = true → keep bound = true)
    (ordered : ∀ {m n c d}, m < n → T m c → T n d → c.instant.second ≤ d.instant.second)
    (first : ∀ n ∈ values, keep n = true → ∀ flag, (flag = true → fresh = true ∧ n = bound) →
      (flag = false → fresh = false ∨ bound < n) → IsFirst (T n) (search flag n)) :
    IsFirst (fun c => ∃ n ∈ values, keep n = true ∧ T n c)
      (firstOf search (fresh && values.contains bound) (values.filter keep)) := by
  have found := firstOf_isFirst (sorted.filter (p := keep)) ordered
    fun n mem flag is isNot => by
      obtain ⟨mem, kept'⟩ := List.mem_filter.mp mem
      refine first n mem kept' flag (fun true => ?_) fun false => ?_
      · obtain ⟨both, least⟩ := is true
        obtain ⟨isFresh, has⟩ := Bool.and_eq_true_iff.mp both
        have has : bound ∈ values.filter keep := List.mem_filter.mpr ⟨List.contains_iff_mem.mp has, kept isFresh⟩
        exact ⟨isFresh, Nat.le_antisymm (least bound has) (above n mem kept')⟩
      · rcases isNot false with neither | ⟨m, mem', lt⟩
        · rcases Bool.and_eq_false_iff.mp neither with stale | missing
          · exact .inl stale
          · refine .inr (Nat.lt_of_le_of_ne (above n mem kept') ?_)
            rintro rfl
            exact absurd mem (by simpa using missing)
        · obtain ⟨mem', kept''⟩ := List.mem_filter.mp mem'
          exact .inr (Nat.lt_of_le_of_lt (above m mem' kept'') lt)
  exact found.congr fun c => by simp only [List.mem_filter, and_assoc]

theorem le_of_find? {ns : List Nat} {bound n m : Nat} (sorted : ns.Pairwise (· < ·))
    (h : ns.find? (bound ≤ ·) = some n) (mem : m ∈ ns) (above : bound ≤ m) : n ≤ m := by
  obtain ⟨-, front, back, rfl, below⟩ := List.find?_eq_some_iff_append.mp h
  rcases List.mem_append.mp mem with mem | mem
  · simpa [above] using below m mem
  · rcases List.mem_cons.mp mem with rfl | mem
    · exact Nat.le_refl _
    · exact Nat.le_of_lt (List.rel_of_pairwise_cons (List.pairwise_append.mp sorted).2.1 mem)

/-! ## Dates and times -/

/-- A date of the calendar with a time of day. -/
def Proper (c : Civil) : Prop := Timely c ∧ c.date.Valid

theorem Matches.proper (reg : p.Regular) (h : p.Matches c) : Proper c := by
  obtain ⟨second, minute, hour, -, -, -, -, valid, -⟩ := h
  exact ⟨⟨Field.high_of_mem_all (reg.hours.subset hour) (by decide),
    Field.high_of_mem_all (reg.minutes.subset minute) (by decide),
    Field.high_of_mem_all (reg.seconds.subset second) (by decide)⟩, valid⟩

theorem second_instant (c : Civil) :
    c.instant.second = c.date.dayNumber * 86400 + (c.hour * 60 + c.minute) * 60 + c.second := by
  simp only [Civil.instant, Civil.ofDay, Instant.secondsPerDay]
  omega

/-- What matches is over by the year 2101. -/
theorem second_lt_of_matches (reg : p.Regular) (h : p.Matches c) : c.instant.second < 4133980800 := by
  obtain ⟨⟨hour, minute, second⟩, valid⟩ := Matches.proper reg h
  obtain ⟨-, -, -, -, -, -, ⟨year, mem, own⟩, -⟩ := h
  have high : year ≤ 2100 := Field.high_of_mem_all (reg.years.subset mem) (by decide)
  have stop : c.date.dayNumber < yearStart 2101 :=
    Int.lt_of_lt_of_le (Date.dayNumber_lt_yearStart valid) (yearStart_mono (by omega))
  have days : yearStart 2101 = 47847 := by decide
  rw [second_instant]
  omega

/-- A date and time matches and does not lie before the start. -/
def Ahead (p : Pattern) (i c : Civil) : Prop := p.Matches c ∧ i.instant.second ≤ c.instant.second

/-! ## Unit by unit -/

/-- Where a search under each value of a unit finds the first that lies ahead, the search of all values does. The search is
fresh only where the larger units are those of the start, and where it is not, all lies ahead. -/
theorem unit_isFirst {W : Civil → Prop} {u : Civil → Nat} {values : List Nat} {keep : Nat → Bool} {bound : Nat}
    (reg : p.Regular) (proper : Proper i) (sorted : values.Pairwise (· < ·))
    (order : ∀ {c d}, Proper c → Proper d → W c → W d → u c < u d → c.instant.second < d.instant.second)
    (start : fresh = true → W i ∧ bound = u i)
    (later : fresh = false → ∀ c, p.Matches c → W c → i.instant.second ≤ c.instant.second)
    (above : ∀ m ∈ values, keep m = true → bound ≤ m) (kept : fresh = true → keep bound = true)
    (member : ∀ c, p.Matches c → W c → (fresh = true → bound ≤ u c) → u c ∈ values ∧ keep (u c) = true)
    (under : ∀ n ∈ values, keep n = true → ∀ flag, (flag = true → W i ∧ u i = n) →
      (flag = false → ∀ c, p.Matches c → W c ∧ u c = n → i.instant.second ≤ c.instant.second) →
      IsFirst (fun c => p.Ahead i c ∧ W c ∧ u c = n) (search flag n)) :
    IsFirst (fun c => p.Ahead i c ∧ W c) (firstOf search (fresh && values.contains bound) (values.filter keep)) := by
  have found := firstOf_filter_isFirst (T := fun n c => p.Ahead i c ∧ W c ∧ u c = n) sorted above kept
    ?ordered fun n mem kept' flag is isNot => under n mem kept' flag ?_ ?_
  · refine found.congr fun c => ⟨fun ⟨_, _, _, ahead, within, _⟩ => ⟨ahead, within⟩, ?_⟩
    rintro ⟨ahead, within⟩
    obtain ⟨mem, kept'⟩ := member c ahead.1 within fun isFresh => by
      obtain ⟨within', rfl⟩ := start isFresh
      by_contra before
      have := order (ahead.1.proper reg) proper within within' (Nat.lt_of_not_le before)
      exact absurd ahead.2 (Int.not_le.mpr this)
    exact ⟨u c, mem, kept', ahead, within, rfl⟩
  case ordered =>
    rintro m n c d lt ⟨ahead, within, rfl⟩ ⟨ahead', within', rfl⟩
    exact Int.le_of_lt (order (ahead.1.proper reg) (ahead'.1.proper reg) within within' lt)
  · intro true
    obtain ⟨isFresh, rfl⟩ := is true
    exact ⟨(start isFresh).1, (start isFresh).2.symm⟩
  · rintro false c matches_ ⟨within, rfl⟩
    cases isFresh : fresh with
    | false => exact later isFresh c matches_ within
    | true =>
      obtain ⟨within', own⟩ := start isFresh
      have lt : u i < u c := by simpa [isFresh, own] using isNot false
      exact Int.le_of_lt (order proper (matches_.proper reg) within' within lt)

theorem inMinute_isFirst (reg : p.Regular) {date : Date} {hour minute : Nat}
    (fits : ∀ second ∈ p.seconds, p.Matches ⟨date, hour, minute, second, Instant.nanosInto 0⟩)
    (start : fresh = true → (i.date = date ∧ i.hour = hour) ∧ i.minute = minute)
    (later : fresh = false → ∀ c, p.Matches c → (c.date = date ∧ c.hour = hour) ∧ c.minute = minute →
      i.instant.second ≤ c.instant.second) :
    IsFirst (fun c => p.Ahead i c ∧ (c.date = date ∧ c.hour = hour) ∧ c.minute = minute)
      (p.inMinute i date hour minute fresh) := by
  -- what lies ahead within the minute is what has a second from the bound on
  have above {c : Civil} (within : (c.date = date ∧ c.hour = hour) ∧ c.minute = minute) (matches_ : p.Matches c) :
      i.instant.second ≤ c.instant.second ↔ (if fresh then i.second else 0) ≤ c.second := by
    cases isFresh : fresh with
    | false => exact iff_of_true (later isFresh c matches_ within) (Nat.zero_le _)
    | true =>
      obtain ⟨⟨sameDate, sameHour⟩, sameMinute⟩ := start isFresh
      rw [second_instant, second_instant, within.1.1, within.1.2, within.2, sameDate, sameHour, sameMinute, if_pos rfl]
      omega
  have sorted : p.seconds.Pairwise (· < ·) := (Field.sorted_all _).sublist reg.seconds
  unfold inMinute
  dsimp only
  cases found : p.seconds.find? ((if fresh then i.second else 0) ≤ ·) with
  | none =>
    rintro c ⟨⟨matches_, ahead⟩, within⟩
    exact absurd ((above within matches_).mp ahead) (by simpa using List.find?_eq_none.mp found c.second matches_.1)
  | some second =>
    have mem := List.mem_of_find?_eq_some found
    refine ⟨⟨⟨fits second mem, (above ⟨⟨rfl, rfl⟩, rfl⟩ (fits second mem)).mpr ?_⟩, ⟨rfl, rfl⟩, rfl⟩, ?_⟩
    · simpa using List.find?_some found
    · rintro c ⟨⟨matches_, ahead⟩, within⟩
      have le := le_of_find? sorted found matches_.1 ((above within matches_).mp ahead)
      rw [second_instant, second_instant, within.1.1, within.1.2, within.2]
      show date.dayNumber * 86400 + (hour * 60 + minute) * 60 + second ≤ _
      omega

theorem inHour_isFirst (reg : p.Regular) (proper : Proper i) {date : Date} {hour : Nat}
    (fits : ∀ minute ∈ p.minutes, ∀ second ∈ p.seconds, p.Matches ⟨date, hour, minute, second, Instant.nanosInto 0⟩)
    (start : fresh = true → i.date = date ∧ i.hour = hour)
    (later : fresh = false → ∀ c, p.Matches c → c.date = date ∧ c.hour = hour → i.instant.second ≤ c.instant.second) :
    IsFirst (fun c => p.Ahead i c ∧ c.date = date ∧ c.hour = hour) (p.inHour i date hour fresh) := by
  refine unit_isFirst (u := Civil.minute) reg proper ((Field.sorted_all _).sublist reg.minutes) ?_
    (fun isFresh => ⟨start isFresh, if_pos isFresh⟩) later (by simp) (by simp) (fun c matches_ _ above => ?_)
    fun minute mem _ flag is isNot => inMinute_isFirst reg (fits minute mem) is isNot
  · intro c d hc hd within within' lt
    have := hc.1.2.2
    rw [second_instant, second_instant, within.1, within.2, within'.1, within'.2]
    omega
  · refine ⟨matches_.2.1, ?_⟩
    cases isFresh : fresh with
    | false => simp
    | true => simpa [isFresh] using above

theorem inDay_isFirst (reg : p.Regular) (proper : Proper i) {date : Date}
    (fits : weekday date.dayNumber ∈ p.weekdays → ∀ hour ∈ p.hours, ∀ minute ∈ p.minutes, ∀ second ∈ p.seconds,
      p.Matches ⟨date, hour, minute, second, Instant.nanosInto 0⟩)
    (start : fresh = true → i.date = date)
    (later : fresh = false → ∀ c, p.Matches c → c.date = date → i.instant.second ≤ c.instant.second) :
    IsFirst (fun c => p.Ahead i c ∧ c.date = date) (p.inDay i date fresh) := by
  unfold inDay
  split
  · next day =>
    refine unit_isFirst (u := Civil.hour) reg proper ((Field.sorted_all _).sublist reg.hours) ?_
      (fun isFresh => ⟨start isFresh, if_pos isFresh⟩) later (by simp) (by simp) (fun c matches_ _ above => ?_)
      fun hour mem _ flag is isNot => inHour_isFirst reg proper (fits (List.contains_iff_mem.mp day) hour mem) is isNot
    · intro c d hc hd within within' lt
      have := hc.1.2
      rw [second_instant, second_instant, within, within']
      omega
    · refine ⟨matches_.2.2.1, ?_⟩
      cases isFresh : fresh with
      | false => simp
      | true => simpa [isFresh] using above
  · next otherDay =>
    rintro c ⟨⟨⟨-, -, -, -, -, day, -⟩, -⟩, rfl⟩
    exact otherDay (List.contains_iff_mem.mpr day)

/-- Whatever the time of day, the earlier date comes first. -/
theorem lt_of_dayNumber_lt {d : Civil} (hc : Timely c) (lt : c.date.dayNumber < d.date.dayNumber) :
    c.instant.second < d.instant.second := by
  obtain ⟨hour, minute, second⟩ := hc
  rw [second_instant, second_instant]
  omega

theorem inMonth_isFirst (reg : p.Regular) (proper : Proper i) {year month : Nat}
    (fits : ∀ day ∈ p.days, day ≤ daysInMonth year month → weekday (Date.dayNumber ⟨year, month, day⟩) ∈ p.weekdays →
      ∀ hour ∈ p.hours, ∀ minute ∈ p.minutes, ∀ second ∈ p.seconds,
      p.Matches ⟨⟨year, month, day⟩, hour, minute, second, Instant.nanosInto 0⟩)
    (start : fresh = true → i.date.year = year ∧ i.date.month = month)
    (later : fresh = false → ∀ c, p.Matches c → c.date.year = year ∧ c.date.month = month →
      i.instant.second ≤ c.instant.second) :
    IsFirst (fun c => p.Ahead i c ∧ c.date.year = year ∧ c.date.month = month) (p.inMonth i year month fresh) := by
  -- a start within the month is within its days
  have inside (isFresh : fresh = true) : i.date.day ≤ daysInMonth year month := by
    obtain ⟨sameYear, sameMonth⟩ := start isFresh
    rw [← sameYear, ← sameMonth]
    exact proper.2.2.2.2
  unfold inMonth
  refine unit_isFirst (u := (·.date.day)) reg proper ((Field.sorted_all _).sublist reg.days) ?_
    (fun isFresh => ⟨start isFresh, if_pos isFresh⟩) later (fun day mem kept => ?_) (fun isFresh => ?_)
    (fun c matches_ within above => ?_) fun day mem kept flag is isNot => ?_
  · intro c d hc hd within within' lt
    refine lt_of_dayNumber_lt hc.1 ?_
    simp only [Date.dayNumber, within.1, within.2, within'.1, within'.2]
    omega
  · have low : 1 ≤ day := Field.low_of_mem_all (reg.days.subset mem) (by decide)
    simp only [Bool.and_eq_true, decide_eq_true_eq] at kept
    cases isFresh : fresh with
    | false => exact low
    | true =>
      have := inside isFresh
      simp only [isFresh, if_true] at kept ⊢
      omega
  · have := inside isFresh
    simp only [isFresh, if_true, Bool.and_eq_true, decide_eq_true_eq]
    omega
  · obtain ⟨-, -, -, day, -, -, -, valid, -⟩ := matches_
    obtain ⟨-, -, low, high⟩ := valid
    rw [within.1, within.2] at high
    refine ⟨day, ?_⟩
    simp only [Bool.and_eq_true, decide_eq_true_eq]
    refine ⟨Nat.le_trans (Nat.min_le_left _ _) ?_, high⟩
    cases isFresh : fresh with
    | false => exact low
    | true => simpa [isFresh] using above isFresh
  · have last : day ≤ daysInMonth year month := by
      simp only [Bool.and_eq_true, decide_eq_true_eq] at kept
      exact kept.2
    have split {c : Civil} :
        c.date = ⟨year, month, day⟩ ↔ (c.date.year = year ∧ c.date.month = month) ∧ c.date.day = day := by
      cases c.date
      simp only [Date.mk.injEq, and_assoc]
    refine (inDay_isFirst reg proper (fits day mem last) (fun true => ?_) fun false c matches_ same => ?_).congr
      fun c => by rw [split]
    · exact split.mpr (is true)
    · exact isNot false c matches_ (split.mp same)

theorem inYear_isFirst (reg : p.Regular) (proper : Proper i) {year : Nat} (years : year ∈ p.years)
    (start : fresh = true → i.date.year = year)
    (later : fresh = false → ∀ c, p.Matches c → c.date.year = year → i.instant.second ≤ c.instant.second) :
    IsFirst (fun c => p.Ahead i c ∧ c.date.year = year) (p.inYear i year fresh) := by
  refine unit_isFirst (u := (·.date.month)) reg proper ((Field.sorted_all _).sublist reg.months) ?_
    (fun isFresh => ⟨start isFresh, if_pos isFresh⟩) later (by simp) (by simp) (fun c matches_ _ above => ?_)
    fun month mem _ flag is isNot => ?_
  · intro c d hc hd within within' lt
    exact lt_of_dayNumber_lt hc.1 (Date.dayNumber_lt_of_month_lt hc.2 hd.2 (within.trans within'.symm) lt)
  · obtain ⟨-, -, -, -, month, -, -, valid, -⟩ := matches_
    refine ⟨month, ?_⟩
    cases isFresh : fresh with
    | false => simpa using valid.1
    | true => simpa [isFresh] using above
  · have low := Field.low_of_mem_all (reg.months.subset mem) (by decide)
    have high := Field.high_of_mem_all (reg.months.subset mem) (by decide)
    refine inMonth_isFirst reg proper (fun day days last weekdays hour hours minute minutes second seconds => ?_) is isNot
    have valid : Date.Valid ⟨year, month, day⟩ :=
      ⟨low, high, Field.low_of_mem_all (reg.days.subset days) (by decide), last⟩
    exact ⟨seconds, minutes, hours, days, mem, weekdays, ⟨year, years, rfl⟩, valid, rfl⟩

/-- From a time since 1970 on, the search of a pattern that allows every year finds the first that lies ahead. -/
theorem search_isFirst (reg : p.Regular) (yearless : p.years = Field.years.all) (proper : Proper i)
    (since : 1970 ≤ i.date.year) : IsFirst (p.Ahead i) (p.search i) := by
  obtain ⟨year, same⟩ : ∃ year : Nat, i.date.year = year := ⟨i.date.year.toNat, by omega⟩
  have order {c d : Civil} (hc : Proper c) (hd : Proper d) (lt : c.date.year < d.date.year) :
      c.instant.second < d.instant.second := lt_of_dayNumber_lt hc.1 (Date.dayNumber_lt_of_year_lt hc.2 hd.2 lt)
  unfold search
  rw [if_neg (by omega)]
  by_cases mem : year ∈ p.years
  · have isFresh : true = (true && p.years.contains year) := by simp [mem]
    rw [isFresh]
    refine (unit_isFirst (W := fun _ => True) (u := (·.date.year.toNat)) reg proper ((Field.sorted_all _).sublist reg.years)
      (fun hc hd _ _ lt => order hc hd (by omega)) (fun _ => ⟨trivial, by simp [same]⟩) (fun never => by cases never)
      (fun m _ kept => ?_) (by simp [same]) (fun c matches_ _ above => ?_) fun n mem _ flag is isNot => ?_).congr
      fun c => and_iff_left trivial
    · simpa [same] using kept
    · obtain ⟨-, -, -, -, -, -, ⟨n, mem, own⟩, -⟩ := matches_
      have := above rfl
      exact ⟨by simpa [own] using mem, by simp [same, own]; omega⟩
    · refine (inYear_isFirst reg proper mem (fun true => ?_) fun false c matches_ own => ?_).congr fun c => ?_
      · have := (is true).2
        omega
      · exact isNot false c matches_ ⟨trivial, by simp [own]⟩
      · refine and_congr_right fun ahead => ?_
        obtain ⟨-, -, -, -, -, -, ⟨m, -, own⟩, -⟩ := ahead.1
        simp only [own, true_and, Int.toNat_natCast, Int.natCast_inj]
  · -- the start is behind all years
    have behind {n : Nat} (has : n ∈ p.years) : n < year := by
      rw [yearless, Field.mem_all (by decide)] at mem has
      simp only [Field.years] at mem has
      omega
    have none : p.years.filter (fun n : Nat => i.date.year ≤ n) = [] := by
      refine List.filter_eq_nil_iff.mpr fun n has => ?_
      have := behind has
      simp only [decide_eq_true_eq]
      omega
    rw [none]
    rintro c ⟨matches_, ahead⟩
    have proper' := Matches.proper reg matches_
    obtain ⟨-, -, -, -, -, -, ⟨n, has, own⟩, -⟩ := matches_
    have := behind has
    have := order proper' proper (by omega)
    omega

end Timetable.Cron.Pattern
