import Mathlib.Order.Lattice
import Timetable.Proofs.Instant.Order
import Timetable.Worker

/-!
# The plan of a dispatch

`Worker.plan` is what a worker does with an entry that it claimed, by milliseconds after the start: `Worker.stepsOf`
with the times still relative. Steps are in order of time, a claim is renewed at every multiple of the interval before
the end, and the end is the only step that gives the claim back. So until then no step comes later than an interval
after the start or after the last renewal (`Worker.renewed_before`).
-/

namespace Timetable

/-- Milliseconds until the outcome of a course is recorded. -/
def Course.lasts {ω ε α : Type} (c : Course ω ε α) : Nat := c.takes + c.settling

namespace Worker

/-! ## Sorting by a key -/

section

variable {β κ : Type} [LinearOrder κ] (key : β → κ)

theorem ordered_trans (a b c : β) (ab : decide (key a ≤ key b) = true) (bc : decide (key b ≤ key c) = true) :
    decide (key a ≤ key c) = true :=
  decide_eq_true (le_trans (of_decide_eq_true ab) (of_decide_eq_true bc))

theorem ordered_total (a b : β) : (decide (key a ≤ key b) || decide (key b ≤ key a)) = true := by
  simpa using le_total (key a) (key b)

theorem pairwise_sorted (l : List β) :
    (l.mergeSort fun a b => decide (key a ≤ key b)).Pairwise fun a b => key a ≤ key b :=
  (List.pairwise_mergeSort (ordered_trans key) (ordered_total key) l).imp fun h => of_decide_eq_true h

/-- Sorting leaves those in place that are in order. -/
theorem filter_sorted {l : List β} {p : β → Bool} (ordered : (l.filter p).Pairwise fun a b => key a ≤ key b) :
    (l.mergeSort fun a b => decide (key a ≤ key b)).filter p = l.filter p := by
  have kept : (l.filter p).Sublist (l.mergeSort fun a b => decide (key a ≤ key b)) :=
    List.sublist_mergeSort (ordered_trans key) (ordered_total key) (ordered.imp fun h => decide_eq_true h)
      List.filter_sublist
  have same := ((List.mergeSort_perm l fun a b => decide (key a ≤ key b)).filter p).length_eq
  have within := kept.filter p
  rw [List.filter_filter, List.filter_congr fun a _ => Bool.and_self (p a)] at within
  exact (within.eq_of_length same.symm).symm

end

/-! ## The plan -/

variable {σ ρ ε α : Type} {w : Worker σ ρ ε α} {c : Course (World σ ρ) ε α} {every ms total : Nat}

/-- What is done on the way, in no order. -/
def onTheWay (w : Worker σ ρ ε α) (c : Course (World σ ρ) ε α) : List (Nat × FlightStep (World σ ρ) ε α) :=
  c.marks.map (fun m => (m.1, .mark m.2)) ++ (renewals w.renewEvery c.lasts).map fun ms => (ms, .renew)

/-- What is done in the end. -/
def lastSteps (c : Course (World σ ρ) ε α) : List (Nat × FlightStep (World σ ρ) ε α) :=
  [(c.takes, .settle c.outcome), (c.lasts, .finish)]

/-- What follows in a course, by milliseconds after its start. -/
def plan (w : Worker σ ρ ε α) (c : Course (World σ ρ) ε α) : List (Nat × FlightStep (World σ ρ) ε α) :=
  (w.onTheWay c ++ lastSteps c).mergeSort fun a b => decide (a.1 ≤ b.1)

theorem stepsOf_eq (start : Instant) (c : Course (World σ ρ) ε α) :
    w.stepsOf start c = (w.plan c).map fun s => (start.plusMillis s.1, s.2) := rfl

theorem mem_renewals (positive : 0 < every) : ms ∈ renewals every total ↔ ms < total ∧ ∃ k, 0 < k ∧ ms = k * every := by
  have inTime (k : Nat) (nonzero : 0 < k) : k - 1 < (total - 1) / every ↔ k * every < total := by
    have counted : k - 1 < (total - 1) / every ↔ k ≤ (total - 1) / every := by omega
    have later : 0 < k * every := Nat.mul_pos nonzero positive
    rw [counted, Nat.le_div_iff_mul_le positive]
    omega
  unfold renewals
  rw [List.mem_map]
  constructor
  · rintro ⟨k, before, rfl⟩
    exact ⟨(inTime (k + 1) k.succ_pos).mp (List.mem_range.mp before), k + 1, k.succ_pos, rfl⟩
  · rintro ⟨before, k, nonzero, rfl⟩
    exact ⟨k - 1, List.mem_range.mpr ((inTime k nonzero).mpr before), by rw [Nat.sub_add_cancel nonzero]⟩

theorem renewals_lt (mem : ms ∈ renewals every total) : ms < total := by
  rcases Nat.eq_zero_or_pos every with rfl | positive
  · simp [renewals] at mem
  · exact ((mem_renewals positive).mp mem).1

section

variable {step : FlightStep (World σ ρ) ε α} {done left : List (Nat × FlightStep (World σ ρ) ε α)}

theorem mem_plan : (ms, step) ∈ w.plan c ↔
    (ms, step) ∈ w.onTheWay c ∨ ms = c.takes ∧ step = .settle c.outcome ∨ ms = c.lasts ∧ step = .finish := by
  simp [plan, lastSteps]

theorem pairwise_plan (w : Worker σ ρ ε α) (c : Course (World σ ρ) ε α) :
    (w.plan c).Pairwise fun a b => a.1 ≤ b.1 :=
  pairwise_sorted (fun s : Nat × FlightStep (World σ ρ) ε α => s.1) _

theorem onTheWay_cases (h : (ms, step) ∈ w.onTheWay c) :
    (∃ change, step = .mark change ∧ (ms, change) ∈ c.marks) ∨ step = .renew ∧ ms ∈ renewals w.renewEvery c.lasts := by
  rcases List.mem_append.mp h with marked | renewed
  · obtain ⟨⟨at_, change⟩, mem, same⟩ := List.mem_map.mp marked
    cases same
    exact .inl ⟨change, rfl, mem⟩
  · obtain ⟨at_, mem, same⟩ := List.mem_map.mp renewed
    cases same
    exact .inr ⟨rfl, mem⟩

/-- The claim is given back at the end only. -/
theorem finish_mem_plan : (ms, .finish) ∈ w.plan c ↔ ms = c.lasts := by
  rw [mem_plan]
  constructor
  · rintro (onTheWay | ⟨_, other⟩ | ⟨last, _⟩)
    · rcases onTheWay_cases onTheWay with ⟨_, other, _⟩ | ⟨other, _⟩ <;> cases other
    · cases other
    · exact last
  · intro last
    exact .inr (.inr ⟨last, rfl⟩)

theorem renew_mem_plan : (ms, .renew) ∈ w.plan c ↔ ms ∈ renewals w.renewEvery c.lasts := by
  rw [mem_plan]
  constructor
  · rintro (onTheWay | ⟨_, other⟩ | ⟨_, other⟩)
    · rcases onTheWay_cases onTheWay with ⟨_, other, _⟩ | ⟨_, mem⟩
      · cases other
      · exact mem
    · cases other
    · cases other
  · intro mem
    exact .inl (List.mem_append_right _ (List.mem_map_of_mem mem))

theorem mark_mem_plan {change : World σ ρ → World σ ρ} : (ms, .mark change) ∈ w.plan c ↔ (ms, change) ∈ c.marks := by
  rw [mem_plan]
  constructor
  · rintro (onTheWay | ⟨_, other⟩ | ⟨_, other⟩)
    · rcases onTheWay_cases onTheWay with ⟨_, same, mem⟩ | ⟨other, _⟩
      · cases same
        exact mem
      · cases other
    · cases other
    · cases other
  · intro mem
    exact .inl (List.mem_append_left _ (List.mem_map.mpr ⟨_, mem, rfl⟩))

/-- What comes at an earlier time than a step was done before it. -/
theorem mem_of_earlier {earlier : Nat} {other : FlightStep (World σ ρ) ε α}
    (parts : w.plan c = done ++ (ms, step) :: left) (mem : (earlier, other) ∈ w.plan c) (lt : earlier < ms) :
    (earlier, other) ∈ done := by
  have sorted : (done ++ (ms, step) :: left).Pairwise fun a b => a.1 ≤ b.1 := parts ▸ w.pairwise_plan c
  obtain ⟨_, sorted, _⟩ := List.pairwise_append.mp sorted
  rw [parts, List.mem_append, List.mem_cons] at mem
  rcases mem with before | same | after
  · exact before
  · cases same
    exact absurd lt (Nat.lt_irrefl _)
  · exact absurd lt (Nat.not_lt_of_le (List.rel_of_pairwise_cons sorted after))

/-- Until the end, an interval is over at the earliest when the claim has been renewed. -/
theorem plan_renewed (positive : 0 < w.renewEvery) (parts : w.plan c = done ++ (ms, step) :: left)
    (unfinished : ∀ ms, (ms, .finish) ∉ done) :
    ms ≤ w.renewEvery ∨ ∃ last, (last, .renew) ∈ done ∧ ms ≤ last + w.renewEvery := by
  have inTime : ms ≤ c.lasts := by
    by_contra late
    exact unfinished _ (mem_of_earlier parts (finish_mem_plan.mpr rfl) (Nat.lt_of_not_le late))
  rcases Nat.lt_or_ge w.renewEvery ms with passed | first
  · -- the last multiple of the interval that comes before this step
    have whole := Nat.div_mul_le_self (ms - 1) w.renewEvery
    have rest := Nat.lt_div_mul_add (a := ms - 1) positive
    have nonzero : 0 < (ms - 1) / w.renewEvery := Nat.div_pos (by omega) positive
    have before : (ms - 1) / w.renewEvery * w.renewEvery < ms := by omega
    have renewed := (mem_renewals positive).mpr ⟨Nat.lt_of_lt_of_le before inTime, _, nonzero, rfl⟩
    exact .inr ⟨_, mem_of_earlier parts (renew_mem_plan.mpr renewed) before, by omega⟩
  · exact .inl first

end

/-! ## At their times -/

variable {start t : Instant} {step : FlightStep (World σ ρ) ε α}
  {done left : List (Instant × FlightStep (World σ ρ) ε α)}

theorem pairwise_stepsOf (w : Worker σ ρ ε α) (start : Instant) (c : Course (World σ ρ) ε α) :
    (w.stepsOf start c).Pairwise fun a b => a.1 ≤ b.1 := by
  rw [stepsOf_eq]
  exact (w.pairwise_plan c).map _ fun a b le => start.plusMillis_le_plusMillis le

theorem of_mem_stepsOf (ordinary : ¬ start.InLeapSecond) (mem : (t, step) ∈ w.stepsOf start c) :
    start ≤ t ∧ ¬ t.InLeapSecond := by
  rw [stepsOf_eq] at mem
  obtain ⟨s, _, same⟩ := List.mem_map.mp mem
  cases same
  exact ⟨Instant.le_plusMillis start s.1, Instant.not_inLeapSecond_plus ordinary _⟩

theorem mark_of_mem_stepsOf {change : World σ ρ → World σ ρ} (mem : (t, .mark change) ∈ w.stepsOf start c) :
    ∃ ms, (ms, change) ∈ c.marks := by
  rw [stepsOf_eq] at mem
  obtain ⟨⟨ms, step⟩, planned, same⟩ := List.mem_map.mp mem
  cases same
  exact ⟨ms, mark_mem_plan.mp planned⟩

theorem finish_mem_stepsOf (w : Worker σ ρ ε α) (start : Instant) (c : Course (World σ ρ) ε α) :
    (start.plusMillis c.lasts, .finish) ∈ w.stepsOf start c := by
  rw [stepsOf_eq]
  exact List.mem_map.mpr ⟨(c.lasts, .finish), finish_mem_plan.mpr rfl, rfl⟩

/-- No step comes later than an interval after the start or after a renewal, until the claim is given back. -/
theorem renewed_before (positive : 0 < w.renewEvery) (ordinary : ¬ start.InLeapSecond)
    (parts : w.stepsOf start c = done ++ (t, step) :: left) (unfinished : ∀ u, (u, .finish) ∉ done) :
    ∃ u, (u = start ∨ (u, .renew) ∈ done) ∧ t ≤ u.plusMillis w.renewEvery := by
  rw [stepsOf_eq] at parts
  obtain ⟨done, rest, planned, rfl, after⟩ := List.map_eq_append_iff.mp parts
  obtain ⟨⟨ms, step⟩, left, rfl, same, rfl⟩ := List.map_eq_cons_iff.mp after
  cases same
  have unfinished (ms : Nat) : (ms, .finish) ∉ done := fun mem =>
    unfinished (start.plusMillis ms) (List.mem_map.mpr ⟨_, mem, rfl⟩)
  rcases plan_renewed positive planned unfinished with first | ⟨last, renewed, le⟩
  · exact ⟨start, .inl rfl, start.plusMillis_le_plusMillis first⟩
  · refine ⟨start.plusMillis last, .inr (List.mem_map.mpr ⟨_, renewed, rfl⟩), ?_⟩
    have same : (start.plusMillis last).plusMillis w.renewEvery = start.plusMillis (last + w.renewEvery : Nat) := by
      unfold Instant.plusMillis
      rw [Instant.plus_plus ordinary, ← Int.add_mul, Int.natCast_add]
    rw [same]
    exact start.plusMillis_le_plusMillis le

/-! ## Stages -/

/-- How far a dispatch has come. -/
inductive Stage (ε α : Type) where
  /-- The outcome is still to be recorded. -/
  | running (outcome : Except ε α)
  /-- The outcome was recorded, and the claim is still to be given back. -/
  | recorded
  | ended

/-- The steps that are left at a stage: the outcome is recorded once, then the claim is given back once, and renewed
no more. -/
inductive Ahead {ω ε α : Type} : Stage ε α → List (FlightStep ω ε α) → Prop
  | nil : Ahead .ended []
  | mark {stage change steps} : Ahead stage steps → Ahead stage (.mark change :: steps)
  | renew {stage steps} : stage ≠ .ended → Ahead stage steps → Ahead stage (.renew :: steps)
  | settle {outcome steps} : Ahead .recorded steps → Ahead (.running outcome) (.settle outcome :: steps)
  | finish {steps} : Ahead .ended steps → Ahead .recorded (.finish :: steps)

/-- Whether a step takes a dispatch to its next stage. -/
def isMilestone {ω ε α : Type} : FlightStep ω ε α → Bool
  | .settle _ => true
  | .finish => true
  | _ => false

/-- The steps that take a dispatch on from a stage. -/
def milestones {ω ε α : Type} : Stage ε α → List (FlightStep ω ε α)
  | .running outcome => [.settle outcome, .finish]
  | .recorded => [.finish]
  | .ended => []

theorem ahead_of_milestones {ω ε α : Type} {stage : Stage ε α} {steps : List (FlightStep ω ε α)}
    (marks : steps.filter isMilestone = milestones stage)
    (renewed : steps.Pairwise fun a b => a = .finish → b ≠ .renew)
    (closed : stage = .ended → .renew ∉ steps) : Ahead stage steps := by
  induction steps generalizing stage with
  | nil =>
    cases stage with
    | ended => exact .nil
    | running | recorded => cases marks
  | cons step steps ih =>
    obtain ⟨first, rest⟩ := List.pairwise_cons.mp renewed
    have later (h : stage = .ended) : .renew ∉ steps := fun mem => closed h (List.mem_cons_of_mem _ mem)
    cases step with
    | mark change => exact .mark (ih marks rest later)
    | renew => exact .renew (fun h => closed h List.mem_cons_self) (ih marks rest later)
    | settle outcome =>
      cases stage with
      | running =>
        obtain ⟨same, others⟩ := List.cons.inj marks
        cases same
        exact .settle (ih others rest nofun)
      | recorded => cases (List.cons.inj marks).1
      | ended => cases marks
    | finish =>
      cases stage with
      | running => cases (List.cons.inj marks).1
      | recorded => exact .finish (ih (List.cons.inj marks).2 rest fun _ mem => first _ mem rfl rfl)
      | ended => cases marks

theorem milestones_plan (w : Worker σ ρ ε α) (c : Course (World σ ρ) ε α) :
    (w.plan c).filter (isMilestone ·.2) = lastSteps c := by
  have others : (w.onTheWay c).filter (isMilestone ·.2) = [] := by
    rw [List.filter_eq_nil_iff]
    rintro ⟨ms, step⟩ mem
    rcases onTheWay_cases mem with ⟨change, rfl, _⟩ | ⟨rfl, _⟩ <;> simp [isMilestone]
  have unsorted : (w.onTheWay c ++ lastSteps c).filter (isMilestone ·.2) = lastSteps c := by
    rw [List.filter_append, others]
    rfl
  unfold plan
  rw [filter_sorted (fun s : Nat × FlightStep (World σ ρ) ε α => s.1), unsorted]
  rw [unsorted]
  simp [lastSteps, Course.lasts]

theorem ahead_stepsOf (w : Worker σ ρ ε α) (start : Instant) (c : Course (World σ ρ) ε α) :
    Ahead (.running c.outcome) ((w.stepsOf start c).map (·.2)) := by
  have same : (w.stepsOf start c).map (·.2) = (w.plan c).map (·.2) := by
    rw [stepsOf_eq, List.map_map]
    rfl
  rw [same]
  refine ahead_of_milestones ?_ ?_ nofun
  · rw [List.filter_map]
    exact congrArg (List.map (·.2)) (milestones_plan w c)
  · rw [List.pairwise_map]
    refine (w.pairwise_plan c).imp_of_mem ?_
    rintro ⟨ms, step⟩ ⟨ms', step'⟩ mem mem' le finish renew
    subst finish renew
    rw [finish_mem_plan.mp mem] at le
    exact absurd (renewals_lt (renew_mem_plan.mp mem')) (Nat.not_lt_of_le le)

end Worker

end Timetable
