import Timetable.Proofs.Worker.Pool

/-!
# Dispatches side by side

Letting the steps up to some time follow is the same as letting one dispatch after the other do its next step, always
the one whose next step comes first (`Worker.Move`, `Worker.advanceWhile_moves`). The steps of all are sorted at once,
but the steps of each keep their order, and those of a dispatch that is lost on the way are left out.
-/

namespace Timetable

namespace Worker

variable {σ ρ ε α : Type}

/-- The dispatch whose next step comes first does it. -/
inductive Move (w : Worker σ ρ ε α) : Airspace σ ρ ε α → Airspace σ ρ ε α → Prop
  | step {world before after e t step rest goesOn world'} :
    (∀ f ∈ before ++ after, ∀ s ∈ f.steps, t ≤ s.1) →
    w.perform e step { world with now := t } = (goesOn, world') →
    Move w ⟨world, before ++ ⟨e, (t, step) :: rest⟩ :: after⟩
      ⟨world', before ++ ⟨e, if goesOn then rest else []⟩ :: after⟩

/-- What is due stays due later. -/
def Closed (due : Instant → Bool) : Prop := ∀ {t u : Instant}, t ≤ u → due u = true → due t = true

/-- What is left of the flight at a place. -/
def landing (due : Instant → Bool) (lost : List Nat) (place : Nat) (f : Flight (World σ ρ) ε α) :
    Flight (World σ ρ) ε α :=
  { f with steps := if lost.contains place then [] else f.steps.dropWhile (due ·.1) }

/-- The steps of a flight that are due. -/
def dueOf (due : Instant → Bool) (place : Nat) (f : Flight (World σ ρ) ε α) : List (DueStep (World σ ρ) ε α) :=
  (f.steps.takeWhile (due ·.1)).map fun s => ⟨place, f.entry, s.1, s.2⟩

/-- Some steps are those that are due of some flights, but for those that were lost. -/
structure Ready (due : Instant → Bool) (steps : List (DueStep (World σ ρ) ε α)) (lost : List Nat)
    (flights : List (Flight (World σ ρ) ε α)) : Prop where
  ordered : steps.Pairwise fun a b => a.time ≤ b.time
  sorted : ∀ f ∈ flights, Sorted f
  known : ∀ d ∈ steps, d.flight < flights.length
  own : ∀ {place f}, flights[place]? = some f → place ∉ lost → steps.filter (·.flight == place) = dueOf due place f
  lost : ∀ {place f}, flights[place]? = some f → place ∈ lost → f.steps = []

variable {w : Worker σ ρ ε α} {due : Instant → Bool} {lost : List Nat} {flights : List (Flight (World σ ρ) ε α)}
  {steps : List (DueStep (World σ ρ) ε α)} {d : DueStep (World σ ρ) ε α} {f : Flight (World σ ρ) ε α} {place : Nat}

theorem not_due_of_mem_dropWhile {β : Type} {l : List (Instant × β)} (closed : Closed due)
    (sorted : l.Pairwise fun a b => a.1 ≤ b.1) {s : Instant × β} (mem : s ∈ l.dropWhile (due ·.1)) :
    due s.1 = false := by
  induction l with
  | nil => cases mem
  | cons first l ih =>
    obtain ⟨before, sorted⟩ := List.pairwise_cons.mp sorted
    rw [List.dropWhile_cons] at mem
    split at mem
    · exact ih sorted mem
    · next notDue =>
      rw [Bool.not_eq_true] at notDue
      rcases List.mem_cons.mp mem with rfl | later
      · exact notDue
      · by_contra isDue
        rw [closed (before s later) (Bool.not_eq_false _ ▸ isDue)] at notDue
        cases notDue

theorem exists_split {β : Type} {l : List β} {i : Nat} {x : β} (at_ : l[i]? = some x) :
    ∃ before after, l = before ++ x :: after ∧ before.length = i := by
  obtain ⟨lt, rfl⟩ := List.getElem?_eq_some_iff.mp at_
  refine ⟨l.take i, l.drop (i + 1), ?_, ?_⟩
  · rw [List.getElem_cons_drop, List.take_append_drop]
  · rw [List.length_take, Nat.min_eq_left (Nat.le_of_lt lt)]

theorem flight_of_mem_dueOf (mem : d ∈ dueOf due place f) : d.flight = place := by
  obtain ⟨s, _, rfl⟩ := List.mem_map.mp mem
  rfl

/-- Among the steps of all flights those of one are found by its place. -/
theorem filter_dueOf (due : Instant → Bool) (at_ : flights[place]? = some f) :
    (flights.zipIdx.flatMap fun p => dueOf due p.2 p.1).filter (·.flight == place) = dueOf due place f := by
  have others {l : List (Flight (World σ ρ) ε α × Nat)} (ne : ∀ p ∈ l, p.2 ≠ place) :
      (l.flatMap fun p => dueOf due p.2 p.1).filter (·.flight == place) = [] := by
    rw [List.filter_eq_nil_iff]
    intro d mem
    obtain ⟨p, mem, due⟩ := List.mem_flatMap.mp mem
    rw [flight_of_mem_dueOf due, beq_iff_eq]
    exact ne p mem
  obtain ⟨before, after, rfl, rfl⟩ := exists_split at_
  have earlier : ∀ p ∈ before.zipIdx, p.2 ≠ before.length := by
    rintro ⟨g, i⟩ mem
    have := (List.mem_zipIdx mem).2.1
    simp only at this ⊢
    omega
  have later : ∀ p ∈ after.zipIdx (before.length + 1), p.2 ≠ before.length := by
    rintro ⟨g, i⟩ mem
    have := (List.mem_zipIdx mem).1
    simp only at this ⊢
    omega
  have own : (dueOf due before.length f).filter (·.flight == before.length) = dueOf due before.length f := by
    rw [List.filter_eq_self]
    intro d mem
    rw [flight_of_mem_dueOf mem, beq_self_eq_true]
  rw [List.zipIdx_append, List.zipIdx_cons, List.flatMap_append, List.flatMap_cons, List.filter_append,
    List.filter_append, others earlier, Nat.zero_add, others later, own, List.nil_append, List.append_nil]

theorem dueSteps_eq : dueSteps flights due =
    (flights.zipIdx.flatMap fun p => dueOf due p.2 p.1).mergeSort fun a b => decide (a.time ≤ b.time) := rfl

/-- The steps that are due of the flights are ready. -/
theorem ready_dueSteps (sorted : ∀ f ∈ flights, Sorted f) : Ready due (dueSteps flights due) [] flights := by
  rw [dueSteps_eq]
  refine ⟨pairwise_sorted (fun d : DueStep (World σ ρ) ε α => d.time) _, sorted, ?_, ?_, nofun⟩
  · intro d mem
    obtain ⟨⟨f, i⟩, mem, isDue⟩ := List.mem_flatMap.mp (List.mem_mergeSort.mp mem)
    rw [flight_of_mem_dueOf isDue]
    simpa using (List.mem_zipIdx mem).2.1
  · intro place f at_ _
    have own := filter_dueOf due at_
    rw [filter_sorted (fun d : DueStep (World σ ρ) ε α => d.time), own]
    rw [own, dueOf, List.pairwise_map]
    exact (sorted f (List.mem_of_getElem? at_)).sublist (List.takeWhile_sublist _)

theorem Ready.skip (ready : Ready due (d :: steps) lost flights) (gone : d.flight ∈ lost) :
    Ready due steps lost flights where
  ordered := (List.pairwise_cons.mp ready.ordered).2
  sorted := ready.sorted
  known d' mem := ready.known d' (List.mem_cons_of_mem _ mem)
  own {place f} at_ going := by
    have other : (d.flight == place) = false := beq_false_of_ne fun same => going (same ▸ gone)
    have own := ready.own at_ going
    rwa [List.filter_cons, other, if_neg Bool.false_ne_true] at own
  lost := ready.lost

/-- The first step that is due, of a dispatch that was not lost, is the next step of its flight. -/
theorem Ready.head (ready : Ready due (d :: steps) lost flights) (going : d.flight ∉ lost) :
    ∃ before after rest, flights = before ++ ⟨d.entry, (d.time, d.step) :: rest⟩ :: after ∧ before.length = d.flight ∧
      due d.time = true ∧ steps.filter (·.flight == d.flight) = dueOf due d.flight ⟨d.entry, rest⟩ := by
  obtain ⟨f, at_⟩ : ∃ f, flights[d.flight]? = some f := ⟨_, List.getElem?_eq_getElem (ready.known d List.mem_cons_self)⟩
  obtain ⟨before, after, split, place⟩ := exists_split at_
  have own := ready.own at_ going
  rw [List.filter_cons, beq_self_eq_true, if_pos rfl] at own
  obtain ⟨e, left⟩ := f
  obtain ⟨i, entry, time, step⟩ := d
  cases left with
  | nil => cases own
  | cons s rest =>
    rw [dueOf, List.takeWhile_cons] at own
    split at own
    · next isDue =>
      obtain ⟨same, own⟩ := List.cons.inj own
      obtain ⟨-, rfl, rfl, rfl⟩ := DueStep.mk.inj same
      exact ⟨before, after, rest, split, place, isDue, own⟩
    · cases own

/-- After a step the others are ready, but for those of a dispatch that is lost by it. -/
theorem Ready.after {before after : List (Flight (World σ ρ) ε α)} {rest : List (Instant × FlightStep (World σ ρ) ε α)}
    (ready : Ready due (d :: steps) lost (before ++ ⟨d.entry, (d.time, d.step) :: rest⟩ :: after))
    (place : before.length = d.flight) (going : d.flight ∉ lost)
    (others : steps.filter (·.flight == d.flight) = dueOf due d.flight ⟨d.entry, rest⟩) (goesOn : Bool) :
    Ready due steps (if goesOn then lost else d.flight :: lost)
      (before ++ ⟨d.entry, if goesOn then rest else []⟩ :: after) where
  ordered := (List.pairwise_cons.mp ready.ordered).2
  sorted := sorted_step ready.sorted goesOn
  known d' mem := by
    have known := ready.known d' (List.mem_cons_of_mem _ mem)
    rw [List.length_append, List.length_cons] at known ⊢
    exact known
  own {i g} at_ free := by
    by_cases same : i = d.flight
    · subst same
      cases goesOn with
      | false => exact absurd List.mem_cons_self free
      | true =>
        rw [← place, getElem?_between] at at_
        cases at_
        exact others
    · rw [getElem?_replaced (by rwa [place])] at at_
      have free : i ∉ lost := by
        cases goesOn
        · exact fun mem => free (List.mem_cons_of_mem _ mem)
        · exact free
      have other : (d.flight == i) = false := beq_false_of_ne (Ne.symm same)
      have own := ready.own at_ free
      rwa [List.filter_cons, other, if_neg Bool.false_ne_true] at own
  lost {i g} at_ gone := by
    by_cases same : i = d.flight
    · subst same
      rw [← place, getElem?_between] at at_
      cases at_
      cases goesOn with
      | false => rfl
      | true => exact absurd gone going
    · rw [getElem?_replaced (by rwa [place])] at at_
      refine ready.lost at_ ?_
      cases goesOn with
      | false => exact (List.mem_cons.mp gone).resolve_left same
      | true => exact gone

theorem exists_other {β : Type} {before after : List β} {x y : β} (mem : x ∈ before ++ after) :
    ∃ i, i ≠ before.length ∧ (before ++ y :: after)[i]? = some x := by
  rcases List.mem_append.mp mem with mem | mem
  · obtain ⟨i, lt, rfl⟩ := List.mem_iff_getElem.mp mem
    exact ⟨i, Nat.ne_of_lt lt, by rw [List.getElem?_append_left lt, List.getElem?_eq_getElem lt]⟩
  · obtain ⟨i, at_⟩ := List.mem_iff_getElem?.mp mem
    refine ⟨before.length + (i + 1), by omega, ?_⟩
    rw [List.getElem?_append_right (Nat.le_add_right _ _), Nat.add_sub_cancel_left, List.getElem?_cons_succ, at_]

/-- No other flight has a step before the first step that is due. -/
theorem Ready.first {before after : List (Flight (World σ ρ) ε α)} {rest : List (Instant × FlightStep (World σ ρ) ε α)}
    (closed : Closed due) (ready : Ready due (d :: steps) lost (before ++ ⟨d.entry, (d.time, d.step) :: rest⟩ :: after))
    (isDue : due d.time = true) : ∀ f ∈ before ++ after, ∀ s ∈ f.steps, d.time ≤ s.1 := by
  intro f mem s left
  obtain ⟨i, _, at_⟩ := exists_other (y := ⟨d.entry, (d.time, d.step) :: rest⟩) mem
  by_cases gone : i ∈ lost
  · rw [ready.lost at_ gone] at left
    cases left
  rw [← List.takeWhile_append_dropWhile (p := fun s => due s.1) (l := f.steps), List.mem_append] at left
  rcases left with now | later
  · have mine : ⟨i, f.entry, s.1, s.2⟩ ∈ dueOf due i f := List.mem_map_of_mem now
    rw [← ready.own at_ gone] at mine
    rcases List.mem_cons.mp (List.mem_filter.mp mine).1 with same | mem
    · rw [← same]
    · exact List.rel_of_pairwise_cons ready.ordered mem
  · have notDue := not_due_of_mem_dropWhile closed (ready.sorted f (List.mem_of_getElem? at_)) later
    by_contra earlier
    rw [closed (le_of_lt (lt_of_not_ge earlier)) isDue] at notDue
    cases notDue

/-- When nothing is due any more, all flights have landed. -/
theorem Ready.landed (ready : Ready due [] lost flights) : flights.mapIdx (landing due lost) = flights := by
  refine List.ext_getElem? fun i => ?_
  rw [List.getElem?_mapIdx]
  cases at_ : flights[i]? with
  | none => rfl
  | some f =>
    rw [Option.map_some, landing]
    by_cases gone : i ∈ lost
    · rw [if_pos (List.contains_iff_mem.mpr gone), ← ready.lost at_ gone]
    · have none : f.steps.takeWhile (due ·.1) = [] := List.map_eq_nil_iff.mp (ready.own at_ gone).symm
      have whole := List.takeWhile_append_dropWhile (p := fun s => due s.1) (l := f.steps)
      rw [none, List.nil_append] at whole
      rw [if_neg (fun mem => gone (List.contains_iff_mem.mp mem)), whole]

/-- A step changes nothing about what is left of its flight in the end. -/
theorem landing_step {e : StoredEntry} {t : Instant} {step : FlightStep (World σ ρ) ε α}
    {rest : List (Instant × FlightStep (World σ ρ) ε α)} {goesOn : Bool} (isDue : due t = true)
    (gone : goesOn = false → place ∈ lost) :
    landing due lost place ⟨e, if goesOn then rest else []⟩ = landing due lost place ⟨e, (t, step) :: rest⟩ := by
  unfold landing
  by_cases mem : place ∈ lost
  · rw [if_pos (List.contains_iff_mem.mpr mem), if_pos (List.contains_iff_mem.mpr mem)]
  · cases goesOn with
    | false => exact absurd (gone rfl) mem
    | true => simp [isDue]

/-- Steps that are ready follow as moves. -/
theorem performEach_moves (closed : Closed due) (world : World σ ρ) (ready : Ready due steps lost flights) :
    let out := w.performEach steps lost world
    (∀ place ∈ lost, place ∈ out.1) ∧
      Relation.ReflTransGen w.Move ⟨world, flights⟩ ⟨out.2, flights.mapIdx (landing due out.1)⟩ := by
  induction steps generalizing lost world flights with
  | nil =>
    refine ⟨fun _ mem => mem, ?_⟩
    show Relation.ReflTransGen w.Move ⟨world, flights⟩ ⟨world, flights.mapIdx (landing due lost)⟩
    rw [ready.landed]
  | cons d steps ih =>
    by_cases gone : d.flight ∈ lost
    · rw [performEach, if_pos (List.contains_iff_mem.mpr gone)]
      exact ih world (ready.skip gone)
    · obtain ⟨before, after, rest, rfl, place, isDue, others⟩ := ready.head gone
      have first := ready.first closed isDue
      rw [performEach, if_neg (fun mem => gone (List.contains_iff_mem.mp mem))]
      cases done : w.perform d.entry d.step { world with now := d.time } with
      | mk goesOn world' =>
        obtain ⟨lost', moves⟩ := ih world' (ready.after place gone others goesOn)
        have kept : ∀ place ∈ lost, place ∈ if goesOn then lost else d.flight :: lost := by
          intro place mem
          cases goesOn
          · exact List.mem_cons_of_mem _ mem
          · exact mem
        refine ⟨fun place mem => lost' place (kept place mem), .head (.step first done) ?_⟩
        rw [List.mapIdx_append, List.mapIdx_cons, landing_step isDue ?_] at moves
        · rw [List.mapIdx_append, List.mapIdx_cons]
          exact moves
        · rintro rfl
          rw [Nat.zero_add, place]
          exact lost' _ List.mem_cons_self

/-! ## What is left over -/

/-- Taking out and then changing is changing what is not taken out, if the others are taken out in the end. -/
theorem filter_map_filter {β γ : Type} {l : List β} {p : β → Bool} {q : γ → Bool} {g h : β → γ}
    (kept : ∀ b, p b = true → g b = h b) (out : ∀ b, p b = false → q (g b) = false) :
    ((l.filter p).map h).filter q = (l.map g).filter q := by
  induction l with
  | nil => rfl
  | cons b l ih =>
    rw [List.map_cons, List.filter_cons]
    cases stays : p b with
    | true => rw [if_pos rfl, List.map_cons, List.filter_cons, List.filter_cons, ih, kept b stays]
    | false => rw [if_neg Bool.false_ne_true, List.filter_cons, out b stays, if_neg Bool.false_ne_true, ih]

theorem leftOver_eq (flights : List (Flight (World σ ρ) ε α)) (lost : List Nat) (due : Instant → Bool) :
    leftOver flights lost due = inAir (flights.mapIdx (landing due lost)) := by
  rw [List.mapIdx_eq_zipIdx_map]
  unfold leftOver inAir
  refine filter_map_filter (fun b going => ?_) fun b gone => ?_
  · rw [Bool.not_eq_true'] at going
    simp only [landing, going, if_neg Bool.false_ne_true]
  · rw [Bool.not_eq_false'] at gone
    simp only [landing, gone, if_true, List.isEmpty_nil, Bool.not_true]

theorem mem_inAir : f ∈ inAir flights ↔ f ∈ flights ∧ f.steps ≠ [] := by
  simp [inAir, List.mem_filter]

theorem mem_leftOver (mem : f ∈ leftOver flights lost due) :
    ∃ g ∈ flights, f.steps = g.steps.dropWhile (due ·.1) ∧ f.steps ≠ [] := by
  rw [leftOver_eq, mem_inAir, List.mem_mapIdx] at mem
  obtain ⟨⟨i, lt, rfl⟩, left⟩ := mem
  refine ⟨flights[i], List.getElem_mem lt, ?_, left⟩
  unfold landing at left ⊢
  split at left
  · exact absurd rfl left
  · next going => simp only [going]; rfl

variable {a : Airspace σ ρ ε α}

/-- The flights of an airspace are in the air, each in order. -/
def Orderly (a : Airspace σ ρ ε α) : Prop := ∀ f ∈ a.flights, Sorted f ∧ f.steps ≠ []

theorem mem_advanceWhile (mem : f ∈ (w.advanceWhile due a).flights) :
    ∃ g ∈ a.flights, f.steps = g.steps.dropWhile (due ·.1) ∧ f.steps ≠ [] :=
  mem_leftOver mem

theorem Orderly.advanceWhile (orderly : Orderly a) : Orderly (w.advanceWhile due a) := by
  intro f mem
  obtain ⟨g, mem, same, left⟩ := mem_advanceWhile mem
  refine ⟨?_, left⟩
  rw [Sorted, same]
  exact (orderly g mem).1.sublist (List.dropWhile_sublist _)

/-- Letting what is due follow is a sequence of moves. -/
theorem advanceWhile_moves (w : Worker σ ρ ε α) (closed : Closed due) (sorted : ∀ f ∈ a.flights, Sorted f) :
    ∃ flights, Relation.ReflTransGen w.Move a ⟨(w.advanceWhile due a).world, flights⟩ ∧
      inAir flights = (w.advanceWhile due a).flights := by
  obtain ⟨_, moves⟩ := performEach_moves (w := w) closed a.world (ready_dueSteps sorted)
  exact ⟨_, moves, (leftOver_eq _ _ _).symm⟩

end Worker

end Timetable
