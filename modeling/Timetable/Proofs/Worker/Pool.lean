import Mathlib.Logic.Relation
import Timetable.Proofs.Worker.Plan

/-!
# The pool of dispatches

A worker counts its free permits, claims so many entries, and takes a permit for each of them before it starts its
dispatch. Dispatches under way do their next steps meanwhile, also between the count and the claim and between two
starts (`Worker.Turn`), and others change the world at any time (`Worker.Happens`). A dispatch is known by its place
among all that were started, and holds its permit while steps are left of it.

Whatever happened to it, the pool of a worker that pauses between renewals is in order (`Worker.Reached.inOrder`): no
more dispatches are in the air than there are permits, each entry that a claim handed out was started once, in order,
and what is told of its dispatch is its story so far (`Worker.Story`). It was processed, its outcome was settled, its
claim was given back, each of them once, or it was lost at a renewal that the calendar does not reach.
-/

namespace Timetable

/-- What is told of a dispatch. -/
inductive DispatchEvent (ε α : Type) where
  /-- The handler was asked to process an entry; what comes of it. -/
  | processed (e : StoredEntry) (outcome : Except ε α)
  /-- The outcome was handed to the handler. -/
  | settled (e : StoredEntry) (outcome : Except ε α)
  /-- The claim was given back. -/
  | finished (e : StoredEntry)
  /-- The dispatch was lost before it finished. -/
  | lost (e : StoredEntry) (now : Instant)

/-- How far a poll has come. -/
inductive PollPhase where
  | idle
  /-- So many permits were free. -/
  | counted (permits : Nat)
  /-- What was claimed and still waits for its permit. -/
  | launching (entries : List StoredEntry)

def PollPhase.waiting : PollPhase → List StoredEntry
  | launching entries => entries
  | _ => []

/-- The dispatches of a worker, those that are over included, with what is told of each. -/
structure Pool (σ ρ ε α : Type) extends Airspace σ ρ ε α where
  phase : PollPhase := .idle
  /-- What claims handed out so far, in order. -/
  claimed : List StoredEntry := []
  told : List (Nat × DispatchEvent ε α) := []

/-- Tells something of the dispatch at a place. -/
def tellAt {ε α : Type} (place : Nat) (events : List (DispatchEvent ε α)) (told : List (Nat × DispatchEvent ε α)) :
    List (Nat × DispatchEvent ε α) :=
  told ++ events.map fun event => (place, event)

/-- What is told of the dispatch at a place. -/
def storyAt {ε α : Type} (place : Nat) (told : List (Nat × DispatchEvent ε α)) : List (DispatchEvent ε α) :=
  (told.filter (·.1 == place)).map (·.2)

namespace Worker

variable {σ ρ ε α : Type}

/-- The flights of which steps are left. -/
def inAir (flights : List (Flight (World σ ρ) ε α)) : List (Flight (World σ ρ) ε α) :=
  flights.filter fun f => !f.steps.isEmpty

/-- What is told of a step at some time. -/
def eventsOf (e : StoredEntry) (t : Instant) (goesOn : Bool) : FlightStep (World σ ρ) ε α → List (DispatchEvent ε α)
  | .mark _ => []
  | .renew => if goesOn then [] else [.lost e t]
  | .settle outcome => [.settled e outcome]
  | .finish => [.finished e]

/-- The steps of a flight are in the order of time. -/
def Sorted (f : Flight (World σ ρ) ε α) : Prop := f.steps.Pairwise fun a b => a.1 ≤ b.1

/-- What a worker does next. -/
inductive Turn (w : Worker σ ρ ε α) : Pool σ ρ ε α → Pool σ ρ ε α → Prop
  /-- It waits. -/
  | wait {p : Pool σ ρ ε α} (now : Instant) : Turn w p { p with world := { p.world with now } }
  /-- It asks how many entries the queue holds. -/
  | gauge {p : Pool σ ρ ε α} : Turn w p { p with world := w.gauge p.world }
  /-- A dispatch does its next step. -/
  | step {p : Pool σ ρ ε α} {before after e t step rest goesOn world} :
    p.flights = before ++ ⟨e, (t, step) :: rest⟩ :: after →
    w.perform e step { p.world with now := t } = (goesOn, world) →
    Turn w p
      { p with
        world
        flights := before ++ ⟨e, if goesOn then rest else []⟩ :: after
        told := tellAt before.length (eventsOf e t goesOn step) p.told }
  | count {p : Pool σ ρ ε α} : p.phase = .idle → (inAir p.flights).length < w.concurrency →
    Turn w p { p with phase := .counted (w.concurrency - (inAir p.flights).length) }
  | claim {p : Pool σ ρ ε α} {permits out queue} : p.phase = .counted permits →
    (w.queue.claimDue p.world.now permits).on p.world.queue = (.ok out, queue) →
    Turn w p { p with world := p.world.putQueue queue, phase := .launching out, claimed := p.claimed ++ out }
  | claimFails {p : Pool σ ρ ε α} {permits error queue} : p.phase = .counted permits →
    (w.queue.claimDue p.world.now permits).on p.world.queue = (.error error, queue) →
    Turn w p { p with world := p.world.putQueue queue, phase := .idle }
  /-- The next entry gets a permit, and its dispatch starts. -/
  | launch {p : Pool σ ρ ε α} {e entries course world} : p.phase = .launching (e :: entries) →
    (inAir p.flights).length < w.concurrency → w.renewEvery ≠ 0 → w.handler.start e p.world = (course, world) →
    Turn w p
      { p with
        world
        flights := p.flights ++ [⟨e, w.stepsOf p.world.now course⟩]
        phase := .launching entries
        told := tellAt p.flights.length [.processed e course.outcome] p.told }
  /-- A dispatch that should renew its claim without a pause is lost before it starts. -/
  | spoil {p : Pool σ ρ ε α} {e entries} : p.phase = .launching (e :: entries) →
    (inAir p.flights).length < w.concurrency → w.renewEvery = 0 →
    Turn w p
      { p with
        flights := p.flights ++ [⟨e, []⟩]
        phase := .launching entries
        told := tellAt p.flights.length [.lost e p.world.now] p.told }
  | polled {p : Pool σ ρ ε α} : p.phase = .launching [] → Turn w p { p with phase := .idle }

/-- What happens to a pool next. -/
inductive Happens (w : Worker σ ρ ε α) : Pool σ ρ ε α → Pool σ ρ ε α → Prop
  | turn {p p' : Pool σ ρ ε α} : w.Turn p p' → Happens w p p'
  /-- Others change the world. -/
  | others {p : Pool σ ρ ε α} (world : World σ ρ) : Happens w p { p with world }

/-- What a worker that nothing was asked of yet comes to. -/
def Reached (w : Worker σ ρ ε α) (p : Pool σ ρ ε α) : Prop :=
  ∃ world, Relation.ReflTransGen w.Happens { world } p

/-- A lease of a claim that is renewed now ends beyond the calendar. -/
def Beyond (w : Worker σ ρ ε α) (e : StoredEntry) (now : Instant) : Prop :=
  ∃ queue, ((w.queue.renewLease e now).on queue).1 = .error .outOfRange

/-- What is told of a dispatch, with the steps that are left of it. -/
inductive Story (w : Worker σ ρ ε α) (e : StoredEntry) (outcome : Except ε α) :
    List (FlightStep (World σ ρ) ε α) → List (DispatchEvent ε α) → Prop
  | processed {steps} : Ahead (.running outcome) steps → Story w e outcome steps [.processed e outcome]
  | settled {steps} : Ahead .recorded steps → Story w e outcome steps [.processed e outcome, .settled e outcome]
  | finished {steps} : Ahead .ended steps →
    Story w e outcome steps [.processed e outcome, .settled e outcome, .finished e]
  | lost {now} : w.Beyond e now → Story w e outcome [] [.processed e outcome, .lost e now]
  | lostLater {now} : w.Beyond e now → Story w e outcome [] [.processed e outcome, .settled e outcome, .lost e now]

end Worker

open Worker

variable {σ ρ ε α : Type}

/-- A pool within its permits, whose dispatches each have their story. -/
structure Pool.InOrder (w : Worker σ ρ ε α) (p : Pool σ ρ ε α) : Prop where
  bounded : (inAir p.flights).length ≤ w.concurrency
  /-- What claims handed out was started in order, but for what still waits for its permit. -/
  started : p.flights.map (·.entry) ++ p.phase.waiting = p.claimed
  stories : ∀ {place f}, p.flights[place]? = some f → ∃ outcome : Except ε α,
    w.Story f.entry outcome (f.steps.map (·.2)) (storyAt place p.told)
  silent : ∀ {place}, p.flights.length ≤ place → storyAt place p.told = []
  sorted : ∀ f ∈ p.flights, Sorted f

section

variable {told : List (Nat × DispatchEvent ε α)} {events : List (DispatchEvent ε α)} {n place : Nat}

theorem storyAt_tellAt_self : storyAt place (tellAt place events told) = storyAt place told ++ events := by
  simp [storyAt, tellAt, List.filter_map, Function.comp_def]

theorem storyAt_tellAt_ne (ne : place ≠ n) : storyAt place (tellAt n events told) = storyAt place told := by
  have other : (n == place) = false := beq_false_of_ne ne.symm
  simp [storyAt, tellAt, List.filter_map, Function.comp_def, other]

theorem getElem?_between {β : Type} (before after : List β) (x : β) :
    (before ++ x :: after)[before.length]? = some x := by
  rw [List.getElem?_append_right (Nat.le_refl _), Nat.sub_self, List.getElem?_cons_zero]

theorem getElem?_replaced {β : Type} {before after : List β} {x y : β} {i : Nat} (ne : i ≠ before.length) :
    (before ++ x :: after)[i]? = (before ++ y :: after)[i]? := by
  rcases Nat.lt_or_gt_of_ne ne with lt | gt
  · rw [List.getElem?_append_left lt, List.getElem?_append_left lt]
  · obtain ⟨k, rfl⟩ := Nat.exists_eq_add_of_lt gt
    rw [List.getElem?_append_right (Nat.le_of_lt gt), List.getElem?_append_right (Nat.le_of_lt gt)]
    have behind : before.length + k + 1 - before.length = k + 1 := by omega
    rw [behind, List.getElem?_cons_succ, List.getElem?_cons_succ]

end

namespace Worker

variable {w : Worker σ ρ ε α} {p p' : Pool σ ρ ε α}

/-- A step goes on with the story of its dispatch. -/
theorem Story.step {e : StoredEntry} {outcome : Except ε α} {step : FlightStep (World σ ρ) ε α}
    {rest : List (FlightStep (World σ ρ) ε α)} {events : List (DispatchEvent ε α)} {t : Instant} {goesOn : Bool}
    (h : w.Story e outcome (step :: rest) events) (stops : goesOn = false → step = .renew ∧ w.Beyond e t) :
    w.Story e outcome (if goesOn then rest else []) (events ++ eventsOf e t goesOn step) := by
  have steady (ne : step ≠ .renew) : goesOn = true := eq_true_of_ne_false fun stopped => ne (stops stopped).1
  cases h with
  | processed ahead =>
    cases ahead with
    | mark ahead =>
      rw [steady nofun]
      exact .processed ahead
    | renew _ ahead =>
      cases goesOn with
      | true => exact .processed ahead
      | false => exact .lost (stops rfl).2
    | settle ahead =>
      rw [steady nofun]
      exact .settled ahead
  | settled ahead =>
    cases ahead with
    | mark ahead =>
      rw [steady nofun]
      exact .settled ahead
    | renew _ ahead =>
      cases goesOn with
      | true => exact .settled ahead
      | false => exact .lostLater (stops rfl).2
    | finish ahead =>
      rw [steady nofun]
      exact .finished ahead
  | finished ahead =>
    cases ahead with
    | mark ahead =>
      rw [steady nofun]
      exact .finished ahead
    | renew closed _ => exact absurd rfl closed

/-- A dispatch goes on after each of its steps, but for a renewal that the calendar does not reach. -/
theorem perform_stops {e : StoredEntry} {step : FlightStep (World σ ρ) ε α} {world world' : World σ ρ}
    (done : w.perform e step world = (false, world')) : step = .renew ∧ w.Beyond e world.now := by
  cases step with
  | renew =>
    refine ⟨rfl, world.queue, ?_⟩
    rw [perform, World.onQueue, Act.on_zoom] at done
    have stopped := (Prod.mk.inj done).1
    rw [Bool.not_eq_false'] at stopped
    split at stopped
    · assumption
    · cases stopped
  | mark | finish => cases (Prod.mk.inj done).1
  | settle outcome => cases outcome <;> cases (Prod.mk.inj done).1

theorem length_inAir_step {before after : List (Flight (World σ ρ) ε α)} {f g : Flight (World σ ρ) ε α}
    (going : f.steps ≠ []) : (inAir (before ++ g :: after)).length ≤ (inAir (before ++ f :: after)).length := by
  have counted : f.steps.isEmpty = false := List.isEmpty_eq_false_iff.mpr going
  simp only [inAir, List.filter_append, List.length_append, List.filter_cons, counted, Bool.not_false, if_true]
  split
  · exact Nat.le_refl _
  · exact Nat.add_le_add_left (Nat.le_succ _) _

theorem sorted_step {before after : List (Flight (World σ ρ) ε α)} {e : StoredEntry}
    {next : Instant × FlightStep (World σ ρ) ε α} {rest : List (Instant × FlightStep (World σ ρ) ε α)}
    (sorted : ∀ f ∈ before ++ ⟨e, next :: rest⟩ :: after, Sorted f) (goesOn : Bool) :
    ∀ f ∈ before ++ ⟨e, if goesOn then rest else []⟩ :: after, Sorted f := by
  intro f mem
  rcases List.mem_append.mp mem with mem | mem
  · exact sorted f (List.mem_append_left _ mem)
  · rcases List.mem_cons.mp mem with rfl | mem
    · have whole : Sorted (⟨e, next :: rest⟩ : Flight (World σ ρ) ε α) :=
        sorted _ (List.mem_append_right _ List.mem_cons_self)
      cases goesOn
      · exact .nil
      · exact (List.pairwise_cons.mp whole).2
    · exact sorted f (List.mem_append_right _ (List.mem_cons_of_mem _ mem))

/-- A step of a dispatch keeps a pool in order. -/
theorem inOrder_step {before after : List (Flight (World σ ρ) ε α)} {e : StoredEntry} {t : Instant}
    {step : FlightStep (World σ ρ) ε α} {rest : List (Instant × FlightStep (World σ ρ) ε α)} {goesOn : Bool}
    {world : World σ ρ} (order : p.InOrder w) (flights : p.flights = before ++ ⟨e, (t, step) :: rest⟩ :: after)
    (done : w.perform e step { p.world with now := t } = (goesOn, world)) :
    Pool.InOrder w
      { p with
        world
        flights := before ++ ⟨e, if goesOn then rest else []⟩ :: after
        told := tellAt before.length (eventsOf e t goesOn step) p.told } := by
  have bounded := order.bounded
  have started := order.started
  have inside : before.length < p.flights.length := by
    rw [flights]
    simp
  rw [flights] at bounded started
  refine ⟨Nat.le_trans (length_inAir_step (List.cons_ne_nil _ _)) bounded, ?_, ?_, ?_, ?_⟩
  · rw [← started, List.map_append, List.map_append]
    rfl
  · intro place f at_
    by_cases same : place = before.length
    · subst same
      obtain ⟨outcome, story⟩ := order.stories (by rw [flights, getElem?_between])
      rw [getElem?_between] at at_
      cases at_
      have stops : goesOn = false → step = .renew ∧ w.Beyond e t := by
        rintro rfl
        exact perform_stops done
      have next := story.step stops
      rw [storyAt_tellAt_self]
      cases goesOn <;> exact ⟨outcome, next⟩
    · rw [storyAt_tellAt_ne same]
      refine order.stories ?_
      rw [flights, ← at_]
      exact getElem?_replaced same
  · intro place le
    have le : p.flights.length ≤ place := by
      rw [flights]
      simpa using le
    rw [storyAt_tellAt_ne (Nat.ne_of_gt (Nat.lt_of_lt_of_le inside le))]
    exact order.silent le
  · have sorted := order.sorted
    rw [flights] at sorted
    exact sorted_step sorted goesOn

/-- Starting what waits first for a permit keeps a pool in order. -/
theorem inOrder_launch {e : StoredEntry} {entries : List StoredEntry} {course : Course (World σ ρ) ε α}
    {start : Instant} {world : World σ ρ} (order : p.InOrder w) (launching : p.phase = .launching (e :: entries))
    (free : (inAir p.flights).length < w.concurrency) :
    Pool.InOrder w
      { p with
        world
        flights := p.flights ++ [⟨e, w.stepsOf start course⟩]
        phase := .launching entries
        told := tellAt p.flights.length [.processed e course.outcome] p.told } := by
  have started := order.started
  rw [launching] at started
  refine ⟨?_, ?_, ?_, ?_, ?_⟩
  · show (inAir (p.flights ++ [_])).length ≤ w.concurrency
    rw [inAir, List.filter_append, List.length_append]
    have one := List.length_filter_le (fun f : Flight (World σ ρ) ε α => !f.steps.isEmpty) [⟨e, w.stepsOf start course⟩]
    exact Nat.le_trans (Nat.add_le_add_left one _) free
  · rw [← started, List.map_append, List.append_assoc]
    rfl
  · intro place f at_
    by_cases same : place = p.flights.length
    · subst same
      have new : (p.flights ++ [_])[p.flights.length]? = some f := at_
      rw [getElem?_between] at new
      cases new
      rw [storyAt_tellAt_self, order.silent (Nat.le_refl _)]
      exact ⟨course.outcome, .processed (ahead_stepsOf w start course)⟩
    · rw [storyAt_tellAt_ne same]
      have old : (p.flights ++ [_])[place]? = some f := at_
      rcases Nat.lt_or_gt_of_ne same with lt | gt
      · rw [List.getElem?_append_left lt] at old
        exact order.stories old
      · rw [List.getElem?_eq_none (by rwa [List.length_append])] at old
        cases old
  · intro place le
    have lt : p.flights.length < place := by
      rwa [List.length_append] at le
    rw [storyAt_tellAt_ne (Nat.ne_of_gt lt)]
    exact order.silent (Nat.le_of_lt lt)
  · intro f mem
    rcases List.mem_append.mp mem with mem | mem
    · exact order.sorted f mem
    · rw [List.mem_singleton.mp mem]
      exact pairwise_stepsOf w start course

/-- Every turn keeps a pool in order. -/
theorem Turn.inOrder (positive : 0 < w.renewEvery) (h : w.Turn p p') (order : p.InOrder w) : p'.InOrder w := by
  -- a change of the phase keeps what waits for its permit
  have started := order.started
  cases h with
  | wait | gauge => exact ⟨order.bounded, order.started, order.stories, order.silent, order.sorted⟩
  | step flights done => exact inOrder_step order flights done
  | count idle free =>
    rw [idle] at started
    exact ⟨order.bounded, started, order.stories, order.silent, order.sorted⟩
  | @claim permits out queue counted on =>
    rw [counted] at started
    refine ⟨order.bounded, ?_, order.stories, order.silent, order.sorted⟩
    rw [← started, List.append_assoc]
    rfl
  | claimFails counted on =>
    rw [counted] at started
    exact ⟨order.bounded, started, order.stories, order.silent, order.sorted⟩
  | launch launching free _ _ => exact inOrder_launch order launching free
  | spoil _ _ zero => exact absurd zero (Nat.ne_of_gt positive)
  | polled launching =>
    rw [launching] at started
    exact ⟨order.bounded, started, order.stories, order.silent, order.sorted⟩

theorem Reached.inOrder (positive : 0 < w.renewEvery) (h : w.Reached p) : p.InOrder w := by
  obtain ⟨world, turns⟩ := h
  induction turns with
  | refl => exact ⟨Nat.zero_le _, rfl, nofun, fun _ => rfl, nofun⟩
  | tail _ happens order =>
    cases happens with
    | turn turn => exact turn.inOrder positive order
    | others world => exact ⟨order.bounded, order.started, order.stories, order.silent, order.sorted⟩

end Worker

end Timetable
