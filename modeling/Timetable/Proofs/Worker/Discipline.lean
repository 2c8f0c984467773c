import Timetable.Proofs.Act
import Timetable.Proofs.Worker.SideBySide

/-!
# The discipline of a worker

A worker polls, waits and drains, while others change the world. Whatever it does are turns of its pool
(`Worker.Disciplined.turns`): between two polls the flights of its airspace are the dispatches of the pool that are in
the air, and what the polls claimed is what the pool claimed. So the order of the pool is an order of the worker: no
more dispatches than permits, each with its story, and all of them over once the worker is drained or returns
(`Worker.Disciplined.of_limited`).

The last holds for fewer than `2 ^ 32` permits only, and a dispatch is over without being finished where the calendar
does not reach the lease that it renews.
-/

namespace Timetable

/-- A queue hands out no more entries than it is asked for. -/
def WorkQueue.Limited {σ : Type} (q : WorkQueue σ) : Prop :=
  ∀ {now limit s out s'}, (q.claimDue now limit).on s = (.ok out, s') → out.length ≤ limit

variable {σ ρ ε α : Type}

open Worker

/-- A pool shows an airspace: no poll is under way, and the dispatches in the air are its flights. -/
structure Pool.Shows (p : Pool σ ρ ε α) (a : Airspace σ ρ ε α) : Prop where
  idle : p.phase = .idle
  world : p.world = a.world
  flights : inAir p.flights = a.flights

/-- Every entry that was claimed had its dispatch, which is over. -/
structure Pool.AllOver (w : Worker σ ρ ε α) (p : Pool σ ρ ε α) : Prop where
  landed : inAir p.flights = []
  ended : ∀ {place e}, p.claimed[place]? = some e → ∃ outcome,
    storyAt place p.told = [.processed e outcome, .settled e outcome, .finished e] ∨
      ∃ now, w.Beyond e now ∧ (storyAt place p.told = [.processed e outcome, .lost e now] ∨
        storyAt place p.told = [.processed e outcome, .settled e outcome, .lost e now])

namespace Worker

variable {w : Worker σ ρ ε α} {p : Pool σ ρ ε α} {a a' : Airspace σ ρ ε α}

/-- What a poll claims. -/
def taken (w : Worker σ ρ ε α) (a : Airspace σ ρ ε α) : List StoredEntry :=
  let available := w.concurrency - a.flights.length
  if available = 0 then []
  else
    match ((w.queue.claimDue a.world.now available).on a.world.queue).1 with
    | .ok entries => entries
    | .error _ => []

/-- What is done with a worker, with what is claimed in it. -/
inductive Use (w : Worker σ ρ ε α) : Airspace σ ρ ε α → List StoredEntry → Airspace σ ρ ε α → Prop
  | poll {a : Airspace σ ρ ε α} : Use w a (w.taken a) (w.poll a).2
  | advance {a : Airspace σ ρ ε α} (until_ : Instant) : Use w a [] (w.advance until_ a)
  | drain {a : Airspace σ ρ ε α} : Use w a [] (w.drain a)

/-- What a worker keeps to. -/
structure Disciplined (w : Worker σ ρ ε α) : Prop where
  /-- No more dispatches are in the air than there are permits, and each has its story. -/
  inOrder : ∀ {p}, w.Reached p → p.InOrder w
  /-- What is done with the worker are turns of its pool. -/
  turns : ∀ {p a entries a'}, w.Reached p → p.Shows a → w.Use a entries a' →
    ∃ p', Relation.ReflTransGen w.Turn p p' ∧ p'.Shows a' ∧ p'.claimed = p.claimed ++ entries
  /-- A drained worker waited for all its dispatches. -/
  drained : ∀ {p a}, w.concurrency < 4294967296 → w.Reached p → p.Shows a →
    ∃ p', Relation.ReflTransGen w.Turn p p' ∧ p'.Shows (w.drain a) ∧ p'.claimed = p.claimed ∧ p'.AllOver w
  /-- So did a worker that returns after it was stopped. -/
  stopped : ∀ {pollEvery millis world world'}, w.concurrency < 4294967296 →
    (w.run pollEvery millis).on world = (.ok (), world') →
    ∃ p, Relation.ReflTransGen w.Turn { world } p ∧ p.Shows ⟨world', []⟩ ∧ p.AllOver w

/-! ## Moves are turns -/

variable {due : Instant → Bool} {flights : List (Flight (World σ ρ) ε α)} {f : Flight (World σ ρ) ε α}

theorem inAir_append (l m : List (Flight (World σ ρ) ε α)) : inAir (l ++ m) = inAir l ++ inAir m :=
  List.filter_append ..

/-- What is in the air between others is a flight between others. -/
theorem exists_of_inAir {front back : List (Flight (World σ ρ) ε α)} (air : inAir flights = front ++ f :: back) :
    ∃ before after, flights = before ++ f :: after ∧ inAir before = front ∧ inAir after = back := by
  obtain ⟨l, m, rfl, left, rest⟩ := List.filter_eq_append_iff.mp air
  obtain ⟨m₁, m₂, rfl, landed, _, right⟩ := List.filter_eq_cons_iff.mp rest
  have none : inAir m₁ = [] := List.filter_eq_nil_iff.mpr landed
  refine ⟨l ++ m₁, m₂, (List.append_assoc ..).symm, ?_, right⟩
  rw [inAir_append, none, List.append_nil]
  exact left

/-- A pool holds an airspace in a phase of a poll: behind some other dispatches in the air come its flights. -/
structure Holds (p : Pool σ ρ ε α) (phase : PollPhase) (claimed : List StoredEntry)
    (ahead : List (Flight (World σ ρ) ε α)) (a : Airspace σ ρ ε α) : Prop where
  phase : p.phase = phase
  claimed : p.claimed = claimed
  world : p.world = a.world
  flights : inAir p.flights = ahead ++ inAir a.flights

variable {phase : PollPhase} {claimed : List StoredEntry} {ahead : List (Flight (World σ ρ) ε α)}

theorem Holds.move (h : Holds p phase claimed ahead a) (move : w.Move a a') :
    ∃ p', w.Turn p p' ∧ Holds p' phase claimed ahead a' := by
  cases move with
  | @step world before after e t step rest goesOn world' first done =>
    have air := h.flights
    rw [inAir_append, show inAir (⟨e, (t, step) :: rest⟩ :: after) = ⟨e, (t, step) :: rest⟩ :: inAir after from rfl,
      ← List.append_assoc] at air
    obtain ⟨front, back, flights, before_, after_⟩ := exists_of_inAir air
    rw [← show p.world = world from h.world] at done
    refine ⟨_, .step flights done, h.phase, h.claimed, rfl, ?_⟩
    show inAir (front ++ ([_] ++ back)) = ahead ++ inAir (before ++ ([_] ++ after))
    rw [inAir_append, inAir_append, inAir_append, inAir_append, before_, after_, List.append_assoc]

theorem Holds.moves (h : Holds p phase claimed ahead a) (moves : Relation.ReflTransGen w.Move a a') :
    ∃ p', Relation.ReflTransGen w.Turn p p' ∧ Holds p' phase claimed ahead a' := by
  induction moves with
  | refl => exact ⟨p, .refl, h⟩
  | tail _ move ih =>
    obtain ⟨p₁, turns, h⟩ := ih
    obtain ⟨p₂, turn, h⟩ := h.move move
    exact ⟨p₂, turns.tail turn, h⟩

/-! ## What a worker does are turns -/

theorem Orderly.inAir_flights (orderly : Orderly a) : inAir a.flights = a.flights := by
  refine List.filter_eq_self.mpr fun f mem => ?_
  rw [Bool.not_eq_true', List.isEmpty_eq_false_iff]
  exact (orderly f mem).2

/-- From a pool one comes about that holds an airspace, all flights of which are in the air, in order. -/
structure Leads (w : Worker σ ρ ε α) (p : Pool σ ρ ε α) (phase : PollPhase) (claimed : List StoredEntry)
    (ahead : List (Flight (World σ ρ) ε α)) (a : Airspace σ ρ ε α) : Prop where
  orderly : Orderly a
  pool : ∃ p', Relation.ReflTransGen w.Turn p p' ∧ Holds p' phase claimed ahead a

theorem closed_lt (t : Instant) : Closed fun u => decide (u < t) := by
  intro u v le earlier
  exact decide_eq_true (lt_of_le_of_lt le (of_decide_eq_true earlier))

theorem closed_le (t : Instant) : Closed fun u => decide (u ≤ t) := by
  intro u v le earlier
  exact decide_eq_true (le_trans le (of_decide_eq_true earlier))

theorem Leads.advanceWhile (closed : Closed due) (h : w.Leads p phase claimed ahead a) :
    w.Leads p phase claimed ahead (w.advanceWhile due a) := by
  obtain ⟨orderly, p₁, turns, holds⟩ := h
  obtain ⟨flights, moves, left⟩ := advanceWhile_moves w closed fun f mem => (orderly f mem).1
  obtain ⟨p₂, more, holds⟩ := holds.moves moves
  refine ⟨orderly.advanceWhile, p₂, turns.trans more, holds.phase, holds.claimed, holds.world, ?_⟩
  rw [orderly.advanceWhile.inAir_flights, ← left]
  exact holds.flights

theorem Leads.wait (h : w.Leads p phase claimed ahead a) (now : Instant) :
    w.Leads p phase claimed ahead { a with world := { a.world with now } } := by
  obtain ⟨orderly, p₁, turns, holds⟩ := h
  exact ⟨orderly, _, turns.tail (.wait now), holds.phase, holds.claimed, by rw [holds.world], holds.flights⟩

theorem Leads.advance (until_ : Instant) (h : w.Leads p phase claimed ahead a) :
    w.Leads p phase claimed ahead (w.advance until_ a) :=
  (h.advanceWhile (closed_lt until_)).wait until_

theorem Leads.advanceUntil (most : Nat) (times : List Instant) (h : w.Leads p phase claimed ahead a) :
    w.Leads p phase claimed ahead (w.advanceUntil most times a) := by
  induction times generalizing a with
  | nil => exact h
  | cons t times ih =>
    rw [Worker.advanceUntil]
    split
    · exact h
    · exact ih (h.advanceWhile (closed_le t))

theorem Leads.drain (h : w.Leads p phase claimed ahead a) : w.Leads p phase claimed ahead (w.drain a) :=
  h.advanceUntil _ _

/-! ### Polls -/

theorem length_advanceWhile_le : (w.advanceWhile due a).flights.length ≤ a.flights.length := by
  show (leftOver a.flights _ due).length ≤ _
  rw [leftOver_eq]
  refine Nat.le_trans (List.length_filter_le ..) ?_
  rw [List.length_mapIdx]

theorem length_launch_le (e : StoredEntry) : (w.launch a e).flights.length ≤ a.flights.length + 1 := by
  unfold launch
  split
  · exact Nat.le_succ _
  · rw [List.length_append]
    exact Nat.add_le_add_left length_advanceWhile_le _

theorem stepsOf_ne_nil (start : Instant) (c : Course (World σ ρ) ε α) : w.stepsOf start c ≠ [] :=
  List.ne_nil_of_mem (finish_mem_stepsOf w start c)

theorem Leads.launch {e : StoredEntry} {entries : List StoredEntry}
    (h : w.Leads p (.launching (e :: entries)) claimed [] a) (free : a.flights.length < w.concurrency) :
    w.Leads p (.launching entries) claimed [] (w.launch a e) := by
  obtain ⟨orderly, p₁, turns, holds⟩ := h
  have air : inAir p₁.flights = a.flights := holds.flights.trans orderly.inAir_flights
  have permit : (inAir p₁.flights).length < w.concurrency := by rwa [air]
  unfold Worker.launch
  split
  · next zero =>
    refine ⟨orderly, _, turns.tail (.spoil holds.phase permit zero), rfl, holds.claimed, holds.world, ?_⟩
    show inAir (p₁.flights ++ [_]) = _
    rw [inAir_append, holds.flights]
    exact List.append_nil _
  · next positive =>
    cases started : w.handler.start e a.world with
    | mk course world =>
      rw [← holds.world] at started
      let begun : Airspace σ ρ ε α := ⟨world, [⟨e, w.stepsOf a.world.now course⟩]⟩
      have launched : w.Leads p (.launching entries) claimed a.flights begun := by
        refine ⟨?_, _, turns.tail (.launch holds.phase permit positive started), rfl, holds.claimed, rfl, ?_⟩
        · intro f mem
          rw [List.mem_singleton.mp mem]
          exact ⟨pairwise_stepsOf w _ course, stepsOf_ne_nil _ course⟩
        · show inAir (p₁.flights ++ [_]) = _
          rw [inAir_append, air, holds.world]
      obtain ⟨orderly', p₂, turns, holds⟩ := launched.advanceWhile (closed_le a.world.now)
      refine ⟨?_, p₂, turns, holds.phase, holds.claimed, holds.world, ?_⟩
      · intro f mem
        exact (List.mem_append.mp mem).elim (orderly f) (orderly' f)
      · rw [holds.flights, inAir_append, orderly.inAir_flights]
        rfl

theorem Leads.launches {entries : List StoredEntry} (h : w.Leads p (.launching entries) claimed [] a)
    (few : a.flights.length + entries.length ≤ w.concurrency) :
    w.Leads p (.launching []) claimed [] (entries.foldl w.launch a) := by
  induction entries generalizing a with
  | nil => exact h
  | cons e entries ih =>
    rw [List.length_cons] at few
    have one := length_launch_le (w := w) (a := a) e
    exact ih (h.launch (by omega)) (by omega)

section

variable {entries : List StoredEntry} {queue : σ}

theorem onQueue_claimDue {result : Except QueueError (List StoredEntry)} {limit : Nat}
    (claim : (w.queue.claimDue a.world.now limit).on a.world.queue = (result, queue)) :
    (World.onQueue (w.queue.claimDue a.world.now limit)).on a.world = (result, a.world.putQueue queue) := by
  rw [World.onQueue, Act.on_zoom, claim]

/-- A poll that claims something starts it. -/
theorem poll_of_claim (free : a.flights.length < w.concurrency)
    (claim : (w.queue.claimDue a.world.now (w.concurrency - a.flights.length)).on a.world.queue =
      (.ok entries, queue)) :
    (w.poll a).2 = entries.foldl w.launch { a with world := w.gauge (a.world.putQueue queue) } ∧
      w.taken a = entries := by
  have some : w.concurrency - a.flights.length ≠ 0 := Nat.sub_ne_zero_of_lt free
  simp only [poll, taken, if_neg some, onQueue_claimDue claim, claim, true_and]

theorem poll_of_failure {e : QueueError} (free : a.flights.length < w.concurrency)
    (claim : (w.queue.claimDue a.world.now (w.concurrency - a.flights.length)).on a.world.queue =
      (.error e, queue)) :
    (w.poll a).2 = { a with world := a.world.putQueue queue } ∧ w.taken a = [] := by
  have some : w.concurrency - a.flights.length ≠ 0 := Nat.sub_ne_zero_of_lt free
  simp only [poll, taken, if_neg some, onQueue_claimDue claim, claim, true_and]

end

theorem Leads.poll (limited : w.queue.Limited) (h : w.Leads p .idle claimed [] a) :
    w.Leads p .idle (claimed ++ w.taken a) [] (w.poll a).2 := by
  by_cases none : w.concurrency - a.flights.length = 0
  · rw [show w.poll a = (.ok 0, a) from if_pos none, show w.taken a = [] from if_pos none, List.append_nil]
    exact h
  obtain ⟨orderly, p₁, turns, holds⟩ := h
  have air : inAir p₁.flights = a.flights := holds.flights.trans orderly.inAir_flights
  have free : a.flights.length < w.concurrency := Nat.lt_of_sub_ne_zero none
  have counted := turns.tail (.count holds.phase (air ▸ free))
  cases claim : (w.queue.claimDue a.world.now (w.concurrency - a.flights.length)).on a.world.queue with
  | mk result queue =>
    have asked := claim
    rw [← holds.world, ← air] at asked
    cases result with
    | error e =>
      obtain ⟨polled, taken⟩ := poll_of_failure free claim
      rw [polled, taken, List.append_nil]
      refine ⟨orderly, _, counted.tail (.claimFails rfl asked), rfl, holds.claimed, ?_, holds.flights⟩
      show p₁.world.putQueue queue = _
      rw [holds.world]
    | ok entries =>
      obtain ⟨polled, taken⟩ := poll_of_claim free claim
      have launching : w.Leads p (.launching entries) (claimed ++ entries) []
          { a with world := w.gauge (a.world.putQueue queue) } := by
        refine ⟨orderly, _, (counted.tail (.claim rfl asked)).tail .gauge, rfl, ?_, ?_, holds.flights⟩
        · show p₁.claimed ++ entries = _
          rw [holds.claimed]
        · show w.gauge (p₁.world.putQueue queue) = _
          rw [holds.world]
      have few : a.flights.length + entries.length ≤ w.concurrency := by
        have limit := limited claim
        omega
      obtain ⟨orderly, p₂, turns, holds⟩ := launching.launches few
      rw [polled, taken]
      exact ⟨orderly, _, turns.tail (.polled holds.phase), rfl, holds.claimed, holds.world, holds.flights⟩

/-! ### Runs -/

theorem Leads.pollEach (limited : w.queue.Limited) (start : Instant) (times : List Nat)
    (h : w.Leads p .idle claimed [] a) : ∃ claimed', w.Leads p .idle claimed' [] (w.pollEach start times a).2 := by
  induction times generalizing a claimed with
  | nil => exact ⟨claimed, h⟩
  | cons ms times ih =>
    have polled := (h.advance (start.plusMillis ms)).poll limited
    rw [Worker.pollEach]
    split
    · next poll =>
      rw [poll] at polled
      exact ⟨_, polled⟩
    · next _ poll =>
      rw [poll] at polled
      exact ih polled

/-- A worker that returns polled until it was stopped, and drained. -/
theorem run_eq_ok {pollEvery millis : Nat} {world world' : World σ ρ}
    (ran : (w.run pollEvery millis).on world = (.ok (), world')) :
    ∃ a, w.pollEach world.now (ticks pollEvery millis) { world } = (.ok (), a) ∧
      world' = (w.drain (w.advance (world.now.plusMillis millis) a)).world := by
  obtain ⟨_, begun, began, after⟩ := Act.on_bind_eq_ok.mp ran
  have same : begun = world := by
    unfold begin at began
    split at began
    · cases began
    · exact (Prod.mk.inj began).2.symm
  subst same
  dsimp only at after
  split at after
  · obtain ⟨_, _, thrown, _⟩ := Act.on_bind_eq_ok.mp after
    cases thrown
  · rw [Act.on_of] at after
    split at after
    · next a polled =>
      exact ⟨a, polled, (Prod.mk.inj after).2.symm⟩
    · cases (Prod.mk.inj after).1

/-! ## Drained workers -/

/-- A worker that lets pass one after the other the times of all steps that are left leaves so few flights. -/
theorem length_advanceUntil_le {most : Nat} {times : List Instant} (orderly : Orderly a)
    (known : ∀ f ∈ a.flights, ∀ s ∈ f.steps, s.1 ∈ times) : (w.advanceUntil most times a).flights.length ≤ most := by
  induction times generalizing a with
  | nil =>
    have none : a.flights = [] := by
      refine List.eq_nil_iff_forall_not_mem.mpr fun f mem => ?_
      obtain ⟨s, steps⟩ := List.exists_mem_of_ne_nil _ (orderly f mem).2
      cases known f mem s steps
    rw [advanceUntil, none]
    exact Nat.zero_le _
  | cons t times ih =>
    rw [advanceUntil]
    split
    · assumption
    · refine ih orderly.advanceWhile fun f mem s left => ?_
      obtain ⟨g, mem, steps, _⟩ := mem_advanceWhile mem
      rw [steps] at left
      have later := not_due_of_mem_dropWhile (closed_le t) (orderly g mem).1 left
      rcases List.mem_cons.mp (known g mem s ((List.dropWhile_sublist _).mem left)) with rfl | mem
      · exact absurd le_rfl (of_decide_eq_false later)
      · exact mem

theorem length_drain_le (orderly : Orderly a) : (w.drain a).flights.length ≤ w.unawaited := by
  refine length_advanceUntil_le orderly fun f mem s step => List.mem_mergeSort.mpr ?_
  exact List.mem_flatMap.mpr ⟨f, mem, List.mem_map_of_mem step⟩

/-- What a worker does not wait for is left where it was. -/
theorem drain_of_few (few : a.flights.length ≤ w.unawaited) : w.drain a = a := by
  unfold drain
  cases timesOf a.flights with
  | nil => rfl
  | cons t times => rw [advanceUntil, if_pos few]

/-- Nothing is left of a worker that is drained, if it counts its permits. -/
theorem drain_flights (orderly : Orderly a) (counted : w.concurrency < 4294967296) : (w.drain a).flights = [] := by
  have few := length_drain_le (w := w) orderly
  rw [unawaited, Nat.mod_eq_of_lt counted, Nat.sub_self] at few
  exact List.eq_nil_of_length_eq_zero (Nat.le_zero.mp few)

/-! ## Order -/

theorem Reached.turns {p' : Pool σ ρ ε α} (h : w.Reached p) (turns : Relation.ReflTransGen w.Turn p p') :
    w.Reached p' := by
  obtain ⟨world, before⟩ := h
  exact ⟨world, before.trans (turns.lift id fun _ _ => .turn)⟩

/-- A dispatch of which no step is left finished, unless the calendar did not reach a lease that it renewed. -/
theorem Story.ended {e : StoredEntry} {outcome : Except ε α} {events : List (DispatchEvent ε α)}
    (h : w.Story e outcome [] events) :
    events = [.processed e outcome, .settled e outcome, .finished e] ∨
      ∃ now, w.Beyond e now ∧ (events = [.processed e outcome, .lost e now] ∨
        events = [.processed e outcome, .settled e outcome, .lost e now]) := by
  cases h with
  | processed ahead | settled ahead => cases ahead
  | finished => exact .inl rfl
  | lost late => exact .inr ⟨_, late, .inl rfl⟩
  | lostLater late => exact .inr ⟨_, late, .inr rfl⟩

end Worker

section

variable {w : Worker σ ρ ε α} {p : Pool σ ρ ε α} {a : Airspace σ ρ ε α} {claimed : List StoredEntry}

theorem Pool.InOrder.allOver (order : p.InOrder w) (idle : p.phase = .idle) (landed : inAir p.flights = []) :
    p.AllOver w := by
  refine ⟨landed, fun {place e} at_ => ?_⟩
  have started : p.flights.map (·.entry) ++ PollPhase.idle.waiting = p.claimed := idle ▸ order.started
  rw [← started, show PollPhase.idle.waiting = [] from rfl, List.append_nil, List.getElem?_map,
    Option.map_eq_some_iff] at at_
  obtain ⟨f, at_, rfl⟩ := at_
  obtain ⟨outcome, story⟩ := order.stories at_
  have none : f.steps = [] := by
    by_contra left
    have flying := mem_inAir.mpr ⟨List.mem_of_getElem? at_, left⟩
    rw [landed] at flying
    cases flying
  rw [none] at story
  exact ⟨outcome, story.ended⟩

theorem Pool.Shows.orderly (shows : p.Shows a) (order : p.InOrder w) : Orderly a := by
  intro f mem
  rw [← shows.flights, mem_inAir] at mem
  exact ⟨order.sorted f mem.1, mem.2⟩

theorem Pool.Shows.leads (shows : p.Shows a) (order : p.InOrder w) : w.Leads p .idle p.claimed [] a := by
  have orderly := shows.orderly order
  refine ⟨orderly, p, .refl, shows.idle, rfl, shows.world, ?_⟩
  rw [shows.flights, orderly.inAir_flights]
  rfl

theorem Worker.Leads.shows (h : w.Leads p .idle claimed [] a) :
    ∃ p', Relation.ReflTransGen w.Turn p p' ∧ p'.Shows a ∧ p'.claimed = claimed := by
  obtain ⟨orderly, p', turns, holds⟩ := h
  exact ⟨p', turns, ⟨holds.phase, holds.world, holds.flights.trans orderly.inAir_flights⟩, holds.claimed⟩

/-- A worker that pauses between renewals, at a queue that does not hand out more than it is asked for. -/
theorem Worker.Disciplined.of_limited (positive : 0 < w.renewEvery) (limited : w.queue.Limited) : w.Disciplined where
  inOrder reached := reached.inOrder positive
  turns {p a entries a'} reached shows use := by
    have leads := shows.leads (reached.inOrder positive)
    cases use with
    | poll => exact (leads.poll limited).shows
    | advance until_ =>
      rw [List.append_nil]
      exact (leads.advance until_).shows
    | drain =>
      rw [List.append_nil]
      exact leads.drain.shows
  drained {p a} counted reached shows := by
    have order := reached.inOrder positive
    obtain ⟨p', turns, shows', same⟩ := (shows.leads order).drain.shows
    have landed := shows'.flights.trans (drain_flights (shows.orderly order) counted)
    exact ⟨p', turns, shows', same, ((reached.turns turns).inOrder positive).allOver shows'.idle landed⟩
  stopped {pollEvery millis world world'} counted ran := by
    obtain ⟨a, polled, rfl⟩ := run_eq_ok ran
    have start : w.Leads { world } .idle [] [] { world } := ⟨nofun, _, .refl, rfl, rfl, rfl, rfl⟩
    obtain ⟨claimed, leads⟩ := start.pollEach limited world.now (ticks pollEvery millis)
    rw [polled] at leads
    have waited := leads.advance (world.now.plusMillis millis)
    have none := drain_flights waited.orderly counted
    obtain ⟨p, turns, shows, _⟩ := waited.drain.shows
    have reached : w.Reached p := .turns ⟨world, .refl⟩ turns
    have landed := shows.flights.trans none
    exact ⟨p, turns, ⟨shows.idle, shows.world, landed⟩, (reached.inOrder positive).allOver shows.idle landed⟩

end

end Timetable
