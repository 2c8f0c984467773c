import Mathlib.Data.List.Chain
import Timetable.Execution.Run

/-!
# Which functions are called, and what is kept of it

A call succeeds if a code from 200 to 299 came (`Reply.Succeeds`). Of a run, whatever answers its calls and however
long that takes:
1. one after the other, the functions are called in order up to and with the first whose call fails, and all of them
   if none does (`callInTurn_inTurn`);
2. at once, every function is called and none waits for another (`callAtOnce_atOnce`);
3. either way the results stand in the order of the functions, each with the name of its own function and what came of
   its own call (`FunctionRun.Answered`), however long the calls take and whichever ends first (`results_congr`);
4. the execution is finished exactly if every function was called and its call succeeded.

`functions_answered_in_order` puts these together.
-/

namespace Timetable

/-! ## Replies -/

namespace Reply

variable {r r' : Reply} {functionId : String}

/-- A code from 200 to 299 came. -/
def Succeeds (r : Reply) : Prop := ∃ code, r.outcome = .ok (some code) ∧ 200 ≤ code ∧ code ≤ 299

theorem functionId_result : (r.result functionId).functionId = functionId := by
  unfold result
  split <;> rfl

theorem isFailure_result : (r.result functionId).isFailure = false ↔ r.Succeeds := by
  obtain ⟨takes, outcome⟩ := r
  rcases outcome with error | code | code
  · simp [result, CallResult.failed, CallResult.isFailure, Succeeds]
  · simp [result, CallResult.completed, CallResult.isFailure, isSuccessCode, Succeeds]
  · simp [result, CallResult.completed, CallResult.isFailure, isSuccessCode, Succeeds]
    omega

/-- A result without a code that counts as fatal is kept of no answer, and of nothing else. -/
theorem fatal_result : ((r.result functionId).fatal = true ∧ (r.result functionId).statusCode = none) ↔
    ∃ error, r.outcome = .error error := by
  obtain ⟨takes, outcome⟩ := r
  cases outcome <;> simp [result, CallResult.failed, CallResult.completed]

theorem result_congr (same : r'.outcome = r.outcome) : r'.result functionId = r.result functionId := by
  rw [result, result, same]

end Reply

/-! ## Runs -/

variable {reply reply' : Nat → FunctionSpec → Reply} {specs : List FunctionSpec} {calls : List TimedCall}
  {place started : Nat}

namespace FunctionRun

/-- Every call is of the function at its place, and is kept with what was replied there. -/
structure Answered (reply : Nat → FunctionSpec → Reply) (place : Nat) (specs : List FunctionSpec)
    (calls : List TimedCall) : Prop where
  functions : calls.map (·.spec) <+: specs
  result : ∀ i c, calls[i]? = some c → c.result = (reply (place + i) c.spec).result c.spec.functionId

/-- One call after the other, up to the first that fails. -/
structure InTurn (reply : Nat → FunctionSpec → Reply) (place started : Nat) (specs : List FunctionSpec)
    (calls : List TimedCall) : Prop extends Answered reply place specs calls where
  /-- Only the last call may fail. -/
  earlier : ∀ c ∈ calls.dropLast, c.result.isFailure = false
  /-- Nothing but a failure keeps a function from being called. -/
  stops : calls.map (·.spec) = specs ∨ ∃ last, calls.getLast? = some last ∧ last.result.isFailure = true
  /-- The first call starts with the run, and each of the others when the one before it has ended. -/
  first : ∀ c, calls.head? = some c → c.started = started
  next : calls.IsChain fun c d => d.started = c.ended

/-- All calls together. -/
structure AtOnce (reply : Nat → FunctionSpec → Reply) (specs : List FunctionSpec) (calls : List TimedCall) : Prop
    extends Answered reply 0 specs calls where
  all : calls.map (·.spec) = specs
  together : ∀ c ∈ calls, c.started = 0

theorem InTurn.nil : InTurn reply place started [] [] where
  functions := List.prefix_rfl
  result _ _ found := by cases found
  earlier _ mem := by cases mem
  stops := .inl rfl
  first _ found := by cases found
  next := List.isChain_nil

/-- A call that fails is the last. -/
theorem InTurn.halt {spec : FunctionSpec} {call : TimedCall} (made : call = (reply place spec).timed spec started)
    (fails : call.result.isFailure = true) : InTurn reply place started (spec :: specs) [call] where
  functions := by
    subst made
    exact (List.prefix_append [spec] specs)
  result i c found := by
    cases i with
    | zero =>
      obtain rfl : call = c := Option.some.inj found
      subst made
      rfl
    | succ i => cases found
  earlier _ mem := by cases mem
  stops := .inr ⟨call, rfl, fails⟩
  first c found := by
    obtain rfl : call = c := Option.some.inj found
    subst made
    rfl
  next := List.isChain_singleton call

/-- A call that succeeds goes in front of those that follow it. -/
theorem InTurn.cons {spec : FunctionSpec} {call : TimedCall} (made : call = (reply place spec).timed spec started)
    (succeeds : call.result.isFailure = false) (rest : InTurn reply (place + 1) call.ended specs calls) :
    InTurn reply place started (spec :: specs) (call :: calls) where
  functions := by
    subst made
    exact (List.prefix_cons_inj spec).mpr rest.functions
  result i c found := by
    cases i with
    | zero =>
      obtain rfl : call = c := Option.some.inj found
      subst made
      rfl
    | succ i =>
      rw [show place + (i + 1) = place + 1 + i by omega]
      exact rest.result i c found
  earlier c mem := by
    cases calls with
    | nil => cases mem
    | cons d ds =>
      rcases List.mem_cons.mp mem with rfl | mem
      · exact succeeds
      · exact rest.earlier c mem
  stops := by
    subst made
    rcases rest.stops with all | ⟨last, found, fails⟩
    · exact .inl (congrArg (spec :: ·) all)
    · refine .inr ⟨last, ?_, fails⟩
      rw [List.getLast?_cons, found]
      rfl
  first c found := by
    obtain rfl : call = c := Option.some.inj found
    subst made
    rfl
  next := by
    cases calls with
    | nil => exact List.isChain_singleton call
    | cons d ds => exact List.isChain_cons_cons.mpr ⟨rest.first d rfl, rest.next⟩

end FunctionRun

open FunctionRun

theorem callInTurn_inTurn (reply : Nat → FunctionSpec → Reply) (place started : Nat) (specs : List FunctionSpec) :
    InTurn reply place started specs (callInTurn reply place started specs) := by
  induction specs generalizing place started with
  | nil => exact .nil
  | cons spec specs ih =>
    rw [callInTurn]
    split
    · next fails => exact .halt rfl fails
    · next succeeds => exact .cons rfl (Bool.eq_false_iff.mpr succeeds) (ih _ _)

theorem callAtOnce_atOnce (reply : Nat → FunctionSpec → Reply) (specs : List FunctionSpec) :
    AtOnce reply specs (callAtOnce reply specs) := by
  have all : (callAtOnce reply specs).map (·.spec) = specs := by
    refine List.ext_getElem? fun i => ?_
    rw [callAtOnce, List.getElem?_map, List.getElem?_mapIdx, Option.map_map]
    exact Option.map_id'
  refine { functions := all.symm ▸ List.prefix_rfl, all, result := fun i c found => ?_, together := fun c mem => ?_ }
  · rw [callAtOnce, List.getElem?_mapIdx, Option.map_eq_some_iff] at found
    obtain ⟨spec, -, rfl⟩ := found
    rw [Nat.zero_add]
    rfl
  · obtain ⟨i, small, rfl⟩ := List.mem_mapIdx.mp mem
    rfl

namespace FunctionRun

/-- The result at a place is that of the function at that place. -/
theorem Answered.result_eq {run : FunctionRun} (h : Answered reply 0 specs run.calls) {r : CallResult}
    (found : run.results[place]? = some r) :
    ∃ spec, specs[place]? = some spec ∧ r = (reply place spec).result spec.functionId := by
  rw [results, List.getElem?_map, Option.map_eq_some_iff] at found
  obtain ⟨c, found, rfl⟩ := found
  obtain ⟨rest, whole⟩ := h.functions
  refine ⟨c.spec, ?_, ?_⟩
  · have called : (run.calls.map (·.spec))[place]? = some c.spec := by rw [List.getElem?_map, found, Option.map_some]
    rw [← whole, List.getElem?_append_left (List.getElem?_eq_some_iff.mp called).1, called]
  · have own := h.result place c found
    rwa [Nat.zero_add] at own

/-- A run is finished if all functions were called and all calls succeeded, and has failed calls otherwise. -/
theorem Answered.status {run : FunctionRun} (h : Answered reply 0 specs run.calls)
    (stops : run.calls.map (·.spec) = specs ∨
      ∃ last, run.calls.getLast? = some last ∧ last.result.isFailure = true) :
    ExecutionStatus.ofResults run.results = .finished ↔
      run.calls.map (·.spec) = specs ∧ ∀ i spec, specs[i]? = some spec → (reply i spec).Succeeds := by
  have finished : ExecutionStatus.ofResults run.results = .finished ↔ ∀ c ∈ run.calls, c.result.isFailure = false := by
    simp [ExecutionStatus.ofResults, results]
  rw [finished]
  constructor
  · intro fine
    have all : run.calls.map (·.spec) = specs := by
      refine stops.resolve_right fun ⟨last, found, fails⟩ => ?_
      exact Bool.false_ne_true ((fine last (List.mem_of_getLast? found)).symm.trans fails)
    refine ⟨all, fun i spec own => ?_⟩
    rw [← all, List.getElem?_map, Option.map_eq_some_iff] at own
    obtain ⟨c, found, rfl⟩ := own
    have result := h.result i c found
    rw [Nat.zero_add] at result
    exact Reply.isFailure_result.mp (result ▸ fine c (List.mem_of_getElem? found))
  · rintro ⟨all, succeed⟩ c mem
    obtain ⟨i, found⟩ := List.mem_iff_getElem?.mp mem
    have own : specs[i]? = some c.spec := by rw [← all, List.getElem?_map, found, Option.map_some]
    rw [h.result i c found, Nat.zero_add]
    exact Reply.isFailure_result.mpr (succeed i c.spec own)

end FunctionRun

/-! ## Delays -/

theorem callInTurn_results_congr (same : ∀ i spec, (reply' i spec).outcome = (reply i spec).outcome)
    (place started started' : Nat) (specs : List FunctionSpec) :
    (callInTurn reply' place started' specs).map (·.result) = (callInTurn reply place started specs).map (·.result) := by
  induction specs generalizing place started started' with
  | nil => rfl
  | cons spec specs ih =>
    have result : ((reply' place spec).timed spec started').result = ((reply place spec).timed spec started).result :=
      Reply.result_congr (same place spec)
    rw [callInTurn, callInTurn, result]
    split
    · rw [List.map_singleton, List.map_singleton, result]
    · rw [List.map_cons, List.map_cons, result, ih]

/-- How long the calls take makes no difference to the results. -/
theorem results_congr (same : ∀ i spec, (reply' i spec).outcome = (reply i spec).outcome) (specs : List FunctionSpec)
    (type : ExecutionType) : (runFunctions reply' specs type).results = (runFunctions reply specs type).results := by
  cases type with
  | sequential => exact callInTurn_results_congr same 0 0 0 specs
  | parallel =>
    refine List.ext_getElem? fun i => ?_
    simp only [runFunctions, results, callAtOnce, List.getElem?_map, List.getElem?_mapIdx, Option.map_map]
    exact congrArg (Option.map · specs[i]?) (funext fun spec => Reply.result_congr (same i spec))

/-! ## Executions -/

/-- Whatever answers the calls: in turn they are made up to and with the first that fails, at once all of them are. Every
call leaves one result. The results are in the order of the functions, each under the name of its own, fatal without a
code exactly if no answer came and a failure exactly without a good code; the execution is finished exactly if all
functions were called with success, and no delay changes a result. -/
theorem functions_answered_in_order (reply : Nat → FunctionSpec → Reply) (specs : List FunctionSpec) :
    InTurn reply 0 0 specs (runFunctions reply specs .sequential).calls ∧
    AtOnce reply specs (runFunctions reply specs .parallel).calls ∧
    ∀ type run, run = runFunctions reply specs type →
      run.results.length = run.calls.length ∧
      (∀ i r, run.results[i]? = some r → ∃ spec, specs[i]? = some spec ∧ r.functionId = spec.functionId ∧
        (r.fatal = true ∧ r.statusCode = none ↔ ∃ error, (reply i spec).outcome = .error error) ∧
        (r.isFailure = false ↔ (reply i spec).Succeeds)) ∧
      (ExecutionStatus.ofResults run.results = .finished ↔
        run.calls.map (·.spec) = specs ∧ ∀ i spec, specs[i]? = some spec → (reply i spec).Succeeds) ∧
      (ExecutionStatus.ofResults run.results ≠ .finished → ExecutionStatus.ofResults run.results = .withCallError) ∧
      ∀ reply', (∀ i spec, (reply' i spec).outcome = (reply i spec).outcome) →
        (runFunctions reply' specs type).results = run.results := by
  have inTurn := callInTurn_inTurn reply 0 0 specs
  have atOnce := callAtOnce_atOnce reply specs
  refine ⟨inTurn, atOnce, ?_⟩
  rintro type run rfl
  have answered : Answered reply 0 specs (runFunctions reply specs type).calls := by
    cases type with
    | sequential => exact inTurn.toAnswered
    | parallel => exact atOnce.toAnswered
  refine ⟨List.length_map _, fun i r found => ?_, answered.status ?_, ?_, fun reply' same =>
    results_congr same specs type⟩
  · obtain ⟨spec, own, rfl⟩ := answered.result_eq found
    exact ⟨spec, own, Reply.functionId_result, Reply.fatal_result, Reply.isFailure_result⟩
  · cases type with
    | sequential => exact inTurn.stops
    | parallel => exact .inl atOnce.all
  · unfold ExecutionStatus.ofResults
    split
    · exact fun _ => rfl
    · exact fun differs => absurd rfl differs

/-- Calls that all succeed, each after its own time. -/
def succeedAfter (takes : Nat → Nat) : Nat → FunctionSpec → Reply := fun i _ => ⟨takes i, .ok (some 200)⟩

/-- The second of two calls ends first, and its result is the second all the same. -/
theorem slow_function_keeps_its_place :
    (runFunctions (succeedAfter (30 - 25 * ·)) [{ functionId := "slow" }, { functionId := "quick" }]
      .parallel).calls.map (·.ended) = [30, 5] ∧
    (runFunctions (succeedAfter (30 - 25 * ·)) [{ functionId := "slow" }, { functionId := "quick" }]
      .parallel).results.map (·.functionId) = ["slow", "quick"] ∧
    (runFunctions (succeedAfter id) [{ functionId := "slow" }, { functionId := "quick" }] .parallel).results =
      (runFunctions (succeedAfter (30 - 25 * ·)) [{ functionId := "slow" }, { functionId := "quick" }]
        .parallel).results := by
  refine ⟨by decide, by decide, ?_⟩
  obtain ⟨-, -, runs⟩ := functions_answered_in_order (succeedAfter (30 - 25 * ·))
    [{ functionId := "slow" }, { functionId := "quick" }]
  obtain ⟨-, -, -, -, delays⟩ := runs .parallel _ rfl
  exact delays (succeedAfter id) fun _ _ => rfl

end Timetable
