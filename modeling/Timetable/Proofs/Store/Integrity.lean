import Timetable.Proofs.Store.Twins

/-!
# Integrity of the store in memory

A store is asked one thing after the other: a request, or a transaction of any changes that is committed, fails to
commit or is forgotten (`StoreTurn`). A transaction locks the store until it ends, so nothing comes in between.

Then every execution belongs to a stored job, every job is stored under its own identifier, and an execution stays what
it was until it is deleted, alone, with all others of its job or with its job. A transaction that is not committed
leaves nothing, and one that is committed does what its changes do without it (`store_integrity`). Jobs may be given any
identifiers; those of new executions are not in use.

One equation carries the whole: a turn filters the executions by what it removes and adds one at most (`Turned`).
-/

namespace Timetable

open StoreState

/-! ## Changes at times of their own -/

namespace StoreWrite

variable {σ : Type} {writer : JobWriter σ} {p : Instant × StoreWrite} {ws : List (Instant × StoreWrite)} {s : σ}

/-- Makes changes one after the other, each at its time, whether they fail or not. -/
def askEach (writer : JobWriter σ) (ws : List (Instant × StoreWrite)) :
    Act StoreError σ (List (Except StoreError WriteAnswer)) :=
  ws.mapM fun p => (p.2.ask writer p.1).attempt

theorem askEach_cons : (askEach writer (p :: ws)).on s =
    let first := (p.2.ask writer p.1).on s
    let rest := (askEach writer ws).on first.2
    (rest.1.map (first.1 :: ·), rest.2) := by
  have unfolded : askEach writer (p :: ws) = do
      let first ← (p.2.ask writer p.1).attempt
      let rest ← askEach writer ws
      return first :: rest := List.mapM_cons
  rw [unfolded, Act.on_bind, Act.on_attempt]
  dsimp only
  rw [Act.on_bind]
  rcases (askEach writer ws).on ((p.2.ask writer p.1).on s).2 with ⟨_ | _, _⟩ <;> rfl

/-- All changes are answered, some perhaps by an error. -/
theorem askEach_ok (writer : JobWriter σ) (ws : List (Instant × StoreWrite)) (s : σ) :
    ∃ answers s', (askEach writer ws).on s = (.ok answers, s') := by
  induction ws generalizing s with
  | nil => exact ⟨[], s, rfl⟩
  | cons p ws ih =>
    obtain ⟨answers, s', rest⟩ := ih ((p.2.ask writer p.1).on s).2
    refine ⟨((p.2.ask writer p.1).on s).1 :: answers, s', ?_⟩
    rw [askEach_cons]
    dsimp only
    rw [rest]
    rfl

theorem askAll_eq_askEach (writer : JobWriter σ) (now : Instant) (ws : List StoreWrite) :
    askAll writer now ws = askEach writer (ws.map (now, ·)) := by
  unfold askAll askEach
  rw [List.mapM_map]
  rfl

end StoreWrite

open StoreWrite (askEach)

/-- Makes changes in a transaction, each at its time, and commits it or forgets it. -/
def JobStore.transactEach {σ τ : Type} (S : JobStore σ τ) (opened : Instant) (ws : List (Instant × StoreWrite))
    (commits : Bool) : Act StoreError σ (List (Except StoreError WriteAnswer)) := do
  let t ← S.openTransaction opened
  let (answers, t) ← within t (askEach S.inside ws)
  if commits then S.commit t
  return answers

theorem JobStore.transact_eq {σ τ : Type} (S : JobStore σ τ) (now : Instant) (ws : List StoreWrite) (commits : Bool) :
    S.transact now ws commits = S.transactEach now (ws.map (now, ·)) commits := by
  unfold JobStore.transact JobStore.transactEach
  rw [StoreWrite.askAll_eq_askEach]

/-! ## Transactions of the store in memory -/

namespace LocalStore

variable {faults : StoreFaults} {opened now : Instant} {ws : List (Instant × StoreWrite)} {commits : Bool}
  {s : StoreState LocalStore}

/-- In a transaction changes are made to its own rows as they would be to those of the store. -/
theorem askEach_inside (ws : List (Instant × StoreWrite)) (p : Transaction LocalStore × StoreState LocalStore) :
    (askEach (jobStore faults).inside ws).on p =
      (StoreState.within fun _ => askEach (jobStore faults).toJobWriter ws).on p := by
  induction ws generalizing p with
  | nil => rfl
  | cons q ws ih =>
    rw [StoreWrite.askEach_cons, LocalStore.ask_inside]
    dsimp only
    rw [ih]
    simp only [StoreState.within, Act.on_of, StoreWrite.askEach_cons (p := q)]

theorem transactEach_on {answers : List (Except StoreError WriteAnswer)} {s' : StoreState LocalStore}
    (opens : faults s.sent .openTransaction = none)
    (all : (askEach (jobStore faults).toJobWriter ws).on { s with sent := s.sent + 1 } = (.ok answers, s')) :
    ((jobStore faults).transactEach opened ws commits).on s =
      Act.on (do
        if commits then StoreState.commit faults ⟨s'.rows, opened⟩
        return answers) { s' with rows := s.rows } := by
  have opened_on : ((jobStore faults).openTransaction opened).on s =
      (.ok ⟨s.rows, opened⟩, { s with sent := s.sent + 1 }) := by
    simp only [jobStore, StoreState.openTransaction, send, opens, Act.on_of]
  simp only [JobStore.transactEach, Act.on_bind, opened_on, JobStore.within, Act.on_of, askEach_inside,
    StoreState.within, all, Except.map]
  rfl

end LocalStore

/-! ## What stays and what goes -/

namespace LocalStore

/-- A store in which nothing is out of place. -/
structure Intact (s : LocalStore) : Prop where
  owner : ∀ e ∈ s.executions, s.jobs.contains e.jobId = true
  own : ∀ {id j}, s.jobs.get? id = some j → j.id = id
  executionIds : (s.executions.map (·.id)).Nodup

namespace Intact

variable {s : LocalStore} {id : Identifier} {now : Instant}

theorem empty : Intact {} := by constructor <;> simp

theorem setJob {j : Job} (h : s.Intact) (own : j.id = id) :
    ({ s with jobs := s.jobs.set id j } : LocalStore).Intact where
  owner e mem := by
    have owned := h.owner e mem
    simp only [Table.contains_set, owned, Bool.or_true]
  own {id' j'} stored := by
    simp only [Table.get?_set] at stored
    split at stored
    · next same =>
      obtain rfl := Option.some.inj stored
      exact own.trans same
    · exact h.own stored
  executionIds := h.executionIds

theorem keepExecutions (h : s.Intact) (keep : JobExecution → Bool) : (LocalStore.keepExecutions keep s).2.Intact where
  owner e mem := h.owner e (List.mem_of_mem_filter mem)
  own := h.own
  executionIds := h.executionIds.sublist (List.filter_sublist.map _)

/-- With a job go its executions, and if there is no such job it has none. -/
theorem removeJob_executions (h : s.Intact) (id : Identifier) :
    (LocalStore.removeJob id s).2.executions = s.executions.filter (·.jobId ≠ id) := by
  unfold LocalStore.removeJob
  cases stored : s.jobs.contains id with
  | true => rfl
  | false =>
    refine (List.filter_eq_self.mpr fun e mem => decide_eq_true ?_).symm
    intro own
    have owned := h.owner e mem
    rw [own, stored] at owned
    cases owned

theorem removeJob (h : s.Intact) (id : Identifier) : (LocalStore.removeJob id s).2.Intact := by
  unfold LocalStore.removeJob
  split
  · have kept := h.keepExecutions (·.jobId ≠ id)
    refine ⟨fun e mem => ?_, fun stored => ?_, kept.executionIds⟩
    · obtain ⟨stored, other⟩ := List.mem_filter.mp mem
      have owned := h.owner e stored
      have other : id ≠ e.jobId := fun own => of_decide_eq_true other own.symm
      simp only [Table.contains_erase, owned, other, decide_false, Bool.not_false, Bool.and_true]
    · simp only [Table.get?_erase, Option.ite_none_left_eq_some] at stored
      exact h.own stored.2
  · exact h

theorem addExecution {e : NewExecution} (h : s.Intact) (fresh : ∀ x ∈ s.executions, x.id ≠ id)
    (owned : s.jobs.contains e.jobId = true) : (LocalStore.addExecution id now e s).2.Intact where
  owner x mem := by
    rcases List.mem_append.mp mem with before | new
    · exact h.owner x before
    · obtain rfl := List.mem_singleton.mp new
      exact owned
  own := h.own
  executionIds := by
    simp only [LocalStore.addExecution, List.map_append, List.map_singleton]
    refine List.nodup_append.mpr ⟨h.executionIds, List.nodup_singleton _, fun x before y new same => ?_⟩
    obtain ⟨e', mem, rfl⟩ := List.mem_map.mp before
    exact fresh e' mem (same.trans (List.mem_singleton.mp new))

theorem eq_of_id (h : s.Intact) {e x : JobExecution} (mem : e ∈ s.executions) (mem' : x ∈ s.executions)
    (same : x.id = e.id) : x = e :=
  List.inj_on_of_nodup_map h.executionIds mem' mem same

/-- What is stored is found. -/
theorem find (h : s.Intact) {e : JobExecution} (mem : e ∈ s.executions) :
    (s.executionsOf e.jobId).find? (·.id == e.id) = some e := by
  have among : e ∈ s.executionsOf e.jobId := List.mem_filter.mpr ⟨List.mem_reverse.mpr mem, beq_self_eq_true _⟩
  cases found : (s.executionsOf e.jobId).find? (·.id == e.id) with
  | none => exact absurd (beq_self_eq_true e.id) (List.find?_eq_none.mp found e among)
  | some x =>
    have stored := List.mem_reverse.mp (List.mem_of_mem_filter (List.mem_of_find?_eq_some found))
    have same : (x.id == e.id) = true := List.find?_some (p := fun y : JobExecution => y.id == e.id) found
    rw [h.eq_of_id mem stored (beq_iff_eq.mp same)]

end Intact

end LocalStore

/-- Whether a change deletes a job. -/
def StoreWrite.deletes (jobId : Identifier) : StoreWrite → Bool
  | deleteJob id => jobId = id
  | _ => false

/-- How a transaction ends: by its commit, by a commit that fails, or without one. -/
inductive Ending where
  | committed
  | rejected
  | forgotten
deriving DecidableEq

/-- What a store is asked while it is locked. -/
inductive StoreTurn where
  | ask (now : Instant) (r : StoreRequest)
  | transact (opened : Instant) (ws : List (Instant × StoreWrite)) (ending : Ending)

namespace LocalStore

/-- The store whose commits fail if a transaction is to end that way. -/
def underEnding : Ending → JobStore (StoreState LocalStore) (Transaction LocalStore)
  | .rejected => jobStore (.named ["commit"] commitRejected)
  | _ => jobStore noStoreFaults

/-- Makes changes in a transaction with some ending. -/
def transactTo (ending : Ending) (opened : Instant) (ws : List (Instant × StoreWrite)) :
    Act StoreError (StoreState LocalStore) (List (Except StoreError WriteAnswer)) :=
  (underEnding ending).transactEach opened ws (ending ≠ .forgotten)

/-- Makes changes without a transaction. -/
def askDirectly (ws : List (Instant × StoreWrite)) :
    Act StoreError (StoreState LocalStore) (List (Except StoreError WriteAnswer)) :=
  askEach (jobStore noStoreFaults).toJobWriter ws

end LocalStore

namespace StoreTurn

/-- What a turn leaves of a store. -/
def after (s : StoreState LocalStore) : StoreTurn → StoreState LocalStore
  | ask now r => (((LocalStore.jobStore noStoreFaults).ask now r).on s).2
  | transact opened ws ending => ((LocalStore.transactTo ending opened ws).on s).2

/-- Whether a turn deletes an execution: by its identifiers, with all executions of its job, or with its job. -/
def removes (e : JobExecution) : StoreTurn → Bool
  | ask _ (.write w) => w.deletes e.jobId
  | ask _ (.deleteExecutions jobId) => e.jobId = jobId
  | ask _ (.deleteExecution jobId id) => e.jobId == jobId && e.id == id
  | ask _ (.transaction ws commits) => commits && ws.any (·.deletes e.jobId)
  | ask _ _ => false
  | transact _ ws ending => ending = .committed && ws.any (·.2.deletes e.jobId)

/-- The identifier that is handed out next is not in use, if an execution is to get it. -/
def Fresh (s : StoreState LocalStore) : StoreTurn → Prop
  | ask _ (.createExecution _) => ∀ e ∈ s.rows.executions, e.id ≠ .generated (s.issued + 1)
  | _ => True

end StoreTurn

/-! ### One change -/

namespace LocalStore

variable {s : StoreState LocalStore}

/-- A change as it is made without faults. -/
theorem ask_write_on (s : StoreState LocalStore) (w : StoreWrite) (now : Instant) (n : Nat) :
    (w.ask (jobStore noStoreFaults).toJobWriter now).on { s with sent := n } =
      (((w.ask (jobStore noStoreFaults).toJobWriter now).on s).1,
        { ((w.ask (jobStore noStoreFaults).toJobWriter now).on s).2 with sent := n + 1 }) := by
  cases w with
  | createJob j => rfl
  | updateJob id c =>
    simp only [StoreWrite.ask, Act.on_map, jobStore]
    cases stored : s.rows.jobs.get? id with
    | none =>
      rw [updateJob_gone stored, updateJob_gone (m := { s with sent := n }) stored]
    | some old =>
      rw [updateJob_on stored, updateJob_on (m := { s with sent := n }) stored]
  | deleteJob id => rfl

theorem askDirectly_sent (ws : List (Instant × StoreWrite)) (s : StoreState LocalStore) (n : Nat) :
    (askDirectly ws).on { s with sent := n } =
      (((askDirectly ws).on s).1, { ((askDirectly ws).on s).2 with sent := n + ws.length }) := by
  induction ws generalizing s n with
  | nil => rfl
  | cons p ws ih =>
    unfold askDirectly at ih ⊢
    rw [StoreWrite.askEach_cons, StoreWrite.askEach_cons (s := s)]
    dsimp only
    rw [ask_write_on s]
    dsimp only
    rw [ih, List.length_cons, Nat.add_comm ws.length 1, Nat.add_assoc]

/-- What a change leaves of executions. -/
theorem ask_write (w : StoreWrite) (now : Instant) (intact : s.rows.Intact) :
    let left := ((w.ask (jobStore noStoreFaults).toJobWriter now).on s).2.rows
    left.Intact ∧ left.executions = s.rows.executions.filter (fun e => !w.deletes e.jobId) := by
  cases w with
  | createJob j => exact ⟨intact.setJob rfl, (List.filter_eq_self.mpr fun _ _ => rfl).symm⟩
  | updateJob id c =>
    simp only [StoreWrite.ask, Act.on_map, jobStore]
    cases stored : s.rows.jobs.get? id with
    | none =>
      rw [updateJob_gone stored]
      exact ⟨intact, (List.filter_eq_self.mpr fun _ _ => rfl).symm⟩
    | some old =>
      rw [updateJob_on stored]
      have own : (c.applyAt now old).id = old.id := rfl
      exact ⟨intact.setJob (own.trans (intact.own stored)), (List.filter_eq_self.mpr fun _ _ => rfl).symm⟩
  | deleteJob id =>
    refine ⟨intact.removeJob id, (intact.removeJob_executions id).trans ?_⟩
    simp only [StoreWrite.deletes, ne_eq, decide_not]

theorem askDirectly_intact (ws : List (Instant × StoreWrite)) (intact : s.rows.Intact) :
    let left := ((askDirectly ws).on s).2.rows
    left.Intact ∧ left.executions = s.rows.executions.filter (fun e => !ws.any (·.2.deletes e.jobId)) := by
  induction ws generalizing s with
  | nil => exact ⟨intact, (List.filter_eq_self.mpr fun _ _ => rfl).symm⟩
  | cons p ws ih =>
    obtain ⟨first, filtered⟩ := ask_write p.2 p.1 intact
    obtain ⟨left, filtered'⟩ := ih first
    unfold askDirectly at left filtered' ⊢
    rw [StoreWrite.askEach_cons]
    refine ⟨left, filtered'.trans ?_⟩
    rw [filtered, List.filter_filter]
    simp only [List.any_cons, Bool.not_or, Bool.and_comm]

/-! ### One transaction -/

theorem transactTo_committed (opened : Instant) (ws : List (Instant × StoreWrite)) (s : StoreState LocalStore) :
    (transactTo .committed opened ws).on s =
      (((askDirectly ws).on s).1, { ((askDirectly ws).on s).2 with sent := s.sent + ws.length + 2 }) := by
  obtain ⟨answers, s', all⟩ := StoreWrite.askEach_ok (jobStore noStoreFaults).toJobWriter ws s
  have shifted := askDirectly_sent ws s (s.sent + 1)
  unfold askDirectly at shifted ⊢
  rw [all] at shifted ⊢
  have committed : (transactTo .committed opened ws).on s = _ := transactEach_on rfl shifted
  rw [committed]
  show (Except.ok answers, StoreState.mk s'.rows s'.issued (s.sent + 1 + ws.length + 1)) = _
  rw [Nat.add_right_comm s.sent 1]

/-- A transaction that is forgotten leaves nothing. -/
theorem transactTo_forgotten (opened : Instant) (ws : List (Instant × StoreWrite)) (s : StoreState LocalStore) :
    ((transactTo .forgotten opened ws).on s).2.rows = s.rows := by
  obtain ⟨answers, s', all⟩ :=
    StoreWrite.askEach_ok (jobStore noStoreFaults).toJobWriter ws { s with sent := s.sent + 1 }
  have forgotten : (transactTo .forgotten opened ws).on s = _ := transactEach_on rfl all
  rw [forgotten]
  rfl

/-- Nor does one whose commit fails. -/
theorem transactTo_rejected (opened : Instant) (ws : List (Instant × StoreWrite)) (s : StoreState LocalStore) :
    ((transactTo .rejected opened ws).on s).1 = .error commitRejected ∧
      ((transactTo .rejected opened ws).on s).2.rows = s.rows := by
  let faults := StoreFaults.named ["commit"] commitRejected
  have opens : faults s.sent .openTransaction = none := if_neg (by decide)
  obtain ⟨answers, s', all⟩ := StoreWrite.askEach_ok (jobStore faults).toJobWriter ws { s with sent := s.sent + 1 }
  have rejected : (transactTo .rejected opened ws).on s = _ := transactEach_on opens all
  rw [rejected]
  exact ⟨rfl, rfl⟩

end LocalStore

/-! ### One turn -/

/-- What a turn makes of rows: the executions that it removes go, or none goes and one is added. -/
structure Turned (turn : StoreTurn) (s s' : LocalStore) : Prop where
  intact : s'.Intact
  executions : s'.executions = s.executions.filter (fun e => !turn.removes e) ∨
    (∀ e, turn.removes e = false) ∧ ∃ new, s'.executions = s.executions ++ [new]

namespace Turned

variable {turn : StoreTurn} {s s' : LocalStore} {e : JobExecution}

theorem same (intact : s.Intact) (spares : ∀ e, turn.removes e = false) : Turned turn s s :=
  ⟨intact, .inl (List.filter_eq_self.mpr fun e _ => by rw [spares, Bool.not_false]).symm⟩

/-- What was stored is stored still, unless the turn removes it. -/
theorem mem_iff (h : Turned turn s s') (mem : e ∈ s.executions) :
    e ∈ s'.executions ↔ turn.removes e = false := by
  obtain filtered | ⟨spares, new, added⟩ := h.executions
  · rw [filtered, List.mem_filter, Bool.not_eq_true']
    exact and_iff_right mem
  · rw [added]
    exact iff_of_true (List.mem_append_left _ mem) (spares e)

end Turned

namespace StoreTurn

open LocalStore

variable {s : StoreState LocalStore} {turn : StoreTurn}

theorem transact_turned (intact : s.rows.Intact) (opened : Instant) (ws : List (Instant × StoreWrite))
    (ending : Ending) : Turned (.transact opened ws ending) s.rows ((transactTo ending opened ws).on s).2.rows := by
  cases ending with
  | committed =>
    obtain ⟨left, filtered⟩ := askDirectly_intact ws intact
    rw [transactTo_committed]
    exact ⟨left, .inl filtered⟩
  | rejected =>
    rw [(transactTo_rejected opened ws s).2]
    exact .same intact fun _ => rfl
  | forgotten =>
    rw [transactTo_forgotten opened ws s]
    exact .same intact fun _ => rfl

/-- A transaction at one time is one of changes at times of their own. -/
theorem ask_transaction_turned (intact : s.rows.Intact) (now : Instant) (ws : List StoreWrite) (commits : Bool) :
    Turned (.ask now (.transaction ws commits)) s.rows
      (((jobStore noStoreFaults).ask now (.transaction ws commits)).on s).2.rows := by
  let ending := if commits then Ending.committed else .forgotten
  have asked : (jobStore noStoreFaults).ask now (.transaction ws commits) =
      transactTo ending now (ws.map (now, ·)) := by
    rw [JobStore.ask, JobStore.transact_eq]
    cases commits <;> rfl
  have same (e : JobExecution) :
      (StoreTurn.transact now (ws.map (now, ·)) ending).removes e = (ask now (.transaction ws commits)).removes e := by
    cases commits <;> simp [ending, removes, Function.comp_def]
  obtain ⟨left, executions⟩ := transact_turned intact now (ws.map (now, ·)) ending
  simp only [same] at executions
  rw [asked]
  exact ⟨left, executions⟩

theorem after_turned (intact : s.rows.Intact) (fresh : turn.Fresh s) : Turned turn s.rows (turn.after s).rows := by
  cases turn with
  | transact opened ws ending => exact transact_turned intact opened ws ending
  | ask now r =>
    cases r with
    | write w =>
      obtain ⟨left, filtered⟩ := ask_write w now intact
      exact ⟨left, .inl filtered⟩
    | createExecution e =>
      have after : (StoreTurn.ask now (.createExecution e)).after s =
        ((createExecution noStoreFaults now e).on s).2 := rfl
      cases owned : s.rows.jobs.contains e.jobId with
      | false =>
        rw [after, createExecution_gone owned]
        exact .same intact fun _ => rfl
      | true =>
        rw [after, createExecution_on owned]
        exact ⟨intact.addExecution fresh owned, .inr ⟨fun _ => rfl, _, rfl⟩⟩
    | deleteExecutions jobId =>
      exact ⟨intact.keepExecutions _, .inl (List.filter_congr fun e _ => decide_not)⟩
    | deleteExecution jobId id => exact ⟨intact.keepExecutions _, .inl rfl⟩
    | transaction ws commits => exact ask_transaction_turned intact now ws commits
    | _ => exact .same intact fun _ => rfl

end StoreTurn

/-! ## Runs -/

/-- A store is asked turns one after the other. Before each of them, any identifier may come to be the next. -/
inductive Goes : StoreState LocalStore → List StoreTurn → StoreState LocalStore → Prop
  | stay (s : StoreState LocalStore) : Goes s [] s
  | turn {s s' : StoreState LocalStore} {turn : StoreTurn} {turns : List StoreTurn} (issued : Nat)
      (fresh : turn.Fresh { s with issued }) (rest : Goes (turn.after { s with issued }) turns s') :
      Goes s (turn :: turns) s'

namespace Goes

variable {s s' : StoreState LocalStore} {turns : List StoreTurn}

theorem intact (h : Goes s turns s') (start : s.rows.Intact) : s'.rows.Intact := by
  induction h with
  | stay _ => exact start
  | @turn s s' turn turns issued fresh _ ih =>
    exact ih (StoreTurn.after_turned (s := { s with issued }) start fresh).intact

/-- What no turn removes is kept as it is. -/
theorem keeps (h : Goes s turns s') (start : s.rows.Intact) {e : JobExecution} (mem : e ∈ s.rows.executions)
    (spared : ∀ turn ∈ turns, turn.removes e = false) : e ∈ s'.rows.executions := by
  induction h with
  | stay _ => exact mem
  | @turn s s' turn turns issued fresh _ ih =>
    obtain ⟨first, rest⟩ := List.forall_mem_cons.mp spared
    have turned := StoreTurn.after_turned (s := { s with issued }) start fresh
    exact ih turned.intact ((turned.mem_iff mem).mpr first) rest

end Goes

/-- What holds of a store whatever it was asked so far. -/
structure StoreIntegrity (s : StoreState LocalStore) : Prop where
  /-- Executions belong to stored jobs. -/
  owner : ∀ e ∈ s.rows.executions, ∃ job, s.rows.jobs.get? e.jobId = some job
  /-- A job is under its own identifier. -/
  own : ∀ {id job}, s.rows.jobs.get? id = some job → job.id = id
  /-- What is answered by a new execution is stored. -/
  written : ∀ {now new issued e},
    (((LocalStore.jobStore noStoreFaults).createExecution now new).on { s with issued }).1 = .ok (some e) →
      e ∈ (((LocalStore.jobStore noStoreFaults).createExecution now new).on { s with issued }).2.rows.executions
  /-- An execution that no turn removes is found later, unchanged, and nothing else is stored under its identifier. -/
  keeps : ∀ {turns s'}, Goes s turns s' → ∀ e ∈ s.rows.executions, (∀ turn ∈ turns, turn.removes e = false) →
    (((LocalStore.jobStore noStoreFaults).findExecution e.jobId e.id).on s').1 = .ok (some e) ∧
      ∀ x ∈ s'.rows.executions, x.id = e.id → x = e
  /-- One that is removed is gone at once. -/
  removes : ∀ {turn : StoreTurn} {issued}, turn.Fresh { s with issued } → ∀ e ∈ s.rows.executions,
    turn.removes e = true → e ∉ (turn.after { s with issued }).rows.executions
  forgotten : ∀ opened ws, ((LocalStore.transactTo .forgotten opened ws).on s).2.rows = s.rows
  rejected : ∀ opened ws, ((LocalStore.transactTo .rejected opened ws).on s).1 = .error LocalStore.commitRejected ∧
    ((LocalStore.transactTo .rejected opened ws).on s).2.rows = s.rows
  /-- A transaction that is committed is answered as its changes are without it, and leaves the same. -/
  committed : ∀ opened ws, ∃ sent, (LocalStore.transactTo .committed opened ws).on s =
    (((LocalStore.askDirectly ws).on s).1, { ((LocalStore.askDirectly ws).on s).2 with sent })

namespace LocalStore

theorem createExecution_written {s : StoreState LocalStore} {now : Instant} {new : NewExecution} {e : JobExecution}
    (answer : ((createExecution noStoreFaults now new).on s).1 = .ok (some e)) :
    e ∈ ((createExecution noStoreFaults now new).on s).2.rows.executions := by
  cases owned : s.rows.jobs.contains new.jobId with
  | false =>
    rw [createExecution_gone owned] at answer
    cases answer
  | true =>
    rw [createExecution_on owned] at answer ⊢
    obtain rfl := Option.some.inj (Except.ok.inj answer)
    exact List.mem_append_right _ (List.mem_singleton_self _)

end LocalStore

theorem store_integrity {turns : List StoreTurn} {s : StoreState LocalStore} (run : Goes ⟨{}, 0, 0⟩ turns s) :
    StoreIntegrity s := by
  have intact : s.rows.Intact := run.intact .empty
  refine ⟨fun e mem => Table.contains_iff.mp (intact.owner e mem), intact.own, LocalStore.createExecution_written,
    fun run e mem spared => ?_, fun {turn issued} fresh e mem removed left => ?_,
    fun opened ws => LocalStore.transactTo_forgotten opened ws s,
    fun opened ws => LocalStore.transactTo_rejected opened ws s,
    fun opened ws => ⟨_, LocalStore.transactTo_committed opened ws s⟩⟩
  · have kept := run.keeps intact mem spared
    have later := run.intact intact
    exact ⟨congrArg Except.ok (later.find kept), fun x mem' same => later.eq_of_id kept mem' same⟩
  · have turned := StoreTurn.after_turned (s := { s with issued }) intact fresh
    have spared := (turned.mem_iff mem).mp left
    rw [removed] at spared
    cases spared

/-! ## A store at work -/

/-- A job and an execution are stored. Then the job is deleted in a transaction that is forgotten and in one that does
not commit; and a transaction commits in which one change failed. -/
def storedTurns : List StoreTurn :=
  [.ask (.ofMillis 1) (.write (.createJob (jobFor (.interval 5) .empty))),
    .ask (.ofMillis 2) (.createExecution (firstExecution none)),
    .transact (.ofMillis 3) [(.ofMillis 4, .deleteJob (.generated 1))] .forgotten,
    .transact (.ofMillis 5) [(.ofMillis 6, .deleteJob (.generated 1))] .rejected,
    .transact (.ofMillis 7) [(.ofMillis 8, .updateJob (.generated 9) {}), (.ofMillis 9, .deleteJob (.generated 9)),
      (.ofMillis 10, .updateJob (.generated 1) { status := some .disabled })] .committed]

/-- The store after them. -/
def storedState : StoreState LocalStore := storedTurns.foldl StoreTurn.after ⟨{}, 0, 0⟩

/-- A transaction that deletes the job. -/
def deletionTurn : StoreTurn := .transact (.ofMillis 11) [(.ofMillis 12, .deleteJob (.generated 1))] .committed

/-- The execution is still there and its job is disabled; the deletion of the job deletes it. -/
theorem store_integrity_after_transactions : Goes ⟨{}, 0, 0⟩ storedTurns storedState ∧ StoreIntegrity storedState ∧
    storedState.rows.executions.map (·.id) = [.generated 2] ∧
    (storedState.rows.jobs.get? (.generated 1)).map (·.status) = some .disabled ∧
    ∀ e ∈ storedState.rows.executions,
      e ∉ (deletionTurn.after ⟨storedState.rows, 2, storedState.sent⟩).rows.executions := by
  have run : Goes ⟨{}, 0, 0⟩ storedTurns storedState := by
    refine .turn 0 trivial <| .turn 1 (fun e mem => ?_) <| .turn 2 trivial <| .turn 2 trivial <| .turn 2 trivial ?_
    · cases mem
    · exact .stay _
  have integrity := store_integrity run
  have owned : ∀ e ∈ storedState.rows.executions, e.jobId = .generated 1 := by decide +kernel
  have fresh : deletionTurn.Fresh ⟨storedState.rows, 2, storedState.sent⟩ := trivial
  have deleted (e : JobExecution) (mem : e ∈ storedState.rows.executions) : deletionTurn.removes e = true := by
    simp only [deletionTurn, StoreTurn.removes, StoreWrite.deletes, owned e mem]
    decide
  exact ⟨run, integrity, by decide +kernel, by decide +kernel,
    fun e mem => integrity.removes fresh e mem (deleted e mem)⟩

end Timetable
