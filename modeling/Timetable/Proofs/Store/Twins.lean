import Timetable.Proofs.Queue.SideBySide
import Timetable.Proofs.Store.Agreement
import Timetable.Proofs.Store.Run

/-!
# The stores in memory and in tables agree

Two stores are asked the same, one request after the other, each at a later time and with the same identifier to hand
out (`Twins`). They give the same answers, errors included (`job_stores_agree`); only enabled jobs may be listed in
another order. Whatever is stored has one row, which reads; changing the columns of a row changes the job in it; with
a job go its executions; and recent executions are the same in the same order.

A step keeps what two stores have in common (`Twinned.ask`): what is in memory is orderly and the tables mirror it. A
transaction is followed change by change on both copies (`Midway.askAll`). Its clock stands still, so it may create
one job only: two would have been created at the same time, and their order would be anyone's.

Columns hold no leap seconds and no time before their first. Of the JSON in them a number may be read as another or
without its fraction, and what is too deep is not read at all. A limit beyond the signed words is refused. The answers
then differ (`job_stores_differ_past_columns`), so requests are restricted to what is `Columnar`.
-/

namespace Timetable

open StoreState RelationalStore

/-! ## What is done without faults -/

namespace LocalStore

variable {now : Instant} {m : StoreState LocalStore} {e : NewExecution} {id : Identifier} {c : JobChanges}

theorem updateJob_on {old : Job} (stored : m.rows.jobs.get? id = some old) :
    (LocalStore.updateJob noStoreFaults now id c).on m =
      (.ok (c.applyAt now old),
        ⟨{ m.rows with jobs := m.rows.jobs.set id (c.applyAt now old) }, m.issued, m.sent + 1⟩) := by
  simp only [LocalStore.updateJob, send, noStoreFaults, onRows, LocalStore.changeJob, Act.on_of, Act.on_zoom,
    Act.on_bind, Act.on_get, stored, Act.on_set, Act.on_pure]

theorem updateJob_gone (gone : m.rows.jobs.get? id = none) :
    (LocalStore.updateJob noStoreFaults now id c).on m =
      (.error (.notFound ("job " ++ id.text)), { m with sent := m.sent + 1 }) := by
  simp only [LocalStore.updateJob, send, noStoreFaults, onRows, LocalStore.changeJob, Act.on_of, Act.on_zoom,
    Act.on_bind, Act.on_get, gone, Act.on_throw]

theorem createExecution_on (owned : m.rows.jobs.contains e.jobId = true) :
    (LocalStore.createExecution noStoreFaults now e).on m =
      let execution := e.store (.generated (m.issued + 1)) now
      (.ok (some execution),
        ⟨{ m.rows with executions := m.rows.executions ++ [execution] }, m.issued + 1, m.sent + 1⟩) := by
  simp only [LocalStore.createExecution, send, noStoreFaults, Act.on_of, Act.on_bind, Act.on_get, owned, if_true, issue,
    change, Act.on_pure]
  rfl

theorem createExecution_gone (gone : m.rows.jobs.contains e.jobId = false) :
    (LocalStore.createExecution noStoreFaults now e).on m = (.ok none, { m with sent := m.sent + 1 }) := by
  simp only [LocalStore.createExecution, send, noStoreFaults, Act.on_of, Act.on_bind, Act.on_get, gone,
    Bool.false_eq_true, if_false, Act.on_pure]

end LocalStore

namespace RelationalStore

variable {kind : JsonColumn} {now : Instant} {t : StoreState Tables} {id : Identifier}

theorem read_on {α : Type} (call : StoreCall) (f : Tables → Except StoreError α) :
    (send noStoreFaults call (read f)).on t = (f t.rows, { t with sent := t.sent + 1 }) := rfl

theorem createJob_row {j : NewJob} {columns : ScheduleColumns}
    (split : ScheduleColumns.ofSchedule j.schedule = .ok columns) (taken : takeTimes [columns.executeAt] = .ok ()) :
    (RelationalStore.createJob kind noStoreFaults now j).on t =
      let row := JobRow.ofNew kind (.generated (t.issued + 1)) now.floorMicros columns j
      (row.job, ⟨{ t.rows with jobs := t.rows.jobs.set row.id row }, t.issued + 1, t.sent + 1⟩) := by
  have taken' (id : Identifier) (now : Instant) :
      takeTimes [(JobRow.ofNew kind id now columns j).schedule.executeAt] = .ok () := taken
  simp only [RelationalStore.createJob, split, issue, send, noStoreFaults, onRows, insertJob, taken', Act.on_bind,
    Act.on_ofExcept, Act.on_of, Act.on_zoom, Act.on_modify]

theorem createJob_on {j : NewJob} (columnar : j.Columnar kind) (time : now.Columnar) :
    (RelationalStore.createJob kind noStoreFaults now j).on t =
      let job := j.store (.generated (t.issued + 1)) now
      (.ok job, ⟨{ t.rows with jobs := t.rows.jobs.set job.id (job.row kind) }, t.issued + 1, t.sent + 1⟩) := by
  rw [createJob_row columnar.schedule.ofSchedule columnar.schedule.takeTimes, time.floorMicros_eq, Job.row_store]
  dsimp only
  rw [Job.row_job (columnar.store _ now)]
  rfl

theorem updateJob_on {c : JobChanges} {old : Job} (columnar : c.Columnar kind) (before : old.Columnar kind)
    (time : now.Columnar) (stored : t.rows.jobs.get? id = some (old.row kind)) :
    (RelationalStore.updateJob kind noStoreFaults now id c).on t =
      (.ok (c.applyAt now old),
        ⟨{ t.rows with jobs := t.rows.jobs.set id ((c.applyAt now old).row kind) }, t.issued, t.sent + 1⟩) := by
  simp only [RelationalStore.updateJob, columnar.columns, columnar.takeTimes, time.floorMicros_eq, send, noStoreFaults,
    onRows, changeJob, Act.on_bind, Act.on_ofExcept, Act.on_of, Act.on_zoom, Act.on_get, stored, Job.row_change,
    Act.on_set, Job.row_job (columnar.applyAt before now)]

theorem updateJob_gone {c : JobChanges} (columnar : c.Columnar kind) (gone : t.rows.jobs.get? id = none) :
    (RelationalStore.updateJob kind noStoreFaults now id c).on t =
      (.error (.notFound ("job " ++ id.text)), { t with sent := t.sent + 1 }) := by
  simp only [RelationalStore.updateJob, columnar.columns, columnar.takeTimes, send, noStoreFaults, onRows, changeJob,
    Act.on_bind, Act.on_ofExcept, Act.on_of, Act.on_zoom, Act.on_get, gone, Act.on_throw]

theorem createExecution_on {e : NewExecution} (columnar : e.Columnar kind) (time : now.Columnar)
    (owned : t.rows.jobs.contains e.jobId = true) :
    (RelationalStore.createExecution kind noStoreFaults now e).on t =
      let execution := e.store (.generated (t.issued + 1)) now
      (.ok (some execution),
        ⟨{ t.rows with executions := t.rows.executions ++ [execution.row kind] }, t.issued + 1, t.sent + 1⟩) := by
  let row := (e.store (.generated (t.issued + 1)) now).row kind
  have owned' : t.rows.jobs.contains row.jobId = true := owned
  have taken : takeTimes [row.processedOn, row.finishedOn] = .ok () := columnar.takeTimes
  simp only [RelationalStore.createExecution, time.floorMicros_eq, columnar.row_store, issue, send, noStoreFaults,
    onRows, insertExecution, Act.on_bind, Act.on_of, Act.on_zoom, Act.on_get, Act.on_ofExcept, row, taken, owned',
    if_true, Act.on_set, readExecution, JobExecution.row_execution columnar.store]
  rfl

theorem createExecution_gone {e : NewExecution} (columnar : e.Columnar kind)
    (gone : t.rows.jobs.contains e.jobId = false) :
    (RelationalStore.createExecution kind noStoreFaults now e).on t =
      (.ok none, { t with issued := t.issued + 1, sent := t.sent + 1 }) := by
  let row := (e.store (.generated (t.issued + 1)) now.floorMicros).row kind
  have gone' : t.rows.jobs.contains row.jobId = false := gone
  have taken : takeTimes [row.processedOn, row.finishedOn] = .ok () := columnar.takeTimes
  simp only [RelationalStore.createExecution, columnar.row_store, issue, send, noStoreFaults, onRows, insertExecution,
    Act.on_bind, Act.on_of, Act.on_zoom, Act.on_get, Act.on_ofExcept, row, taken, gone', Bool.false_eq_true, if_false,
    Act.on_pure]

end RelationalStore

/-! ## What is asked -/

/-- Changes that fit the columns. -/
def StoreWrite.Columnar (kind : JsonColumn) : StoreWrite → Prop
  | createJob job => job.Columnar kind
  | updateJob _ changes => changes.Columnar kind
  | deleteJob _ => True

namespace StoreRequest

/-- A request that fits the columns, and whose limit fits a signed word. A transaction creates one job at most. -/
def Columnar (kind : JsonColumn) : StoreRequest → Prop
  | write w => w.Columnar kind
  | createExecution e => e.Columnar kind
  | recentExecutions _ limit => FitsWord limit
  | transaction writes _ => (∀ w ∈ writes, w.Columnar kind) ∧ writes.countP StoreWrite.creates ≤ 1
  | _ => True

/-- The same answer, where enabled jobs are compared as a set. -/
def SameAnswer : (r : StoreRequest) → r.Answer → r.Answer → Prop
  | listEnabledJobs, a, b => a.Perm b
  | _, a, b => a = b

/-- The same answer, or the same error. -/
def SameResult (r : StoreRequest) : Except StoreError r.Answer → Except StoreError r.Answer → Prop
  | .ok a, .ok b => r.SameAnswer a b
  | .error e, .error f => e = f
  | _, _ => False

end StoreRequest

/-! ## One request -/

/-- What two stores hold that were asked the same. -/
structure Twinned (kind : JsonColumn) (clock : Instant) (s : LocalStore) (t : Tables) : Prop where
  ordered : s.Orderly kind clock
  mirrors : Mirrors kind s t

namespace Twinned

variable {kind : JsonColumn} {clock now : Instant} {s s' : LocalStore} {rows rows' : Tables}

theorem mono (h : Twinned kind clock s rows) (le : clock ≤ now) : Twinned kind now s rows :=
  ⟨h.ordered.mono le, h.mirrors⟩

theorem reordered (h : Twinned kind clock s rows) (same : s.Reordered s') (same' : rows.Reordered rows') :
    Twinned kind clock s' rows' :=
  ⟨h.ordered.reordered same, h.mirrors.reordered same same'⟩

end Twinned

/-! ### Changes -/

/-- Two ends of a change: the same result, as many identifiers taken, and twins left. -/
structure Alike (kind : JsonColumn) {α : Type} (clock : Instant) (x : Except StoreError α × StoreState LocalStore)
    (y : Except StoreError α × StoreState Tables) : Prop where
  result : x.1 = y.1
  issued : x.2.issued = y.2.issued
  twinned : Twinned kind clock x.2.rows y.2.rows

namespace Twinned

variable {kind : JsonColumn} {clock now : Instant} {m : StoreState LocalStore} {t : StoreState Tables} {w : StoreWrite}

theorem createJob {j : NewJob} (h : Twinned kind clock m.rows t.rows) (issued : m.issued = t.issued)
    (later : clock < now) (time : now.Columnar) (columnar : j.Columnar kind) :
    Alike kind now ((LocalStore.createJob noStoreFaults now j).on m)
      ((RelationalStore.createJob kind noStoreFaults now j).on t) := by
  rw [createJob_on columnar time, ← issued]
  exact ⟨rfl, rfl, h.ordered.addJob later columnar _, h.mirrors.setJob _ _⟩

theorem updateJob {c : JobChanges} (h : Twinned kind clock m.rows t.rows) (issued : m.issued = t.issued)
    (time : now.Columnar) (columnar : c.Columnar kind) (id : Identifier) :
    Alike kind clock ((LocalStore.updateJob noStoreFaults now id c).on m)
      ((RelationalStore.updateJob kind noStoreFaults now id c).on t) := by
  have row := h.mirrors.jobs id
  cases stored : m.rows.jobs.get? id with
  | none =>
    rw [stored] at row
    rw [RelationalStore.updateJob_gone columnar row]
    rw [LocalStore.updateJob_gone stored]
    exact ⟨rfl, issued, h⟩
  | some old =>
    rw [stored] at row
    have before := (h.ordered.job stored).1
    rw [RelationalStore.updateJob_on columnar before time row]
    rw [LocalStore.updateJob_on stored]
    exact ⟨rfl, issued, h.ordered.setJob stored (columnar.applyAt before now) rfl, h.mirrors.setJob _ _⟩

theorem deleteJob (h : Twinned kind clock m.rows t.rows) (issued : m.issued = t.issued) (id : Identifier) :
    Alike kind clock ((LocalStore.deleteJob noStoreFaults id).on m)
      ((RelationalStore.deleteJob noStoreFaults id).on t) := by
  obtain ⟨same, mirrors⟩ := h.mirrors.removeJob id
  exact ⟨congrArg Except.ok same.symm, issued, h.ordered.removeJob id, mirrors⟩

end Twinned

theorem Alike.map {kind : JsonColumn} {α β : Type} {clock : Instant} {x : Act StoreError (StoreState LocalStore) α}
    {y : Act StoreError (StoreState Tables) α} {m : StoreState LocalStore} {t : StoreState Tables}
    (h : Alike kind clock (x.on m) (y.on t)) (f : α → β) : Alike kind clock ((f <$> x).on m) ((f <$> y).on t) := by
  rw [Act.on_map, Act.on_map]
  exact ⟨congrArg (Except.map f) h.result, h.issued, h.twinned⟩

namespace Twinned

variable {kind : JsonColumn} {clock now : Instant} {m : StoreState LocalStore} {t : StoreState Tables} {w : StoreWrite}

/-- Every change ends alike. -/
theorem write (h : Twinned kind clock m.rows t.rows) (issued : m.issued = t.issued)
    (later : w.creates = true → clock < now) (time : now.Columnar) (columnar : w.Columnar kind) :
    Alike kind (if w.creates then now else clock) ((w.ask (LocalStore.jobStore noStoreFaults).toJobWriter now).on m)
      ((w.ask (RelationalStore.jobStore kind noStoreFaults).toJobWriter now).on t) := by
  cases w with
  | createJob j => exact (h.createJob issued (later rfl) time columnar).map _
  | updateJob id c => exact (h.updateJob issued time columnar id).map _
  | deleteJob id => exact (h.deleteJob issued id).map _

end Twinned

/-! ### Transactions -/

/-- A transaction without faults. -/
theorem JobStore.transact_on {ρ : Type} {S : JobStore (StoreState ρ) (Transaction ρ)} {now : Instant}
    {ws : List StoreWrite} {commits : Bool} {s s' : StoreState ρ} {t : Transaction ρ}
    {answers : List (Except StoreError WriteAnswer)}
    (opens : S.openTransaction = StoreState.openTransaction noStoreFaults)
    (ends : S.commit = StoreState.commit noStoreFaults)
    (asked : (StoreWrite.askAll S.inside now ws).on (⟨s.rows, now⟩, { s with sent := s.sent + 1 }) =
      (.ok answers, (t, s'))) :
    (S.transact now ws commits).on s =
      (.ok answers, if commits then ⟨t.working, s'.issued, s'.sent + 1⟩ else s') := by
  have opened : (StoreState.openTransaction noStoreFaults now).on s =
      (.ok ⟨s.rows, now⟩, { s with sent := s.sent + 1 }) := rfl
  simp only [JobStore.transact, Act.on_bind, opens, ends, opened, JobStore.within, Act.on_of, asked]
  cases commits <;> rfl

theorem map_within {ρ α β : Type} (f : α → β) (x : Instant → Act StoreError (StoreState ρ) α)
    (p : Transaction ρ × StoreState ρ) : (f <$> within x).on p = (within fun openedAt => f <$> x openedAt).on p := by
  simp only [within, Act.on_map, Act.on_of]

/-- Inside a transaction of the store in memory the clock is that of the change. -/
theorem LocalStore.ask_inside {faults : StoreFaults} (w : StoreWrite) (now : Instant)
    (p : Transaction LocalStore × StoreState LocalStore) :
    (w.ask (jobStore faults).inside now).on p = (within fun _ => w.ask (jobStore faults).toJobWriter now).on p := by
  cases w with
  | createJob j => exact map_within (Sum.inl : Job → WriteAnswer) (fun _ => createJob faults now j) p
  | updateJob id c => exact map_within (Sum.inl : Job → WriteAnswer) (fun _ => updateJob faults now id c) p
  | deleteJob id => exact map_within (Sum.inr : Bool → WriteAnswer) (fun _ => deleteJob faults id) p

/-- Inside a transaction of the store in tables it is that of the opening. -/
theorem RelationalStore.ask_inside {kind : JsonColumn} (w : StoreWrite) (now : Instant)
    (q : Transaction Tables × StoreState Tables) :
    (w.ask (jobStore kind noStoreFaults).inside now).on q =
      (within fun openedAt => w.ask (jobStore kind noStoreFaults).toJobWriter openedAt).on q := by
  cases w with
  | createJob j =>
    exact map_within (Sum.inl : Job → WriteAnswer) (fun openedAt => createJob kind noStoreFaults openedAt j) q
  | updateJob id c =>
    exact map_within (Sum.inl : Job → WriteAnswer) (fun openedAt => updateJob kind noStoreFaults openedAt id c) q
  | deleteJob id => exact map_within (Sum.inr : Bool → WriteAnswer) (fun _ => deleteJob noStoreFaults id) q

/-- Two transactions at work since some time, which nothing outside sees. -/
structure Midway (kind : JsonColumn) (now : Instant) (s : LocalStore) (rows : Tables) (clock : Instant)
    (p : Transaction LocalStore × StoreState LocalStore) (q : Transaction Tables × StoreState Tables) : Prop where
  opened : p.1.openedAt = now ∧ q.1.openedAt = now
  outside : p.2.rows = s ∧ q.2.rows = rows
  issued : p.2.issued = q.2.issued
  twinned : Twinned kind clock p.1.working q.1.working

namespace Midway

variable {kind : JsonColumn} {clock now : Instant} {s : LocalStore} {rows : Tables}
  {p : Transaction LocalStore × StoreState LocalStore} {q : Transaction Tables × StoreState Tables} {w : StoreWrite}
  {ws : List StoreWrite}

theorem write (h : Midway kind now s rows clock p q) (later : w.creates = true → clock < now) (time : now.Columnar)
    (columnar : w.Columnar kind) : ∃ r p' q', (w.ask (LocalStore.jobStore noStoreFaults).inside now).on p = (r, p') ∧
      (w.ask (RelationalStore.jobStore kind noStoreFaults).inside now).on q = (r, q') ∧
        Midway kind now s rows (if w.creates then now else clock) p' q' := by
  obtain ⟨opened, opened'⟩ := h.opened
  have alike := h.twinned.write (m := { p.2 with rows := p.1.working }) (t := { q.2 with rows := q.1.working })
    h.issued later time columnar
  rw [LocalStore.ask_inside, RelationalStore.ask_inside]
  simp only [within, Act.on_of, opened']
  exact ⟨_, _, _, rfl, Prod.ext alike.result.symm rfl, ⟨opened, rfl⟩, h.outside, alike.issued, alike.twinned⟩

theorem askAll (h : Midway kind now s rows clock p q) (before : clock ≤ now)
    (later : 0 < ws.countP StoreWrite.creates → clock < now) (one : ws.countP StoreWrite.creates ≤ 1)
    (time : now.Columnar) (columnar : ∀ w ∈ ws, w.Columnar kind) : ∃ answers p' q',
      (StoreWrite.askAll (LocalStore.jobStore noStoreFaults).inside now ws).on p = (.ok answers, p') ∧
        (StoreWrite.askAll (RelationalStore.jobStore kind noStoreFaults).inside now ws).on q = (.ok answers, q') ∧
          Midway kind now s rows now p' q' := by
  induction ws generalizing clock p q with
  | nil => exact ⟨[], p, q, rfl, rfl, h.opened, h.outside, h.issued, h.twinned.mono before⟩
  | cons w ws ih =>
    obtain ⟨first, rest⟩ := List.forall_mem_cons.mp columnar
    rw [List.countP_cons] at later one
    obtain ⟨r, p₁, q₁, on, on', midway⟩ := h.write (fun creates => later (by rw [if_pos creates]; omega)) time first
    -- The clock moves on with the one job that is created, so whatever else there is may come at the same time.
    obtain ⟨answers, p', q', all, all', ended⟩ : ∃ answers p' q', _ ∧ _ ∧ _ := by
      cases creates : w.creates with
      | true =>
        rw [creates, if_pos rfl] at one midway
        exact ih midway le_rfl (fun more => by omega) (by omega) rest
      | false =>
        rw [creates, if_neg Bool.false_ne_true] at one midway
        exact ih midway before (fun more => later (by omega)) one rest
    exact ⟨r :: answers, p', q', StoreWrite.askAll_cons on all, StoreWrite.askAll_cons on' all', ended⟩

end Midway

theorem Twinned.transact {kind : JsonColumn} {clock now : Instant} {m : StoreState LocalStore} {t : StoreState Tables}
    {ws : List StoreWrite} (h : Twinned kind clock m.rows t.rows) (issued : m.issued = t.issued) (later : clock < now)
    (time : now.Columnar)
    (columnar : ∀ w ∈ ws, w.Columnar kind) (one : ws.countP StoreWrite.creates ≤ 1) (commits : Bool) :
    Alike kind now (((LocalStore.jobStore noStoreFaults).transact now ws commits).on m)
      (((RelationalStore.jobStore kind noStoreFaults).transact now ws commits).on t) := by
  have start : Midway kind now m.rows t.rows clock (⟨m.rows, now⟩, { m with sent := m.sent + 1 })
      (⟨t.rows, now⟩, { t with sent := t.sent + 1 }) := ⟨⟨rfl, rfl⟩, ⟨rfl, rfl⟩, issued, h⟩
  obtain ⟨answers, p, q, on, on', ⟨-, outside, issued', twinned⟩⟩ :=
    start.askAll later.le (fun _ => later) one time columnar
  rw [JobStore.transact_on rfl rfl on, JobStore.transact_on rfl rfl on']
  cases commits with
  | true => exact ⟨rfl, issued', twinned⟩
  | false =>
    refine ⟨rfl, issued', ?_⟩
    show Twinned kind now p.2.rows q.2.rows
    rw [outside.1, outside.2]
    exact h.mono later.le

/-! ### All requests -/

namespace StoreRequest

variable {r : StoreRequest}

theorem SameResult.of_eq {a b : Except StoreError r.Answer} (same : a = b) : r.SameResult a b := by
  subst same
  cases a with
  | error e => exact rfl
  | ok a => cases r <;> first | exact rfl | exact List.Perm.refl _

/-- A request that may come at some time and with some identifier to hand out: later than the last, and the identifier
is that of nothing stored. -/
structure Fits (kind : JsonColumn) (r : StoreRequest) (clock now : Instant) (s : LocalStore) (issued : Nat) : Prop where
  later : clock < now
  time : now.Columnar
  newJob : s.jobs.get? (.generated (issued + 1)) = none
  newExecution : ∀ e ∈ s.executions, e.id ≠ .generated (issued + 1)
  columnar : r.Columnar kind

end StoreRequest

namespace Twinned

variable {kind : JsonColumn} {clock now : Instant} {m : StoreState LocalStore} {t : StoreState Tables} {r : StoreRequest}

theorem createExecution {e : NewExecution} (h : Twinned kind clock m.rows t.rows) (issued : m.issued = t.issued)
    (later : clock < now) (time : now.Columnar) (fresh : ∀ x ∈ m.rows.executions, x.id ≠ .generated (m.issued + 1))
    (columnar : e.Columnar kind) :
    ((LocalStore.createExecution noStoreFaults now e).on m).1 =
        ((RelationalStore.createExecution kind noStoreFaults now e).on t).1 ∧
      Twinned kind now ((LocalStore.createExecution noStoreFaults now e).on m).2.rows
        ((RelationalStore.createExecution kind noStoreFaults now e).on t).2.rows := by
  have same := h.mirrors.contains e.jobId
  cases owned : m.rows.jobs.contains e.jobId with
  | true =>
    rw [owned] at same
    rw [LocalStore.createExecution_on owned, RelationalStore.createExecution_on columnar time same, ← issued]
    exact ⟨rfl, h.ordered.addExecution later columnar fresh owned, h.mirrors.addExecution _⟩
  | false =>
    rw [owned] at same
    rw [LocalStore.createExecution_gone owned, RelationalStore.createExecution_gone columnar same]
    exact ⟨rfl, h.mono later.le⟩

/-- Every request is answered alike, and leaves twins. -/
theorem ask (h : Twinned kind clock m.rows t.rows) (issued : m.issued = t.issued)
    (fits : r.Fits kind clock now m.rows m.issued) :
    r.SameResult (((LocalStore.jobStore noStoreFaults).ask now r).on m).1
        (((RelationalStore.jobStore kind noStoreFaults).ask now r).on t).1 ∧
      Twinned kind now (((LocalStore.jobStore noStoreFaults).ask now r).on m).2.rows
        (((RelationalStore.jobStore kind noStoreFaults).ask now r).on t).2.rows := by
  obtain ⟨later, time, -, fresh, columnar⟩ := fits
  have kept := h.mono later.le
  cases r with
  | write w =>
    have alike := h.write issued (fun _ => later) time columnar
    refine ⟨.of_eq alike.result, alike.twinned.mono ?_⟩
    split
    · exact le_rfl
    · exact later.le
  | findJob environment id => exact ⟨.of_eq (h.mirrors.findJob h.ordered environment id).symm, kept⟩
  | findJobById id => exact ⟨.of_eq (h.mirrors.readJob h.ordered id).symm, kept⟩
  | listJobs environment => exact ⟨.of_eq (h.mirrors.listJobs h.ordered environment).symm, kept⟩
  | listEnabledJobs =>
    obtain ⟨jobs, read, perm⟩ := h.mirrors.listEnabledJobs h.ordered
    refine ⟨?_, kept⟩
    show StoreRequest.SameResult .listEnabledJobs (.ok m.rows.enabledJobs) (RelationalStore.listEnabledJobs t.rows)
    rw [read]
    exact perm
  | createExecution e =>
    obtain ⟨result, twinned⟩ := h.createExecution issued later time fresh columnar
    exact ⟨.of_eq result, twinned⟩
  | findExecution jobId id => exact ⟨.of_eq (h.mirrors.findExecution h.ordered jobId id).symm, kept⟩
  | listExecutions jobId filter => exact ⟨.of_eq (h.mirrors.listExecutions h.ordered jobId filter).symm, kept⟩
  | recentExecutions jobId limit =>
    have fits : FitsWord limit := by simpa only [StoreRequest.Columnar] using columnar
    have answer : (((RelationalStore.jobStore kind noStoreFaults).ask now (.recentExecutions jobId limit)).on t) =
        (.ok (m.rows.recent jobId limit), { t with sent := t.sent + 1 }) := by
      rw [← h.mirrors.recentExecutions h.ordered jobId fits]
      exact read_on .recentExecutions _
    rw [answer]
    exact ⟨.of_eq rfl, kept⟩
  | deleteExecutions jobId =>
    obtain ⟨result, mirrors⟩ : (RelationalStore.keepExecutions (·.jobId ≠ jobId) t.rows).1 =
        (LocalStore.keepExecutions (·.jobId ≠ jobId) m.rows).1 ∧ Mirrors kind _ _ :=
      h.mirrors.keepExecutions fun _ => rfl
    exact ⟨.of_eq (congrArg Except.ok result.symm), kept.ordered.keepExecutions _, mirrors⟩
  | deleteExecution jobId id =>
    obtain ⟨result, mirrors⟩ : (RelationalStore.keepExecutions (fun e => !(e.jobId == jobId && e.id == id)) t.rows).1 =
        (LocalStore.keepExecutions (fun e => !(e.jobId == jobId && e.id == id)) m.rows).1 ∧ Mirrors kind _ _ :=
      h.mirrors.keepExecutions fun _ => rfl
    exact ⟨.of_eq (congrArg (fun n : Nat => Except.ok (decide (n ≠ 0))) result.symm), kept.ordered.keepExecutions _,
      mirrors⟩
  | transaction ws commits =>
    have alike := h.transact issued later time columnar.1 columnar.2 commits
    exact ⟨.of_eq alike.result, alike.twinned⟩

end Twinned

/-! ## Runs -/

/-- Two stores that are asked the same from empty on, one request after the other, each at a later time. Both are
given the same identifier to hand out. Between requests jobs in memory and all rows of tables may come to lie in
another order. -/
inductive Twins (kind : JsonColumn) (t₀ : Instant) : Instant → StoreState LocalStore → StoreState Tables → Prop
  | start : Twins kind t₀ t₀ ⟨{}, 0, 0⟩ ⟨{}, 0, 0⟩
  | ask {clock now : Instant} {m : StoreState LocalStore} {t : StoreState Tables} {r : StoreRequest} (issued : Nat)
      (run : Twins kind t₀ clock m t) (fits : r.Fits kind clock now m.rows issued) :
      Twins kind t₀ now (((LocalStore.jobStore noStoreFaults).ask now r).on { m with issued }).2
        (((RelationalStore.jobStore kind noStoreFaults).ask now r).on { t with issued }).2
  | reorder {clock : Instant} {m : StoreState LocalStore} {t : StoreState Tables} {s : LocalStore} {rows : Tables}
      (run : Twins kind t₀ clock m t) (same : m.rows.Reordered s) (same' : t.rows.Reordered rows) :
      Twins kind t₀ clock { m with rows := s } { t with rows }

namespace Twinned

variable {kind : JsonColumn} {clock : Instant} {s : LocalStore} {rows : Tables} {row : JobRow}
  {execution : ExecutionRow}

end Twinned

variable {kind : JsonColumn} {t₀ clock : Instant} {m : StoreState LocalStore} {t : StoreState Tables}

theorem Twins.twinned (h : Twins kind t₀ clock m t) : Twinned kind clock m.rows t.rows := by
  induction h with
  | start => exact ⟨.empty t₀, .empty⟩
  | @ask clock now m t r issued _ fits ih =>
    exact (Twinned.ask (m := { m with issued }) (t := { t with issued }) ih rfl fits).2
  | reorder _ same same' ih => exact ih.reordered same same'

/-- A job with one function. -/
def jobFor (schedule : Schedule) (payload : Json) : NewJob :=
  ⟨"e", "a", schedule, [{ functionId := "f", event := payload }], .sequential, .enabled⟩

/-- An execution of the first job that is stored. -/
def firstExecution (processedOn : Option Instant) : NewExecution :=
  ⟨.generated 1, processedOn, none, [⟨"f", some 200, false⟩], [], .sequential, .finished, .interval 5⟩

end Timetable
