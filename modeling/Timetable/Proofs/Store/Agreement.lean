import Timetable.Proofs.Store.Columns
import Timetable.Proofs.Store.Recent
import Timetable.Proofs.Table
import Mathlib.Data.Prod.Lex

/-!
# Tables that hold what a store in memory holds

`RelationalStore.Mirrors` relates the two stores: there is a row for each job and for each execution, in any order.
What is read of such rows is what is read in memory, as long as the store in memory is `LocalStore.Orderly`: whatever
it holds is columnar, no two jobs were created at the same time, and executions were stored at times that grow.

Rows are sorted by the statements that ask for them, executions in memory by their place. The order of the answer is
the same since no two of the times that count are equal (`mergeSort_eq_of_perm`).
-/

namespace Timetable

/-! ## Lists -/

/-- However a list lies, sorting by a key leads to the one that is strictly sorted by it. -/
theorem mergeSort_eq_of_perm {α γ : Type} [LinearOrder γ] (key : α → γ) {le : α → α → Bool}
    (sorts : ∀ a b, le a b = true ↔ key b ≤ key a) {l l' : List α} (perm : l'.Perm l)
    (strict : l.Pairwise fun a b => key b < key a) : l'.mergeSort le = l := by
  have trans (a b c : α) (h : le a b = true) (h' : le b c = true) : le a c = true :=
    (sorts a c).mpr (((sorts b c).mp h').trans ((sorts a b).mp h))
  have total (a b : α) : (le a b || le b a) = true := by
    simpa [sorts] using le_total (key b) (key a)
  have distinct : (l.map key).Nodup := List.pairwise_map.mpr (strict.imp fun h => h.ne')
  have ordered : l.Pairwise fun a b => le a b = true := strict.imp fun h => (sorts _ _).mpr h.le
  refine List.Perm.eq_of_pairwise (fun a b ha hb h h' => ?_) (List.pairwise_mergeSort trans total l') ordered
    ((List.mergeSort_perm l' le).trans perm)
  have mem : a ∈ l := perm.mem_iff.mp (List.mem_mergeSort.mp ha)
  exact List.inj_on_of_nodup_map distinct mem hb (le_antisymm ((sorts b a).mp h') ((sorts a b).mp h))

theorem mapM_eq_ok {α β ε : Type} {read : β → Except ε α} {l : List β} {l' : List α}
    (h : List.Forall₂ (fun b a => read b = .ok a) l l') : l.mapM read = .ok l' := by
  induction h with
  | nil => rfl
  | cons first _ ih =>
    rw [List.mapM_cons, first, ih]
    rfl

theorem forall₂_map {α β : Type} {R : β → α → Prop} {write : α → β} {l : List α} (h : ∀ a ∈ l, R (write a) a) :
    List.Forall₂ R (l.map write) l :=
  List.forall₂_map_left_iff.mpr (List.forall₂_same.mpr h)

/-- Where at most one item is looked for, it does not matter where it lies. -/
theorem find?_eq_of_perm {α : Type} {p : α → Bool} {l l' : List α} (perm : l'.Perm l)
    (one : ∀ a ∈ l, ∀ b ∈ l, p a = true → p b = true → a = b) : l'.find? p = l.find? p := by
  cases found : l.find? p with
  | none =>
    rw [List.find?_eq_none] at found ⊢
    exact fun a mem => found a (perm.mem_iff.mp mem)
  | some a =>
    have own : p a = true := List.find?_some found
    have mem : a ∈ l := List.mem_of_find?_eq_some found
    cases found' : l'.find? p with
    | none => exact absurd own (List.find?_eq_none.mp found' a (perm.mem_iff.mpr mem))
    | some b =>
      have other := List.find?_some found'
      rw [one b (perm.mem_iff.mp (List.mem_of_find?_eq_some found')) a mem other own]

/-! ## The store in memory -/

namespace LocalStore

variable {kind : JsonColumn} {s s' : LocalStore} {clock now : Instant} {id : Identifier}

/-- What a store may hold at some time after requests that came one by one. -/
structure Orderly (kind : JsonColumn) (clock : Instant) (s : LocalStore) : Prop where
  job : ∀ {id j}, s.jobs.get? id = some j → j.Columnar kind ∧ j.createdAt ≤ clock
  jobTimes : ∀ {id id' j j'}, s.jobs.get? id = some j → s.jobs.get? id' = some j' →
    j.createdAt = j'.createdAt → id = id'
  execution : ∀ e ∈ s.executions, e.Columnar kind ∧ e.createdAt ≤ clock
  executionTimes : s.executions.Pairwise fun a b => a.createdAt < b.createdAt
  executionIds : (s.executions.map (·.id)).Nodup
  owner : ∀ e ∈ s.executions, s.jobs.contains e.jobId = true

/-- The same jobs, in another order. -/
structure Reordered (s s' : LocalStore) : Prop where
  jobs : ∀ id, s'.jobs.get? id = s.jobs.get? id
  executions : s'.executions = s.executions

namespace Orderly

theorem empty (clock : Instant) : Orderly kind clock {} := by
  constructor <;> simp

theorem mono (h : s.Orderly kind clock) (le : clock ≤ now) : s.Orderly kind now where
  job stored := ⟨(h.job stored).1, (h.job stored).2.trans le⟩
  jobTimes := h.jobTimes
  execution e mem := ⟨(h.execution e mem).1, (h.execution e mem).2.trans le⟩
  executionTimes := h.executionTimes
  executionIds := h.executionIds
  owner := h.owner

theorem reordered (h : s.Orderly kind clock) (same : s.Reordered s') : s'.Orderly kind clock where
  job stored := h.job (same.jobs _ ▸ stored)
  jobTimes stored stored' := h.jobTimes (same.jobs _ ▸ stored) (same.jobs _ ▸ stored')
  execution e mem := h.execution e (same.executions ▸ mem)
  executionTimes := same.executions ▸ h.executionTimes
  executionIds := same.executions ▸ h.executionIds
  owner e mem := by
    rw [Table.contains, same.jobs]
    exact h.owner e (same.executions ▸ mem)

theorem addJob {j : NewJob} (h : s.Orderly kind clock) (later : clock < now) (columnar : j.Columnar kind)
    (id : Identifier) : (LocalStore.addJob id now j s).2.Orderly kind now where
  job {id' j'} stored := by
    simp only [LocalStore.addJob, Table.get?_set] at stored
    split at stored
    · cases stored
      exact ⟨columnar.store id now, le_rfl⟩
    · exact ⟨(h.job stored).1, (h.job stored).2.trans later.le⟩
  jobTimes {i i' a a'} stored stored' same := by
    simp only [LocalStore.addJob, Table.get?_set] at stored stored'
    split at stored <;> split at stored'
    · next own own' => exact own.symm.trans own'
    · cases stored
      exact absurd same ((h.job stored').2.trans_lt later).ne'
    · cases stored'
      exact absurd same ((h.job stored).2.trans_lt later).ne
    · exact h.jobTimes stored stored' same
  execution e mem := ⟨(h.execution e mem).1, (h.execution e mem).2.trans later.le⟩
  executionTimes := h.executionTimes
  executionIds := h.executionIds
  owner e mem := by
    have owned := h.owner e mem
    simp only [LocalStore.addJob, Table.contains_set, owned, Bool.or_true]

theorem setJob {j j' : Job} (h : s.Orderly kind clock) (stored : s.jobs.get? id = some j) (columnar : j'.Columnar kind)
    (same : j'.createdAt = j.createdAt) : ({ s with jobs := s.jobs.set id j' } : LocalStore).Orderly kind clock where
  job {i a} found := by
    simp only [Table.get?_set] at found
    split at found
    · cases found
      exact ⟨columnar, same ▸ (h.job stored).2⟩
    · exact h.job found
  jobTimes {i i' a a'} found found' time := by
    simp only [Table.get?_set] at found found'
    split at found <;> split at found'
    · next own own' => exact own.symm.trans own'
    · next own _ =>
      cases found
      exact own ▸ h.jobTimes stored found' (same ▸ time)
    · next _ own =>
      cases found'
      exact own ▸ h.jobTimes found stored (same ▸ time)
    · exact h.jobTimes found found' time
  execution := h.execution
  executionTimes := h.executionTimes
  executionIds := h.executionIds
  owner e mem := by
    have owned := h.owner e mem
    simp only [Table.contains_set, owned, Bool.or_true]

theorem keepExecutions (h : s.Orderly kind clock) (keep : JobExecution → Bool) :
    (LocalStore.keepExecutions keep s).2.Orderly kind clock where
  job := h.job
  jobTimes := h.jobTimes
  execution e mem := h.execution e (List.mem_of_mem_filter mem)
  executionTimes := h.executionTimes.filter keep
  executionIds := h.executionIds.sublist (List.filter_sublist.map _)
  owner e mem := h.owner e (List.mem_of_mem_filter mem)

theorem removeJob (h : s.Orderly kind clock) (id : Identifier) : (LocalStore.removeJob id s).2.Orderly kind clock := by
  unfold LocalStore.removeJob
  split
  · have kept := h.keepExecutions (·.jobId ≠ id)
    refine ⟨fun found => ?_, fun found found' => ?_, kept.execution, kept.executionTimes, kept.executionIds,
      fun e mem => ?_⟩
    · simp only [Table.get?_erase, Option.ite_none_left_eq_some] at found
      exact h.job found.2
    · simp only [Table.get?_erase, Option.ite_none_left_eq_some] at found found'
      exact h.jobTimes found.2 found'.2
    · obtain ⟨stored, other⟩ := List.mem_filter.mp mem
      have owned := h.owner e stored
      have other : id ≠ e.jobId := fun own => of_decide_eq_true other own.symm
      simp only [Table.contains_erase, owned, other, decide_false, Bool.not_false, Bool.and_true]
  · exact h

theorem addExecution {e : NewExecution} (h : s.Orderly kind clock) (later : clock < now) (columnar : e.Columnar kind)
    (fresh : ∀ x ∈ s.executions, x.id ≠ id) (owned : s.jobs.contains e.jobId = true) :
    (LocalStore.addExecution id now e s).2.Orderly kind now where
  job stored := ⟨(h.job stored).1, (h.job stored).2.trans later.le⟩
  jobTimes := h.jobTimes
  execution x mem := by
    rcases List.mem_append.mp mem with before | new
    · exact ⟨(h.execution x before).1, (h.execution x before).2.trans later.le⟩
    · obtain rfl := List.mem_singleton.mp new
      exact ⟨columnar.store, le_rfl⟩
  executionTimes := by
    refine List.pairwise_append.mpr ⟨h.executionTimes, List.pairwise_singleton _ _, fun x before y new => ?_⟩
    obtain rfl := List.mem_singleton.mp new
    exact (h.execution x before).2.trans_lt later
  executionIds := by
    simp only [LocalStore.addExecution, List.map_append, List.map_singleton]
    refine List.nodup_append.mpr ⟨h.executionIds, List.nodup_singleton _, fun x before y new same => ?_⟩
    obtain ⟨e', mem, rfl⟩ := List.mem_map.mp before
    exact fresh e' mem (same.trans (List.mem_singleton.mp new))
  owner x mem := by
    rcases List.mem_append.mp mem with before | new
    · exact h.owner x before
    · obtain rfl := List.mem_singleton.mp new
      exact owned

theorem columnar_job (h : s.Orderly kind clock) {j : Job} (mem : j ∈ s.jobs.values) : j.Columnar kind := by
  obtain ⟨id, stored⟩ := Table.mem_values_iff.mp mem
  exact (h.job stored).1

theorem columnar_execution (h : s.Orderly kind clock) {jobId : Identifier} {e : JobExecution}
    (mem : e ∈ s.executionsOf jobId) : e.Columnar kind :=
  (h.execution e (List.mem_reverse.mp (List.mem_of_mem_filter mem))).1

/-! ### Orders -/

theorem values_times (h : s.Orderly kind clock) : s.jobs.values.Pairwise fun a b => a.createdAt ≠ b.createdAt := by
  refine List.pairwise_map.mpr ?_
  refine (List.pairwise_map.mp s.jobs.nodup).imp_of_mem fun {a b} ha hb other same => other ?_
  exact h.jobTimes (Table.mem_pairs_iff.mp ha) (Table.mem_pairs_iff.mp hb) same

/-- The jobs of an environment, newest first, no two of the same time. -/
theorem jobsOf_strict (h : s.Orderly kind clock) (environment : String) :
    (s.jobsOf environment).Pairwise fun a b => b.createdAt < a.createdAt := by
  have sorted : (s.jobsOf environment).Pairwise fun a b => decide (b.createdAt ≤ a.createdAt) = true := by
    refine List.pairwise_mergeSort (fun a b c ab bc => ?_) (fun a b => ?_) _
    · simp only [decide_eq_true_eq] at ab bc ⊢
      exact bc.trans ab
    · simpa using le_total b.createdAt a.createdAt
  have distinct : (s.jobsOf environment).Pairwise fun a b => a.createdAt ≠ b.createdAt :=
    ((List.mergeSort_perm _ _).pairwise_iff fun ne => ne.symm).mpr (h.values_times.filter _)
  exact (sorted.and distinct).imp fun both => lt_of_le_of_ne (of_decide_eq_true both.1) both.2.symm

theorem executionsOf_strict (h : s.Orderly kind clock) (jobId : Identifier) :
    (s.executionsOf jobId).Pairwise fun a b => b.createdAt < a.createdAt :=
  (List.pairwise_reverse.mpr h.executionTimes).filter _

/-- The executions that were begun last come first, and of those that were begun alike the newest. -/
theorem latest_strict (h : s.Orderly kind clock) (jobId : Identifier) :
    ((s.executionsOf jobId).mergeSort JobExecution.begunNoEarlier).Pairwise fun a b =>
      toLex (b.begun, b.createdAt) < toLex (a.begun, a.createdAt) := by
  have newest := List.pairwise_iff_getElem.mp (h.executionsOf_strict jobId)
  generalize s.executionsOf jobId = history at newest
  rw [← List.mergeSort_zipIdx]
  refine List.pairwise_map.mpr ((JobExecution.pairwise_precedes history).imp_of_mem fun {a b} ha hb before => ?_)
  rw [List.mem_mergeSort, List.mem_zipIdx_iff_getElem?] at ha hb
  obtain ⟨ia, ha⟩ := List.getElem?_eq_some_iff.mp ha
  obtain ⟨ib, hb⟩ := List.getElem?_eq_some_iff.mp hb
  refine Prod.Lex.toLex_lt_toLex.mpr (before.imp_right fun ⟨same, place⟩ => ⟨same.symm, ?_⟩)
  have later := newest a.2 b.2 ia ib place
  rwa [ha, hb] at later

end Orderly

end LocalStore

/-! ## The rows of an execution by the times that count -/

namespace ExecutionRow

/-- When an execution was begun; one that never was comes before all times. -/
def begun (r : ExecutionRow) : WithBot Instant := r.processedOn

theorem begunNoEarlier_iff {a b : ExecutionRow} :
    a.begunNoEarlier b = true ↔ toLex (b.begun, b.createdAt) ≤ toLex (a.begun, a.createdAt) := by
  rw [Prod.Lex.toLex_le_toLex]
  unfold begunNoEarlier begun
  cases a.processedOn with
  | none =>
    cases b.processedOn with
    | none =>
      show decide (b.createdAt ≤ a.createdAt) = true ↔
        (⊥ : WithBot Instant) < ⊥ ∨ (⊥ : WithBot Instant) = ⊥ ∧ b.createdAt ≤ a.createdAt
      simp
    | some y =>
      show false = true ↔ (y : WithBot Instant) < ⊥ ∨ (y : WithBot Instant) = ⊥ ∧ b.createdAt ≤ a.createdAt
      simp
  | some x =>
    cases b.processedOn with
    | none =>
      show true = true ↔ (⊥ : WithBot Instant) < x ∨ (⊥ : WithBot Instant) = x ∧ b.createdAt ≤ a.createdAt
      simp
    | some y =>
      show (decide (y < x) || (x == y && decide (b.createdAt ≤ a.createdAt))) = true ↔
        (y : WithBot Instant) < x ∨ (y : WithBot Instant) = x ∧ b.createdAt ≤ a.createdAt
      rw [Bool.or_eq_true, Bool.and_eq_true, decide_eq_true_iff, decide_eq_true_iff, beq_iff_eq, WithBot.coe_lt_coe,
        WithBot.coe_inj, eq_comm]

end ExecutionRow

/-! ## Both stores -/

/-- The same rows, in another order. -/
structure Tables.Reordered (t t' : Tables) : Prop where
  jobs : ∀ id, t'.jobs.get? id = t.jobs.get? id
  executions : t'.executions.Perm t.executions

namespace RelationalStore

variable {kind : JsonColumn} {s s' : LocalStore} {t t' : Tables} {clock now : Instant} {id jobId : Identifier}

/-- The rows of tables are those of what a store in memory holds. -/
structure Mirrors (kind : JsonColumn) (s : LocalStore) (t : Tables) : Prop where
  jobs : ∀ id, t.jobs.get? id = (s.jobs.get? id).map (Job.row kind)
  executions : t.executions.Perm (s.executions.map (JobExecution.row kind))

namespace Mirrors

theorem empty : Mirrors kind {} {} := ⟨fun _ => rfl, .refl _⟩

theorem reordered (h : Mirrors kind s t) (same : s.Reordered s') (same' : t.Reordered t') : Mirrors kind s' t' where
  jobs id := by rw [same'.jobs, h.jobs, same.jobs]
  executions := same.executions ▸ same'.executions.trans h.executions

theorem contains (h : Mirrors kind s t) (id : Identifier) : t.jobs.contains id = s.jobs.contains id := by
  rw [Table.contains, h.jobs, Option.isSome_map, Table.contains]

theorem setJob (h : Mirrors kind s t) (j : Job) (id : Identifier) :
    Mirrors kind { s with jobs := s.jobs.set id j } { t with jobs := t.jobs.set id (j.row kind) } where
  jobs id' := by
    simp only [Table.get?_set, h.jobs]
    split <;> rfl
  executions := h.executions

theorem addExecution (h : Mirrors kind s t) (e : JobExecution) :
    Mirrors kind { s with executions := s.executions ++ [e] } { t with executions := t.executions ++ [e.row kind] } where
  jobs := h.jobs
  executions := by
    rw [List.map_append]
    exact h.executions.append_right _

/-- The rows of some executions. -/
theorem filter (h : Mirrors kind s t) {keep : JobExecution → Bool} {keepRow : ExecutionRow → Bool}
    (same : ∀ e : JobExecution, keepRow (e.row kind) = keep e) :
    (t.executions.filter keepRow).Perm ((s.executions.filter keep).map (JobExecution.row kind)) := by
  have kept : keepRow ∘ JobExecution.row kind = keep := funext same
  rw [← kept, ← List.filter_map]
  exact h.executions.filter keepRow

theorem keepExecutions (h : Mirrors kind s t) {keep : JobExecution → Bool} {keepRow : ExecutionRow → Bool}
    (same : ∀ e : JobExecution, keepRow (e.row kind) = keep e) :
    (RelationalStore.keepExecutions keepRow t).1 = (LocalStore.keepExecutions keep s).1 ∧
      Mirrors kind (LocalStore.keepExecutions keep s).2 (RelationalStore.keepExecutions keepRow t).2 := by
  have kept := h.filter same
  refine ⟨?_, h.jobs, kept⟩
  have all := h.executions.length_eq
  have some := kept.length_eq
  rw [List.length_map] at all some
  simp only [RelationalStore.keepExecutions, LocalStore.keepExecutions, all, some]

theorem removeJob (h : Mirrors kind s t) (id : Identifier) :
    (RelationalStore.removeJob id t).1 = (LocalStore.removeJob id s).1 ∧
      Mirrors kind (LocalStore.removeJob id s).2 (RelationalStore.removeJob id t).2 := by
  unfold RelationalStore.removeJob LocalStore.removeJob
  rw [h.contains]
  split
  · refine ⟨rfl, fun id' => ?_, h.filter fun _ => rfl⟩
    simp only [Table.get?_erase, h.jobs]
    split <;> rfl
  · exact ⟨rfl, h⟩

/-! ### What is read of rows -/

theorem readJob (h : Mirrors kind s t) (ordered : s.Orderly kind clock) (id : Identifier) :
    RelationalStore.readJob (t.jobs.get? id) = .ok (s.jobs.get? id) := by
  rw [h.jobs]
  cases stored : s.jobs.get? id with
  | none => rfl
  | some j =>
    show some <$> (j.row kind).job = _
    rw [Job.row_job (ordered.job stored).1]
    rfl

theorem findJob (h : Mirrors kind s t) (ordered : s.Orderly kind clock) (environment : String) (id : Identifier) :
    RelationalStore.findJob environment id t = .ok (s.jobIn? environment id) := by
  unfold RelationalStore.findJob LocalStore.jobIn?
  rw [h.jobs]
  cases stored : s.jobs.get? id with
  | none => rfl
  | some j =>
    have own : ((j.row kind).environment == environment) = (j.environment == environment) := rfl
    simp only [Option.map_some, Option.filter_some, own]
    split
    · show some <$> (j.row kind).job = _
      rw [Job.row_job (ordered.job stored).1]
      rfl
    · rfl

/-- The rows of some jobs. -/
theorem filter_values (h : Mirrors kind s t) {keep : Job → Bool} {keepRow : JobRow → Bool}
    (same : ∀ j : Job, keepRow (j.row kind) = keep j) :
    (t.jobs.values.filter keepRow).Perm ((s.jobs.values.filter keep).map (Job.row kind)) := by
  have kept : keepRow ∘ Job.row kind = keep := funext same
  rw [← kept, ← List.filter_map]
  exact (Table.perm_values h.jobs).filter keepRow

theorem listJobs (h : Mirrors kind s t) (ordered : s.Orderly kind clock) (environment : String) :
    RelationalStore.listJobs environment t = .ok (s.jobsOf environment) := by
  have perm : (t.jobs.values.filter (·.environment == environment)).Perm ((s.jobsOf environment).map (Job.row kind)) :=
    (h.filter_values fun _ => rfl).trans ((List.mergeSort_perm _ _).map _).symm
  have sorted : (t.jobs.values.filter (·.environment == environment)).mergeSort newestJobFirst =
      (s.jobsOf environment).map (Job.row kind) :=
    mergeSort_eq_of_perm JobRow.createdAt (fun a b => decide_eq_true_iff) perm
      (List.pairwise_map.mpr (ordered.jobsOf_strict environment))
  rw [RelationalStore.listJobs, sorted]
  refine mapM_eq_ok (forall₂_map fun j mem => Job.row_job (ordered.columnar_job ?_))
  exact List.mem_of_mem_filter (List.mem_mergeSort.mp mem)

theorem listEnabledJobs (h : Mirrors kind s t) (ordered : s.Orderly kind clock) :
    ∃ jobs, RelationalStore.listEnabledJobs t = .ok jobs ∧ s.enabledJobs.Perm jobs := by
  have same (j : Job) : ((j.row kind).status == JobStatus.enabled.text) = j.isEnabled := by
    unfold Job.isEnabled
    show (j.status.text == JobStatus.enabled.text) = _
    cases j.status <;> decide
  have reads : List.Forall₂ (fun r j => JobRow.job r = .ok j) (s.enabledJobs.map (Job.row kind)) s.enabledJobs :=
    forall₂_map fun j mem => Job.row_job (ordered.columnar_job (List.mem_of_mem_filter mem))
  have rows : (t.jobs.values.filter (·.status == JobStatus.enabled.text)).Perm (s.enabledJobs.map (Job.row kind)) :=
    h.filter_values same
  obtain ⟨jobs, read, perm⟩ := List.perm_comp_forall₂ rows reads
  exact ⟨jobs, mapM_eq_ok read, perm.symm⟩

/-- The rows of the executions of a job. -/
theorem executionsOf (h : Mirrors kind s t) (jobId : Identifier) :
    (RelationalStore.executionsOf t jobId).Perm ((s.executionsOf jobId).map (JobExecution.row kind)) := by
  refine (h.filter fun _ => rfl).trans (List.Perm.map _ ?_)
  exact (List.reverse_perm s.executions).symm.filter _

theorem findExecution (h : Mirrors kind s t) (ordered : s.Orderly kind clock) (jobId id : Identifier) :
    RelationalStore.findExecution jobId id t = .ok ((s.executionsOf jobId).find? (·.id == id)) := by
  have ids : ((s.executionsOf jobId).map (·.id)).Nodup := by
    have reversed : (s.executions.reverse.map (·.id)).Nodup := by
      rw [List.map_reverse, List.nodup_reverse]
      exact ordered.executionIds
    exact reversed.sublist (List.filter_sublist.map _)
  have one : ∀ a ∈ (s.executionsOf jobId).map (JobExecution.row kind),
      ∀ b ∈ (s.executionsOf jobId).map (JobExecution.row kind), (a.id == id) = true → (b.id == id) = true → a = b := by
    intro a ha b hb own own'
    obtain ⟨e, mem, rfl⟩ := List.mem_map.mp ha
    obtain ⟨e', mem', rfl⟩ := List.mem_map.mp hb
    have same : e.id = e'.id := (beq_iff_eq.mp own).trans (beq_iff_eq.mp own').symm
    rw [List.inj_on_of_nodup_map ids mem mem' same]
  unfold RelationalStore.findExecution
  rw [find?_eq_of_perm (h.executionsOf jobId) one, List.find?_map]
  have same : (fun r : ExecutionRow => r.id == id) ∘ JobExecution.row kind = fun e => e.id == id := rfl
  rw [same]
  cases found : (s.executionsOf jobId).find? fun e => e.id == id with
  | none => rfl
  | some e =>
    show some <$> (e.row kind).execution = _
    rw [JobExecution.row_execution (ordered.columnar_execution (List.mem_of_find?_eq_some found))]
    rfl

theorem hasStatus_row (f : ExecutionFilter) (e : JobExecution) : hasStatus f (e.row kind) = f.accepts e := by
  unfold hasStatus ExecutionFilter.accepts
  cases f.status with
  | none => rfl
  | some status =>
    show (e.status.text == status.text) = (e.status == status)
    cases e.status <;> cases status <;> decide

theorem listExecutions (h : Mirrors kind s t) (ordered : s.Orderly kind clock) (jobId : Identifier)
    (f : ExecutionFilter) : RelationalStore.listExecutions jobId f t = .ok ((s.executionsOf jobId).filter f.accepts) := by
  have perm : ((RelationalStore.executionsOf t jobId).filter (hasStatus f)).Perm
      (((s.executionsOf jobId).filter f.accepts).map (JobExecution.row kind)) := by
    have kept : hasStatus f ∘ JobExecution.row kind = f.accepts := funext (hasStatus_row f)
    rw [← kept, ← List.filter_map]
    exact (h.executionsOf jobId).filter _
  have sorted : ((RelationalStore.executionsOf t jobId).filter (hasStatus f)).mergeSort newestExecutionFirst =
      ((s.executionsOf jobId).filter f.accepts).map (JobExecution.row kind) :=
    mergeSort_eq_of_perm ExecutionRow.createdAt (fun a b => decide_eq_true_iff) perm
      (List.pairwise_map.mpr ((ordered.executionsOf_strict jobId).filter _))
  rw [RelationalStore.listExecutions, sorted]
  exact mapM_eq_ok (forall₂_map fun e mem =>
    JobExecution.row_execution (ordered.columnar_execution (List.mem_of_mem_filter mem)))

/-- A limit that fits a signed word is taken as it is. -/
theorem recentExecutions (h : Mirrors kind s t) (ordered : s.Orderly kind clock) (jobId : Identifier) {limit : Nat}
    (fits : FitsWord limit) : RelationalStore.recentExecutions jobId limit t = .ok (s.recent jobId limit) := by
  have perm : (RelationalStore.executionsOf t jobId).Perm
      (((s.executionsOf jobId).mergeSort JobExecution.begunNoEarlier).map (JobExecution.row kind)) :=
    (h.executionsOf jobId).trans ((List.mergeSort_perm _ _).map _).symm
  have sorted : (RelationalStore.executionsOf t jobId).mergeSort ExecutionRow.begunNoEarlier =
      ((s.executionsOf jobId).mergeSort JobExecution.begunNoEarlier).map (JobExecution.row kind) :=
    mergeSort_eq_of_perm (fun r => toLex (r.begun, r.createdAt)) (fun a b => ExecutionRow.begunNoEarlier_iff) perm
      (List.pairwise_map.mpr (ordered.latest_strict jobId))
  have rows : signedWord limit = limit := signedWord_of_fits fits
  unfold RelationalStore.recentExecutions
  rw [rows, if_neg (Int.not_lt.mpr (Int.natCast_nonneg limit)), Int.toNat_natCast, sorted, ← List.map_take]
  refine mapM_eq_ok (forall₂_map fun e mem => JobExecution.row_execution ?_)
  exact ordered.columnar_execution (List.mem_mergeSort.mp (List.mem_of_mem_take mem))

end Mirrors

end RelationalStore

end Timetable
