import Timetable.Proofs.Act
import Timetable.Proofs.Job.Storable
import Timetable.Store.Local
import Timetable.Store.Relational

/-!
# Stores in which statements fail, and stores in which none does

What the engine relies on when it changes a job in a transaction, whatever statements of the store fail: nothing
of the transaction shows in the rows before its commit, and a commit that fails leaves them as they were. Both stores
are `FaultyStore.Lawful`.

What a pass of reconciliation relies on where nothing fails: the list of enabled jobs is read of the rows, which stay as
they are (`CalmStore.Lawful`).
-/

namespace Timetable

open StoreState

/-! ## Statements -/

namespace StoreState

variable {ρ α : Type} {faults : StoreFaults} {call : StoreCall} {s : StoreState ρ} {t : Transaction ρ}
  {Q : α → StoreState ρ → Prop} {E : StoreError → StoreState ρ → Prop}

/-- A statement fails, or it has its effect. -/
theorem ends_send {effect : Act StoreError (StoreState ρ) α}
    (fails : ∀ e, faults s.sent call = some e → E e { s with sent := s.sent + 1 })
    (runs : effect.Ends { s with sent := s.sent + 1 } Q E) : (send faults call effect).Ends s Q E := by
  unfold send Act.Ends
  rw [Act.on_of]
  cases fault : faults s.sent call with
  | some e =>
    refine ⟨nofun, ?_⟩
    rintro _ ⟨⟩
    exact fails e fault
  | none => exact runs

theorem ends_read {f : ρ → Except StoreError α} :
    (read f).Ends s Q E ↔ (∀ a, f s.rows = .ok a → Q a s) ∧ ∀ e, f s.rows = .error e → E e s := Iff.rfl

theorem ends_onRows {x : Act StoreError ρ α} :
    (onRows x).Ends s Q E ↔
      x.Ends s.rows (fun a rows => Q a { s with rows }) fun e rows => E e { s with rows } := Act.ends_zoom

/-- What is done in a transaction shows nowhere else. -/
theorem ends_within {x : Instant → Act StoreError (StoreState ρ) α} {Q : α → Transaction ρ × StoreState ρ → Prop}
    {E : StoreError → Transaction ρ × StoreState ρ → Prop} :
    (within x).Ends (t, s) Q E ↔ (x t.openedAt).Ends { s with rows := t.working }
      (fun a s' => Q a ({ t with working := s'.rows }, { s' with rows := s.rows }))
      fun e s' => E e ({ t with working := s'.rows }, { s' with rows := s.rows }) := Iff.rfl

theorem within_rows (x : Instant → Act StoreError (StoreState ρ) α) :
    (within x).Ends (t, s) (fun _ x => x.2.rows = s.rows) fun _ x => x.2.rows = s.rows :=
  ends_within.mpr ⟨fun _ _ => rfl, fun _ _ => rfl⟩

end StoreState

/-! ## Schedules in columns -/

namespace Schedule

variable {s s' : Schedule}

/-- The same schedule, or both execute once. -/
def Alike (s s' : Schedule) : Prop := s = s' ∨ s.spec? = none ∧ s'.spec? = none

theorem Alike.spec? (h : s.Alike s') : s.spec? = s'.spec? := by
  rcases h with rfl | ⟨h, h'⟩
  · rfl
  · rw [h, h']

theorem accepted_of_spec?_eq_none (h : s.spec? = none) : s.Accepted := by
  cases s with
  | onTime => trivial
  | _ => cases h

theorem Alike.accepted (h : s.Alike s') (accepted : s'.Accepted) : s.Accepted := by
  rcases h with rfl | ⟨once, _⟩
  · exact accepted
  · exact accepted_of_spec?_eq_none once

end Schedule

/-- Columns give back the schedule that they were filled with, but for what is lost of an instant. -/
theorem ScheduleColumns.alike_of_schedule {s s' : Schedule} {c : ScheduleColumns} (written : ofSchedule s = .ok c)
    (read : c.schedule = .ok s') : s'.Alike s := by
  cases s with
  | interval minutes =>
    simp only [ofSchedule] at written
    split at written
    · cases written
      have column : minutes? (some (minutes : Int)) = some minutes := by simp [minutes?]
      have : Schedule.interval minutes = s' := Except.ok.inj <| by
        rw [← read]
        simp only [schedule, scheduleOf, readWord, ScheduleType.parse, parseWord, ScheduleType.ofText?_text, column]
        rfl
      exact .inl this.symm
    · cases written
  | periodical expression =>
    cases written
    cases read
    exact .inl rfl
  | onTime at_ =>
    cases written
    cases read
    exact .inr ⟨rfl, rfl⟩

/-! ## Changes of a job -/

/-- What changes make of a job, but for what a store loses of an instant. -/
structure JobChanges.Makes (c : JobChanges) (old new : Job) : Prop where
  id : new.id = old.id
  schedule : new.schedule.Alike (c.applyTo old).schedule
  storable : new.Storable

/-- The functions that changes name may be stored. -/
def JobChanges.Storable (c : JobChanges) : Prop := ∀ fs, c.functions = some fs → ∀ f ∈ fs, f.Storable

namespace JobChanges

variable {c : JobChanges} {old new : Job}

theorem Storable.applyTo (h : c.Storable) (hold : old.Storable) : (c.applyTo old).Storable := by
  show ∀ f ∈ c.functions.getD old.functions, f.Storable
  cases functions : c.functions with
  | none => exact hold
  | some fs => exact h fs functions

theorem makes_applyAt (h : c.Storable) (hold : old.Storable) (now : Instant) : c.Makes old (c.applyAt now old) :=
  ⟨rfl, .inl rfl, h.applyTo hold⟩

/-- What is read of a changed row. -/
theorem makes_of_row {kind : JsonColumn} {r : JobRow} {now : Instant} {columns : Option ScheduleColumns} (h : c.Storable)
    (hold : old.Storable) (before : r.job = .ok old) (written : c.schedule.mapM ScheduleColumns.ofSchedule = .ok columns)
    (after : (r.change kind now c columns).job = .ok new) : c.Makes old new := by
  simp only [JobRow.job, Act.except_bind_eq_ok] at before after
  obtain ⟨schedule, hs, functions, hf, _, _, _, _, ⟨⟩⟩ := before
  obtain ⟨schedule', hs', functions', hf', _, _, _, _, ⟨⟩⟩ := after
  refine ⟨rfl, ?_, ?_⟩
  · show schedule'.Alike (c.schedule.getD schedule)
    change (ScheduleColumns.change columns r.schedule).schedule = .ok schedule' at hs'
    rw [ScheduleColumns.change_eq] at hs'
    cases asked : c.schedule with
    | none =>
      rw [asked] at written
      cases written
      exact .inl (Except.ok.inj (hs'.symm.trans hs))
    | some s =>
      rw [asked] at written
      obtain ⟨column, hc, written⟩ := Act.except_bind_eq_ok.mp written
      cases written
      exact ScheduleColumns.alike_of_schedule hc hs'
  · show ∀ f ∈ functions', f.Storable
    change readFunctions jobsTable ((c.functions.map (functionsText kind)).getD r.functions) = .ok functions' at hf'
    cases asked : c.functions with
    | none =>
      rw [asked] at hf'
      obtain rfl : functions = functions' := Except.ok.inj (hf.symm.trans hf')
      exact hold
    | some fs =>
      rw [asked] at hf'
      exact FunctionSpec.storable_of_readFunctions (h fs asked) hf'

end JobChanges

/-! ## Stores -/

/-- A store some statements of which fail. -/
structure FaultyStore (ρ : Type) where
  store : JobStore (StoreState ρ) (Transaction ρ)
  /-- The job of an environment under an identifier, as it is read of the rows. -/
  find : ρ → String → Identifier → Except StoreError (Option Job)
  /-- No commit fails. -/
  Commits : Prop

namespace FaultyStore

variable {ρ : Type}

/-- What becomes of the rows while a job is changed. -/
structure Lawful (S : FaultyStore ρ) : Prop where
  findJob : ∀ {s} environment id, (S.store.findJob environment id).Ends s
    (fun job s' => s'.rows = s.rows ∧ S.find s.rows environment id = .ok job) fun _ s' => s'.rows = s.rows
  openTransaction : ∀ {s} now, (S.store.openTransaction now).Ends s
    (fun t s' => s'.rows = s.rows ∧ t.working = s.rows) fun _ s' => s'.rows = s.rows
  updateJob : ∀ {t s environment old} now {changes : JobChanges},
    S.find t.working environment old.id = .ok (some old) → old.Storable → changes.Storable →
      (S.store.inside.updateJob now old.id changes).Ends (t, s)
        (fun new x => x.2.rows = s.rows ∧ changes.Makes old new) fun _ x => x.2.rows = s.rows
  deleteJob : ∀ {t s} id, (S.store.inside.deleteJob id).Ends (t, s)
    (fun _ x => x.2.rows = s.rows) fun _ x => x.2.rows = s.rows
  commit : ∀ {s} t, (S.store.commit t).Ends s (fun _ _ => True) fun _ s' => s'.rows = s.rows ∧ ¬ S.Commits

variable {faults : StoreFaults} {s : StoreState ρ}

theorem openTransaction_ends (faults : StoreFaults) (now : Instant) :
    (StoreState.openTransaction faults now).Ends s (fun t s' => s'.rows = s.rows ∧ t.working = s.rows)
      fun _ s' => s'.rows = s.rows := by
  refine ends_send (fun _ _ => rfl) ⟨?_, nofun⟩
  rintro _ ⟨⟩
  exact ⟨rfl, rfl⟩

theorem commit_ends (faults : StoreFaults) (t : Transaction ρ) :
    (StoreState.commit faults t).Ends s (fun _ _ => True)
      fun _ s' => s'.rows = s.rows ∧ ¬ ∀ n, faults n .commit = none := by
  refine ends_send (fun e fault => ⟨rfl, fun none => ?_⟩) ⟨fun _ _ => trivial, nofun⟩
  rw [none] at fault
  cases fault

theorem findJob_ends (faults : StoreFaults) {find : ρ → Except StoreError (Option Job)} :
    (send faults .findJob (read find)).Ends s (fun job s' => s'.rows = s.rows ∧ find s.rows = .ok job)
      fun _ s' => s'.rows = s.rows :=
  ends_send (fun _ _ => rfl) (ends_read.mpr ⟨fun _ found => ⟨rfl, found⟩, fun _ _ => rfl⟩)

/-! ## In memory -/

/-- The store in memory, with faults. -/
def memory (faults : StoreFaults) : FaultyStore LocalStore where
  store := LocalStore.jobStore faults
  find s environment id := .ok (s.jobIn? environment id)
  Commits := ∀ n, faults n .commit = none

theorem lawful_memory (faults : StoreFaults) : (memory faults).Lawful where
  findJob _ _ := findJob_ends faults
  openTransaction := openTransaction_ends faults
  updateJob {t s environment old} now changes found hold hc := by
    have stored : t.working.jobs.get? old.id = some old :=
      Option.eq_some_of_filter_eq_some (Except.ok.inj found)
    show (within fun _ => LocalStore.updateJob faults now old.id changes).Ends (t, s) _ _
    refine ends_within.mpr (ends_send (fun _ _ => rfl) (ends_onRows.mpr ?_))
    simp only [LocalStore.changeJob, Act.ends_bind, Act.ends_get, stored, Act.ends_set, Act.ends_pure]
    exact ⟨trivial, JobChanges.makes_applyAt hc hold now⟩
  deleteJob _ := within_rows _
  commit := commit_ends faults

/-! ## In tables -/

/-- The store in tables, with faults. -/
def tables (kind : JsonColumn) (faults : StoreFaults) : FaultyStore Tables where
  store := RelationalStore.jobStore kind faults
  find t environment id := RelationalStore.findJob environment id t
  Commits := ∀ n, faults n .commit = none

/-- The row of which a job is read. -/
theorem row_of_findJob {t : Tables} {environment : String} {id : Identifier} {job : Job}
    (found : RelationalStore.findJob environment id t = .ok (some job)) :
    ∃ r, t.jobs.get? id = some r ∧ r.job = .ok job := by
  unfold RelationalStore.findJob at found
  cases row : (t.jobs.get? id).filter (·.environment == environment) with
  | none =>
    rw [row] at found
    cases found
  | some r =>
    rw [row] at found
    refine ⟨r, Option.eq_some_of_filter_eq_some row, ?_⟩
    cases read : r.job with
    | ok j =>
      simp only [RelationalStore.readJob, read] at found
      cases found
      rfl
    | error e =>
      simp only [RelationalStore.readJob, read] at found
      cases found

theorem lawful_tables (kind : JsonColumn) (faults : StoreFaults) : (tables kind faults).Lawful where
  findJob _ _ := findJob_ends faults
  openTransaction := openTransaction_ends faults
  updateJob {t s environment old} now changes found hold hc := by
    obtain ⟨r, stored, before⟩ := row_of_findJob found
    show (within fun openedAt => RelationalStore.updateJob kind faults openedAt old.id changes).Ends (t, s) _ _
    refine ends_within.mpr (Act.ends_bind.mpr (Act.ends_ofExcept.mpr ⟨fun columns written => ?_, fun _ _ => rfl⟩))
    refine ends_send (fun _ _ => rfl) (ends_onRows.mpr ?_)
    simp only [RelationalStore.changeJob, Act.ends_bind, Act.ends_get, stored, Act.ends_set, Act.ends_ofExcept]
    refine ⟨fun _ _ => ⟨fun new after => ⟨trivial, ?_⟩, fun _ _ => trivial⟩, fun _ _ => trivial⟩
    exact JobChanges.makes_of_row hc hold before written after
  deleteJob _ := within_rows _
  commit := commit_ends faults

/-- One of the two stores. -/
inductive Implemented : {ρ : Type} → FaultyStore ρ → Prop
  | memory (faults : StoreFaults) : Implemented (memory faults)
  | tables (kind : JsonColumn) (faults : StoreFaults) : Implemented (tables kind faults)

theorem Implemented.lawful {S : FaultyStore ρ} (h : S.Implemented) : S.Lawful := by
  cases h with
  | memory faults => exact lawful_memory faults
  | tables kind faults => exact lawful_tables kind faults

end FaultyStore

/-! ## Stores in which nothing fails -/

/-- A store no statement of which fails. -/
structure CalmStore (ρ τ β : Type) where
  store : JobStore ρ τ
  /-- What is kept in the store. -/
  rows : ρ → β
  /-- The enabled jobs, as they are read of the rows. -/
  enabled : β → Except StoreError (List Job)

namespace CalmStore

variable {ρ τ β : Type}

def Lawful (S : CalmStore ρ τ β) : Prop :=
  ∀ s, S.store.listEnabledJobs.Ends s (fun jobs s' => S.rows s' = S.rows s ∧ S.enabled (S.rows s) = .ok jobs)
    fun e s' => S.rows s' = S.rows s ∧ S.enabled (S.rows s) = .error e

/-- The store in memory. -/
def memory : CalmStore (StoreState LocalStore) (Transaction LocalStore) LocalStore where
  store := LocalStore.jobStore noStoreFaults
  rows := StoreState.rows
  enabled s := .ok s.enabledJobs

/-- The store in tables. -/
def tables (kind : JsonColumn) : CalmStore (StoreState Tables) (Transaction Tables) Tables where
  store := RelationalStore.jobStore kind noStoreFaults
  rows := StoreState.rows
  enabled := RelationalStore.listEnabledJobs

theorem list_ends {s : StoreState β} {list : β → Except StoreError (List Job)} :
    (send noStoreFaults .listEnabledJobs (read list)).Ends s
      (fun jobs s' => s'.rows = s.rows ∧ list s.rows = .ok jobs)
      fun e s' => s'.rows = s.rows ∧ list s.rows = .error e :=
  ends_send nofun (ends_read.mpr ⟨fun _ h => ⟨rfl, h⟩, fun _ h => ⟨rfl, h⟩⟩)

/-- One of the two stores. -/
inductive Implemented : {ρ τ β : Type} → CalmStore ρ τ β → Prop
  | memory : Implemented memory
  | tables (kind : JsonColumn) : Implemented (tables kind)

theorem Implemented.lawful {S : CalmStore ρ τ β} (h : S.Implemented) : S.Lawful := by
  cases h <;> exact fun _ => list_ends

end CalmStore

end Timetable
