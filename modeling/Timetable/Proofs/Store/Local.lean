import Timetable.Engine.Basic
import Timetable.Store.Local

/-!
# The store in memory without faults

What each statement of the store in memory gives and leaves when none fails, as the engine sends it: only a
commit changes what is stored of a job that was there.
-/

namespace Timetable

open StoreState

namespace World

variable {σ : Type}

/-- The jobs that are stored. -/
def jobs (w : World σ (StoreState LocalStore)) : Table Identifier Job := w.store.rows.jobs

/-- One more statement was sent to the store. -/
def sentOne (w : World σ (StoreState LocalStore)) : World σ (StoreState LocalStore) :=
  w.putStore { w.store with sent := w.store.sent + 1 }

/-- A job was stored under the next identifier. -/
def stored (now : Instant) (new : NewJob) (w : World σ (StoreState LocalStore)) :
    World σ (StoreState LocalStore) :=
  w.putStore
    { rows := (LocalStore.addJob (.generated (w.store.issued + 1)) now new w.store.rows).2
      issued := w.store.issued + 1
      sent := w.store.sent + 1 }

/-- An execution was stored under the next identifier. -/
def executionStored (now : Instant) (new : NewExecution) (w : World σ (StoreState LocalStore)) :
    World σ (StoreState LocalStore) :=
  w.putStore
    { rows := (LocalStore.addExecution (.generated (w.store.issued + 1)) now new w.store.rows).2
      issued := w.store.issued + 1
      sent := w.store.sent + 1 }

theorem onStore_findJob_on (environment : String) (id : Identifier)
    (w : World σ (StoreState LocalStore)) :
    (onStore ((LocalStore.jobStore noStoreFaults).findJob environment id)).on w =
      (.ok (w.store.rows.jobIn? environment id), w.sentOne) := rfl

theorem onStore_findJobById_on (id : Identifier) (w : World σ (StoreState LocalStore)) :
    (onStore ((LocalStore.jobStore noStoreFaults).findJobById id)).on w =
      (.ok (w.jobs.get? id), w.sentOne) := rfl

theorem onStore_listEnabledJobs_on (w : World σ (StoreState LocalStore)) :
    (onStore (LocalStore.jobStore noStoreFaults).listEnabledJobs).on w =
      (.ok w.store.rows.enabledJobs, w.sentOne) := rfl

theorem onStore_recentExecutions_on (id : Identifier) (limit : Nat)
    (w : World σ (StoreState LocalStore)) :
    (onStore ((LocalStore.jobStore noStoreFaults).recentExecutions id limit)).on w =
      (.ok (w.store.rows.recent id limit), w.sentOne) := rfl

theorem onStore_createJob_on (now : Instant) (new : NewJob) (w : World σ (StoreState LocalStore)) :
    (onStore ((LocalStore.jobStore noStoreFaults).createJob now new)).on w =
      (.ok (new.store (.generated (w.store.issued + 1)) now), w.stored now new) := rfl

/-- An execution is stored beside the jobs. -/
theorem onStore_createExecution_on (now : Instant) (e : NewExecution)
    (w : World σ (StoreState LocalStore)) :
    ∃ saved store, (onStore ((LocalStore.jobStore noStoreFaults).createExecution now e)).on w =
      (.ok saved, w.putStore store) ∧ store.rows.jobs = w.store.rows.jobs := by
  simp only [onStore, Act.on_zoom, LocalStore.jobStore, LocalStore.createExecution, send,
    noStoreFaults, Act.on_of, Act.on_bind, Act.on_get]
  split
  · exact ⟨_, _, rfl, rfl⟩
  · exact ⟨_, _, rfl, rfl⟩

theorem onStore_createExecution_stored {e : NewExecution} (now : Instant) {w : World σ (StoreState LocalStore)}
    (stored : w.jobs.contains e.jobId = true) :
    (onStore ((LocalStore.jobStore noStoreFaults).createExecution now e)).on w =
      (.ok (some (e.store (.generated (w.store.issued + 1)) now)), w.executionStored now e) := by
  have stored : w.store.rows.jobs.contains e.jobId = true := stored
  simp only [onStore, Act.on_zoom, LocalStore.jobStore, LocalStore.createExecution, send, noStoreFaults, Act.on_of,
    Act.on_bind, Act.on_get, stored, if_true]
  rfl

theorem onStore_createExecution_gone {e : NewExecution} (now : Instant) {w : World σ (StoreState LocalStore)}
    (gone : w.jobs.contains e.jobId = false) :
    (onStore ((LocalStore.jobStore noStoreFaults).createExecution now e)).on w = (.ok none, w.sentOne) := by
  have gone : w.store.rows.jobs.contains e.jobId = false := gone
  simp only [onStore, Act.on_zoom, LocalStore.jobStore, LocalStore.createExecution, send, noStoreFaults, Act.on_of,
    Act.on_bind, Act.on_get, gone, Bool.false_eq_true, if_false]
  rfl

theorem onStore_openTransaction_on (now : Instant) (w : World σ (StoreState LocalStore)) :
    (onStore ((LocalStore.jobStore noStoreFaults).openTransaction now)).on w =
      (.ok ⟨w.store.rows, now⟩, w.sentOne) := rfl

theorem onStore_commit_on (t : Transaction LocalStore) (w : World σ (StoreState LocalStore)) :
    (onStore ((LocalStore.jobStore noStoreFaults).commit t)).on w =
      (.ok (), w.sentOne.putStore { w.sentOne.store with rows := t.working }) := rfl

theorem inTransaction_updateJob_on {rows : LocalStore} {at_ now : Instant} {id : Identifier}
    {job : Job} {changes : JobChanges} (h : rows.jobs.get? id = some job)
    (w : World σ (StoreState LocalStore)) :
    (inTransaction (⟨rows, at_⟩ : Transaction LocalStore)
        ((LocalStore.jobStore noStoreFaults).inside.updateJob now id changes)).on w =
      (.ok (changes.applyAt now job,
          ⟨{ rows with jobs := rows.jobs.set id (changes.applyAt now job) }, at_⟩), w.sentOne) := by
  simp only [inTransaction, LocalStore.jobStore, within, LocalStore.updateJob, send, noStoreFaults,
    onRows, LocalStore.changeJob, Act.on_of, Act.on_zoom, Act.on_bind, Act.on_get, h, Act.on_set,
    Act.on_pure, sentOne]

theorem inTransaction_deleteJob_on {rows : LocalStore} {at_ : Instant} {id : Identifier}
    (h : rows.jobs.contains id = true) (w : World σ (StoreState LocalStore)) :
    (inTransaction (⟨rows, at_⟩ : Transaction LocalStore)
        ((LocalStore.jobStore noStoreFaults).inside.deleteJob id)).on w =
      (.ok (true, ⟨{ rows with
          jobs := rows.jobs.erase id
          executions := rows.executions.filter (·.jobId ≠ id) }, at_⟩), w.sentOne) := by
  simp only [inTransaction, LocalStore.jobStore, within, LocalStore.deleteJob, send, noStoreFaults,
    change, LocalStore.removeJob, h, if_true, Act.on_of, sentOne]

theorem inTransaction_updateJob_gone {rows : LocalStore} {at_ now : Instant} {id : Identifier} {changes : JobChanges}
    (h : rows.jobs.get? id = none) (w : World σ (StoreState LocalStore)) :
    (inTransaction (⟨rows, at_⟩ : Transaction LocalStore)
        ((LocalStore.jobStore noStoreFaults).inside.updateJob now id changes)).on w =
      (.error (.notFound ("job " ++ id.text)), w.sentOne) := by
  simp only [inTransaction, LocalStore.jobStore, within, LocalStore.updateJob, send,
    noStoreFaults, onRows, LocalStore.changeJob, Act.on_of, Act.on_zoom, Act.on_bind, Act.on_get, h,
    Act.on_throw, sentOne]

theorem inTransaction_deleteJob_gone {rows : LocalStore} {at_ : Instant} {id : Identifier}
    (h : rows.jobs.contains id = false) (w : World σ (StoreState LocalStore)) :
    (inTransaction (⟨rows, at_⟩ : Transaction LocalStore)
        ((LocalStore.jobStore noStoreFaults).inside.deleteJob id)).on w = (.ok (false, ⟨rows, at_⟩), w.sentOne) := by
  simp only [inTransaction, LocalStore.jobStore, within, LocalStore.deleteJob, send,
    noStoreFaults, change, LocalStore.removeJob, h, Bool.false_eq_true, if_false, Act.on_of, sentOne]

end World

end Timetable
