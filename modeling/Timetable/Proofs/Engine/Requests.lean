import Timetable.Engine.Lifecycle
import Timetable.Proofs.Act
import Timetable.Proofs.Schedule.Plan
import Timetable.Proofs.Store.Faulty

/-!
# What checked requests hold

The schedules of what the engine makes of a request were accepted, and the payloads are those of the request.
-/

namespace Timetable

/-- The payloads that a request names may be stored. -/
def UpdateJobRequest.Storable (r : UpdateJobRequest) : Prop :=
  ∀ fs, r.functions = some fs → ∀ f ∈ fs, f.toSpec.Storable

namespace Engine

variable {σ ρ τ : Type} {g : Engine σ ρ τ} {now : Instant} {changes : JobChanges}

theorem accepted_of_validate {schedule : Schedule} {purpose : ValidationPurpose}
    (h : g.validate schedule purpose now = .ok ()) : schedule.Accepted := by
  unfold validate at h
  cases hv : validateSchedule schedule g.policy purpose now with
  | ok _ => exact accepted_of_validateSchedule hv
  | error e =>
    rw [hv] at h
    cases h

theorem accepted_of_newJob {environment : String} {r : CreateJobRequest} {new : NewJob}
    (h : g.newJob environment r now = .ok new) : new.schedule.Accepted := by
  simp only [newJob, Act.except_bind_eq_ok] at h
  obtain ⟨name, _, functions, _, _, hv, h⟩ := h
  cases h
  exact accepted_of_validate hv

/-- The schedule that a checked request asks for. -/
theorem schedule_of_newJob {environment : String} {r : CreateJobRequest} {new : NewJob}
    (h : g.newJob environment r now = .ok new) : new.schedule = r.schedule := by
  simp only [newJob, Act.except_bind_eq_ok] at h
  obtain ⟨name, _, functions, _, _, _, h⟩ := h
  cases h
  rfl

theorem accepted_of_changes {r : UpdateJobRequest} (h : g.changes r now = .ok changes) {schedule : Schedule}
    (hs : changes.schedule = some schedule) : schedule.Accepted := by
  simp only [Engine.changes, Act.except_bind_eq_ok] at h
  obtain ⟨name, _, functions, _, _, hv, h⟩ := h
  cases h
  simp only at hs
  cases hv' : g.validate schedule .update now with
  | ok _ => exact accepted_of_validate hv'
  | error e => simp [hs, hv', discard, Functor.mapConst, Except.map] at hv

/-- Checked functions are those that were asked for. -/
theorem eq_map_of_validateFunctions {requests : List FunctionRequest} {specs : List FunctionSpec}
    (h : g.validateFunctions requests = .ok specs) : specs = requests.map FunctionRequest.toSpec := by
  unfold validateFunctions at h
  dsimp only at h
  split_ifs at h
  · cases h
  · split at h
    · cases h
    · obtain ⟨_, _, h⟩ := Act.except_bind_eq_ok.mp h
      exact (Except.ok.inj h).symm

theorem storable_of_changes {r : UpdateJobRequest} (h : g.changes r now = .ok changes) (hr : r.Storable) :
    changes.Storable := by
  simp only [Engine.changes, Act.except_bind_eq_ok] at h
  obtain ⟨name, _, functions, hf, _, _, h⟩ := h
  cases h
  intro specs hs f mem
  dsimp only at hs
  subst hs
  cases asked : r.functions with
  | none =>
    rw [asked] at hf
    cases hf
  | some requests =>
    rw [asked] at hf
    obtain ⟨specs', checked, ⟨⟩⟩ := Act.except_bind_eq_ok.mp hf
    obtain rfl := eq_map_of_validateFunctions checked
    obtain ⟨request, own, rfl⟩ := List.mem_map.mp mem
    exact hr requests asked request own

theorem schedule_of_changes {r : UpdateJobRequest} (h : g.changes r now = .ok changes) :
    changes.schedule = r.schedule := by
  simp only [Engine.changes, Act.except_bind_eq_ok] at h
  obtain ⟨name, _, functions, _, _, _, h⟩ := h
  cases h
  rfl

end Engine

end Timetable
