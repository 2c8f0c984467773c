import Timetable.Engine.Basic
import Timetable.Proofs.Act

/-!
# How the engine's steps end

One equivalence for each way in which the engine looks at the clock, at the queue or at the store. What calls functions
plays no part in most of what the engine does; `Invoker.obliging` stands for it.
-/

namespace Timetable

/-- Knows every function, and every call succeeds at once. -/
def Invoker.obliging : Invoker where
  missing _ := .ok []
  reply _ _ := { outcome := .ok (some 200) }

namespace World

variable {σ ρ ε α : Type} {w : World σ ρ}

theorem ends_time {Q : Instant → World σ ρ → Prop} {E : ε → World σ ρ → Prop} :
    (time : Act ε (World σ ρ) Instant).Ends w Q E ↔ Q w.now w := by
  simp only [time, Act.ends_bind, Act.ends_get, Act.ends_pure]

theorem ends_onQueue {x : Act QueueError σ α} {Q : α → World σ ρ → Prop} {E : QueueError → World σ ρ → Prop} :
    (onQueue x).Ends w Q E ↔ x.Ends w.queue (fun a q => Q a (w.putQueue q)) fun e q => E e (w.putQueue q) :=
  Act.ends_zoom

theorem ends_onStore {x : Act StoreError ρ α} {Q : α → World σ ρ → Prop} {E : StoreError → World σ ρ → Prop} :
    (onStore x).Ends w Q E ↔ x.Ends w.store (fun a s => Q a (w.putStore s)) fun e s => E e (w.putStore s) :=
  Act.ends_zoom

theorem ends_inTransaction {τ : Type} {t : τ} {x : Act StoreError (τ × ρ) α} {Q : α × τ → World σ ρ → Prop}
    {E : StoreError → World σ ρ → Prop} :
    (inTransaction t x).Ends w Q E ↔
      x.Ends (t, w.store) (fun a s => Q (a, s.1) (w.putStore s.2)) fun e s => E e (w.putStore s.2) := by
  simp only [Act.Ends, inTransaction, Act.on_of]
  obtain ⟨r, t, store⟩ := x.on (t, w.store)
  cases r <;> simp

end World

end Timetable
