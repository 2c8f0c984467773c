import Timetable.Act

/-!
# How actions end, and within which scope

`x.Ends s Q E`: run on `s`, the action `x` gives a result and leaves a state for which `Q` holds, or it fails with
an error and leaves a state for which `E` holds. One equivalence for each way of building an action turns a claim
about a whole operation into claims about its parts, in the order in which they run.

A scope says which part of a state an action may use: how a state may differ after it (`Scope.frame`), and when two states
look the same to it (`Scope.alike`). An action is `Within` a scope if it changes nothing else and if nothing else has a say
in what comes of it: in states that look the same it gives the same result, errors included, and leaves states that look
the same. Actions within a scope can be put together, so this is shown once for each of the smallest ones.
-/

namespace Timetable.Act

variable {ε ε' σ ω α β : Type}

def Ends (x : Act ε σ α) (s : σ) (Q : α → σ → Prop) (E : ε → σ → Prop) : Prop :=
  (∀ a, (x.on s).1 = .ok a → Q a (x.on s).2) ∧ ∀ e, (x.on s).1 = .error e → E e (x.on s).2

variable {x : Act ε σ α} {s : σ} {Q Q' : α → σ → Prop} {E E' : ε → σ → Prop}

theorem ends_of_on_ok {a : α} {s' : σ} (h : x.on s = (.ok a, s')) : x.Ends s Q E ↔ Q a s' := by
  simp [Ends, h]

theorem ends_of_on_error {e : ε} {s' : σ} (h : x.on s = (.error e, s')) :
    x.Ends s Q E ↔ E e s' := by
  simp [Ends, h]

theorem Ends.mono (h : x.Ends s Q E) (hQ : ∀ a s', Q a s' → Q' a s') (hE : ∀ e s', E e s' → E' e s') :
    x.Ends s Q' E' :=
  ⟨fun a ha => hQ a _ (h.1 a ha), fun e he => hE e _ (h.2 e he)⟩

/-- An action ends once, so two conclusions about its end hold together. -/
theorem Ends.and (h : x.Ends s Q E) (h' : x.Ends s Q' E') :
    x.Ends s (fun a s' => Q a s' ∧ Q' a s') fun e s' => E e s' ∧ E' e s' :=
  ⟨fun a ha => ⟨h.1 a ha, h'.1 a ha⟩, fun e he => ⟨h.2 e he, h'.2 e he⟩⟩

@[simp] theorem ends_pure {a : α} : (pure a : Act ε σ α).Ends s Q E ↔ Q a s :=
  ends_of_on_ok (on_pure a s)

@[simp] theorem ends_throw {e : ε} : (throw e : Act ε σ α).Ends s Q E ↔ E e s :=
  ends_of_on_error (on_throw e s)

theorem ends_bind {f : α → Act ε σ β} {Q : β → σ → Prop} :
    (x >>= f).Ends s Q E ↔ x.Ends s (fun a s' => (f a).Ends s' Q E) E := by
  simp only [Ends, on_bind]
  obtain ⟨r, s'⟩ := x.on s
  cases r <;> simp

theorem ends_map {f : α → β} {Q : β → σ → Prop} :
    (f <$> x).Ends s Q E ↔ x.Ends s (fun a => Q (f a)) E := by
  rw [map_eq_pure_bind, ends_bind]
  simp only [ends_pure]

theorem ends_discard {Q : Unit → σ → Prop} :
    (discard x : Act ε σ Unit).Ends s Q E ↔ x.Ends s (fun _ => Q ()) E := by
  simp only [discard, Functor.mapConst, Function.comp_def]
  exact ends_map

@[simp] theorem ends_get {Q : σ → σ → Prop} : (get : Act ε σ σ).Ends s Q E ↔ Q s s :=
  ends_of_on_ok (on_get s)

@[simp] theorem ends_set {t : σ} {Q : Unit → σ → Prop} : (set t : Act ε σ Unit).Ends s Q E ↔ Q () t :=
  ends_of_on_ok (on_set s t)

@[simp] theorem ends_modify {f : σ → σ} {Q : Unit → σ → Prop} :
    (modify f : Act ε σ Unit).Ends s Q E ↔ Q () (f s) :=
  ends_of_on_ok (on_modify f s)

theorem ends_ofExcept {r : Except ε α} :
    (ofExcept r : Act ε σ α).Ends s Q E ↔ (∀ a, r = .ok a → Q a s) ∧ ∀ e, r = .error e → E e s := by
  simp [Ends]

theorem ends_mapError {f : ε → ε'} {E : ε' → σ → Prop} :
    (x.mapError f).Ends s Q E ↔ x.Ends s Q fun e => E (f e) := by
  have ok (a : α) : (Except.ok a : Except ε α).mapError f = .ok a := rfl
  have error (e : ε) : (Except.error e : Except ε α).mapError f = .error (f e) := rfl
  simp only [Ends, on_mapError]
  obtain ⟨r, s'⟩ := x.on s
  cases r <;> simp [ok, error]

theorem ends_attemptUnless {final : ε → Bool} {Q : Except ε α → σ → Prop} :
    (x.attemptUnless final).Ends s Q E ↔
      x.Ends s (fun a => Q (.ok a)) fun e s' => if final e then E e s' else Q (.error e) s' := by
  simp only [Ends, on_attemptUnless]
  obtain ⟨r, s'⟩ := x.on s
  cases r with
  | ok a => simp
  | error e => cases h : final e <;> simp [h]

theorem ends_zoom {get : ω → σ} {put : σ → ω → ω} {w : ω} {Q : α → ω → Prop} {E : ε → ω → Prop} :
    (x.zoom get put).Ends w Q E ↔
      x.Ends (get w) (fun a s' => Q a (put s' w)) fun e s' => E e (put s' w) := by
  simp only [Ends, on_zoom]

/-- An action with one conclusion about all its ends. -/
theorem ends_iff_forall {P : σ → Prop} :
    (x.Ends s (fun _ => P) fun _ => P) ↔ P (x.on s).2 := by
  simp only [Ends]
  obtain ⟨r, s'⟩ := x.on s
  cases r <;> simp

/-- A sequence comes to its end where both of its parts do. -/
theorem on_bind_eq_ok {f : α → Act ε σ β} {b : β} {s' : σ} :
    (x >>= f).on s = (.ok b, s') ↔ ∃ a s₁, x.on s = (.ok a, s₁) ∧ (f a).on s₁ = (.ok b, s') := by
  rw [on_bind]
  obtain ⟨r, s₁⟩ := x.on s
  cases r with
  | error e => simp
  | ok a =>
    refine ⟨fun h => ⟨a, s₁, rfl, h⟩, ?_⟩
    rintro ⟨_, _, ⟨⟩, h⟩
    exact h

/-- A chain of checks succeeds where every check does. -/
theorem except_bind_eq_ok {r : Except ε α} {f : α → Except ε β} {b : β} :
    (r >>= f) = .ok b ↔ ∃ a, r = .ok a ∧ f a = .ok b := by
  cases r <;> simp [bind, Except.bind]

/-! ## Scopes -/

structure Scope (σ : Type) where
  /-- What holds before and after. -/
  inv : σ → Prop
  /-- How a state may come to differ. -/
  frame : σ → σ → Prop
  /-- Whether two states look the same. -/
  alike : σ → σ → Prop
  refl : ∀ s, frame s s
  trans : ∀ {s s' s''}, frame s s' → frame s' s'' → frame s s''

structure Within (S : Scope σ) (x : Act ε σ α) : Prop where
  inv : ∀ {s}, S.inv s → S.inv (x.on s).2
  frame : ∀ {s}, S.inv s → S.frame s (x.on s).2
  alike : ∀ {s t}, S.inv s → S.inv t → S.alike s t → (x.on s).1 = (x.on t).1 ∧ S.alike (x.on s).2 (x.on t).2

variable {S : Scope σ}

theorem within_of (result : Except ε α) (same : ∀ s, x.on s = (result, s)) : Within S x where
  inv {s} h := by rwa [same]
  frame {s} _ := by
    rw [same]
    exact S.refl s
  alike {s t} _ _ h := by
    rw [same, same]
    exact ⟨rfl, h⟩

theorem within_pure (a : α) : Within S (pure a : Act ε σ α) := within_of (.ok a) fun _ => rfl

theorem within_throw (e : ε) : Within S (throw e : Act ε σ α) := within_of (.error e) fun _ => rfl

theorem Within.bind {f : α → Act ε σ β} (hx : Within S x) (hf : ∀ a, Within S (f a)) : Within S (x >>= f) where
  inv {s} h := by
    have first := hx.inv h
    rw [on_bind]
    cases on : x.on s with
    | mk r s₁ =>
      rw [on] at first
      cases r with
      | error e => exact first
      | ok a => exact (hf a).inv first
  frame {s} h := by
    have inv := hx.inv h
    have first := hx.frame h
    rw [on_bind]
    cases on : x.on s with
    | mk r s₁ =>
      rw [on] at first inv
      cases r with
      | error e => exact first
      | ok a => exact S.trans first ((hf a).frame inv)
  alike {s t} h h' like := by
    have inv := hx.inv h
    have inv' := hx.inv h'
    have first := hx.alike h h' like
    rw [on_bind, on_bind]
    cases on : x.on s with
    | mk r s₁ =>
      cases on' : x.on t with
      | mk r' t₁ =>
        rw [on] at first inv
        rw [on'] at first inv'
        obtain ⟨same, like⟩ := first
        obtain rfl : r = r' := same
        cases r with
        | error e => exact ⟨rfl, like⟩
        | ok a => exact (hf a).alike inv inv' like

/-- What follows a check may use that it succeeded. -/
theorem within_ofExceptThen {r : Except ε α} {f : α → Act ε σ β} (h : ∀ a, r = .ok a → Within S (f a)) :
    Within S (ofExcept r >>= f) := by
  cases r with
  | error e => exact within_of (.error e) fun _ => rfl
  | ok a => exact h a rfl

theorem Within.map (hx : Within S x) (f : α → β) : Within S (f <$> x) := by
  rw [map_eq_pure_bind]
  exact hx.bind fun a => within_pure (f a)

theorem Within.discard (hx : Within S x) : Within S (discard x : Act ε σ Unit) := hx.map _

theorem Within.mapError (hx : Within S x) (f : ε → ε') : Within S (x.mapError f) where
  inv := hx.inv
  frame := hx.frame
  alike h h' like := (hx.alike h h' like).imp_left (congrArg (Except.mapError f))

theorem Within.attemptUnless (hx : Within S x) (final : ε → Bool) : Within S (x.attemptUnless final) where
  inv {s} h := by
    have kept := hx.inv h
    rw [on_attemptUnless]
    cases on : x.on s with
    | mk r s₁ =>
      rw [on] at kept
      cases r <;> exact kept
  frame {s} h := by
    have kept := hx.frame h
    rw [on_attemptUnless]
    cases on : x.on s with
    | mk r s₁ =>
      rw [on] at kept
      cases r <;> exact kept
  alike {s t} h h' like := by
    have kept := hx.alike h h' like
    rw [on_attemptUnless, on_attemptUnless]
    cases on : x.on s with
    | mk r s₁ =>
      cases on' : x.on t with
      | mk r' t₁ =>
        rw [on, on'] at kept
        obtain ⟨same, like⟩ := kept
        obtain rfl : r = r' := same
        cases r <;> exact ⟨rfl, like⟩

/-- What is looked up, if it looks the same. -/
theorem within_gets {f : σ → α} (same : ∀ {s t}, S.inv s → S.inv t → S.alike s t → f s = f t) :
    Within S (do return f (← get) : Act ε σ α) where
  inv h := h
  frame {s} _ := S.refl s
  alike h h' like := ⟨congrArg Except.ok (same h h' like), like⟩

/-- A change that stays in the scope. -/
theorem within_modify {f : σ → σ} (inv : ∀ {s}, S.inv s → S.inv (f s)) (frame : ∀ {s}, S.inv s → S.frame s (f s))
    (alike : ∀ {s t}, S.inv s → S.inv t → S.alike s t → S.alike (f s) (f t)) :
    Within S (modify f : Act ε σ Unit) :=
  ⟨inv, frame, fun h h' like => ⟨rfl, alike h h' like⟩⟩

end Timetable.Act
