/-!
# Actions

A computation on a state that may fail, where what was done before the failure stays done: an
`Act ε σ α` takes a state to a result or an error *and* the state left behind.
-/

namespace Timetable

abbrev Act (ε σ α : Type) := ExceptT ε (StateM σ) α

namespace Act

variable {ε ε' σ ω α : Type}

/-- Runs an action on a state: the result and the state left behind. -/
def on (x : Act ε σ α) (s : σ) : Except ε α × σ := x.run.run s

/-- An action given by what it does to every state. -/
def of (f : σ → Except ε α × σ) : Act ε σ α := ExceptT.mk f

def ofExcept : Except ε α → Act ε σ α
  | .ok a => pure a
  | .error e => throw e

/-- Goes on after a failure, with the error as the result. -/
def attempt (x : Act ε σ α) : Act ε' σ (Except ε α) :=
  of fun s => let (r, s) := x.on s; (.ok r, s)

/-- Goes on after a failure, with the error as the result, unless that is a final one. -/
def attemptUnless (final : ε → Bool) (x : Act ε σ α) : Act ε σ (Except ε α) :=
  of fun s =>
    match x.on s with
    | (.error e, s) => (if final e then .error e else .ok (.error e), s)
    | (.ok a, s) => (.ok (.ok a), s)

def mapError (f : ε → ε') (x : Act ε σ α) : Act ε' σ α :=
  of fun s => let (r, s) := x.on s; (r.mapError f, s)

/-- Runs an action on a part of a state. -/
def zoom (get : ω → σ) (put : σ → ω → ω) (x : Act ε σ α) : Act ε ω α :=
  of fun w => let (r, s) := x.on (get w); (r, put s w)

@[simp] theorem on_of (f : σ → Except ε α × σ) (s : σ) : (of f).on s = f s := rfl

@[simp] theorem on_pure (a : α) (s : σ) : (pure a : Act ε σ α).on s = (.ok a, s) := rfl

@[simp] theorem on_throw (e : ε) (s : σ) : (throw e : Act ε σ α).on s = (.error e, s) := rfl

@[simp] theorem on_ofExcept (r : Except ε α) (s : σ) : (ofExcept r : Act ε σ α).on s = (r, s) := by
  cases r <;> rfl

theorem on_bind (x : Act ε σ α) {β : Type} (f : α → Act ε σ β) (s : σ) :
    (x >>= f).on s = match x.on s with
      | (.ok a, s) => (f a).on s
      | (.error e, s) => (.error e, s) := by
  simp only [on, ExceptT.run_bind, StateT.run_bind]
  show (match x.run.run s with | (r, s) => _) = _
  cases x.run.run s with
  | mk r s => cases r <;> rfl

theorem on_map {β : Type} (f : α → β) (x : Act ε σ α) (s : σ) :
    (f <$> x).on s = ((x.on s).1.map f, (x.on s).2) := by
  rw [map_eq_pure_bind, on_bind]
  obtain ⟨r, s⟩ := x.on s
  cases r <;> rfl

theorem on_discard (x : Act ε σ α) (s : σ) :
    (discard x : Act ε σ Unit).on s = ((x.on s).1.map fun _ => (), (x.on s).2) :=
  on_map _ x s

@[simp] theorem on_get (s : σ) : (get : Act ε σ σ).on s = (.ok s, s) := rfl

@[simp] theorem on_set (s t : σ) : (set t : Act ε σ Unit).on s = (.ok (), t) := rfl

@[simp] theorem on_modify (f : σ → σ) (s : σ) : (modify f : Act ε σ Unit).on s = (.ok (), f s) := rfl

@[simp] theorem on_attempt (x : Act ε σ α) (s : σ) :
    (x.attempt : Act ε' σ _).on s = (.ok (x.on s).1, (x.on s).2) := rfl

theorem on_attemptUnless (final : ε → Bool) (x : Act ε σ α) (s : σ) :
    (x.attemptUnless final).on s = match x.on s with
      | (.error e, s) => (if final e then .error e else .ok (.error e), s)
      | (.ok a, s) => (.ok (.ok a), s) := rfl

@[simp] theorem on_mapError (f : ε → ε') (x : Act ε σ α) (s : σ) :
    (x.mapError f).on s = ((x.on s).1.mapError f, (x.on s).2) := rfl

@[simp] theorem on_zoom (get : ω → σ) (put : σ → ω → ω) (x : Act ε σ α) (w : ω) :
    (x.zoom get put).on w = ((x.on (get w)).1, put (x.on (get w)).2 w) := rfl

end Act

end Timetable
