import Mathlib.Logic.Relation
import Timetable.Keyspace.Program
import Timetable.Proofs.Act
import Timetable.Proofs.Keyspace.Command

/-!
# Programs that may be cut short, and programs that take turns

`p.Safe sends Q E s`: while the program `p` runs on `s`, what `sends` asks holds wherever it sends a command, so wherever
it may be cut short; `Q` holds of its result and `E` of its error, should it get that far. This is proved along the
program, part by part, and says what a run with faults leaves, as long as a fault hits a command as a whole
(`Safe.ends`).

Two programs may also run on one keyspace without faults and take turns in any order (`Clients.Turn`, `Clients.Reach`).
`Clients.follow` runs one particular order.
-/

namespace Timetable

/-- A command fails as a whole or not at all. -/
def CommandFaults.Whole (f : CommandFaults) : Prop :=
  ∀ n, (∀ v, f.fails n v = false) ∨ ∀ v, f.fails n v = true

theorem CommandFaults.whole_single (n : Nat) (words : String) : (single n words).Whole := by
  intro m
  by_cases h : m = n <;> simp [single, h]

namespace Program

variable {α β : Type}

inductive Safe (sends : Command → Keyspace → Prop) (Q : α → Keyspace → Prop)
    (E : QueueError → Keyspace → Prop) : Program α → Keyspace → Prop
  | done {a s} : Q a s → Safe sends Q E (done a) s
  | fail {e s} : E e s → Safe sends Q E (fail e) s
  | send {c next s} : sends c s → Safe sends Q E (next (c.outcome s).1) (c.outcome s).2 →
    Safe sends Q E (send c next) s

/-- The commands that a run sends, the last of which may have failed. -/
def trace (faults : CommandFaults) : Program α → Link → List Command
  | done _, _ => []
  | fail _, _ => []
  | send c next, link =>
    let (answer, keys) := (c.effect (faults.fails link.sent)).on link.keys
    c :: match answer with
      | .ok answer => trace faults (next answer) ⟨keys, link.sent + 1⟩
      | .error () => []

variable {sends sends' : Command → Keyspace → Prop} {Q Q' : α → Keyspace → Prop}
  {E E' : QueueError → Keyspace → Prop} {p : Program α} {s : Keyspace}

theorem Safe.mono (h : p.Safe sends Q E s) (hs : ∀ c s, sends c s → sends' c s)
    (hQ : ∀ a s, Q a s → Q' a s) (hE : ∀ e s, E e s → E' e s) : p.Safe sends' Q' E' s := by
  induction h with
  | done h => exact .done (hQ _ _ h)
  | fail h => exact .fail (hE _ _ h)
  | send h _ ih => exact .send (hs _ _ h) ih

theorem Safe.weaken (h : p.Safe sends Q E s) (hQ : ∀ a s, Q a s → Q' a s) : p.Safe sends Q' E s :=
  h.mono (fun _ _ h => h) hQ fun _ _ h => h

/-- A program has one run, so two conclusions about it hold together. -/
theorem Safe.and (h : p.Safe sends Q E s) (h' : p.Safe sends' Q' E' s) :
    p.Safe (fun c s => sends c s ∧ sends' c s) (fun a s => Q a s ∧ Q' a s) (fun e s => E e s ∧ E' e s) s := by
  induction h with
  | done h =>
    cases h' with
    | done h' => exact .done ⟨h, h'⟩
  | fail h =>
    cases h' with
    | fail h' => exact .fail ⟨h, h'⟩
  | send h _ ih =>
    cases h' with
    | send h' rest => exact .send ⟨h, h'⟩ (ih rest)

/-- Whatever is true of the result of a first part is known when the second part starts. -/
theorem Safe.bind {f : α → Program β} {R : β → Keyspace → Prop} (h : p.Safe sends Q E s)
    (next : ∀ a s, Q a s → (f a).Safe sends R E s) : (p >>= f).Safe sends R E s := by
  induction h with
  | done h => exact next _ _ h
  | fail h => exact .fail h
  | send h _ ih => exact .send h ih

theorem Safe.askThen {c : Command} {f : c.Answer → Program β} {R : β → Keyspace → Prop}
    (h : sends c s) (next : (f (c.outcome s).1).Safe sends R E (c.outcome s).2) :
    (Program.ask c >>= f).Safe sends R E s :=
  .send h next

theorem Safe.ofExcept {r : Except QueueError α} (ok : ∀ a, r = .ok a → Q a s)
    (error : ∀ e, r = .error e → E e s) : (ofExcept r).Safe sends Q E s := by
  cases r with
  | ok a => exact .done (ok a rfl)
  | error e => exact .fail (error e rfl)

theorem Safe.ofExceptThen {r : Except QueueError α} {f : α → Program β} {R : β → Keyspace → Prop}
    (error : ∀ e, r = .error e → E e s) (next : ∀ a, r = .ok a → (f a).Safe sends R E s) :
    (Program.ofExcept r >>= f).Safe sends R E s := by
  cases r with
  | ok a => exact next a rfl
  | error e => exact .fail (error e rfl)

theorem Safe.discard {P : Keyspace → Prop} (h : p.Safe sends (fun _ => P) E s) :
    (discard p : Program Unit).Safe sends (fun _ => P) E s := by
  show (p >>= fun _ => .done ()).Safe sends _ E s
  exact h.bind fun _ _ h => .done h

/-! ## Runs -/

variable {faults : CommandFaults} {link : Link}

theorem run_send (faults : CommandFaults) (link : Link) (c : Command) (next : c.Answer → Program α) :
    ((send c next).run faults).on link =
      match (c.effect (faults.fails link.sent)).on link.keys with
      | (.ok answer, keys) => ((next answer).run faults).on ⟨keys, link.sent + 1⟩
      | (.error (), keys) => (.error faults.error, ⟨keys, link.sent + 1⟩) := by
  simp only [run, Act.on_bind, Act.on_get, Act.on_set]
  obtain ⟨answer, keys⟩ := (c.effect (faults.fails link.sent)).on link.keys
  cases answer <;> rfl

/-- A run sends its trace. -/
theorem sent_run (p : Program α) (faults : CommandFaults) (link : Link) :
    ((p.run faults).on link).2.sent = link.sent + (p.trace faults link).length := by
  induction p generalizing link with
  | done a => rfl
  | fail e => rfl
  | send c next ih =>
    rw [run_send, trace]
    obtain ⟨answer, keys⟩ := (c.effect (faults.fails link.sent)).on link.keys
    cases answer with
    | error => rfl
    | ok answer =>
      simp only [ih, List.length_cons]
      omega

/-- A safe program with faults comes to its end, or is cut short where it sends a command. -/
theorem Safe.ends (h : p.Safe sends Q E s) (whole : faults.Whole) (hs : link.keys = s) :
    (p.run faults).Ends link (fun a link' => Q a link'.keys)
      fun e link' => E e link'.keys ∨ ∃ c, sends c link'.keys := by
  induction h generalizing link with
  | done h => exact Act.ends_pure.mpr (hs ▸ h)
  | fail h => exact Act.ends_throw.mpr (.inl (hs ▸ h))
  | @send c next s sent _ ih =>
    subst hs
    have on := run_send faults link c next
    rcases whole link.sent with none | all
    · rw [Command.effect_on none] at on
      have rest := @ih ⟨(c.outcome link.keys).2, link.sent + 1⟩ rfl
      rw [Act.Ends, on]
      exact rest
    · rw [Command.effect_of_fails all] at on
      exact (Act.ends_of_on_error on).mpr (.inr ⟨c, sent⟩)

/-- A safe program without faults comes to its end. -/
theorem Safe.ends_calm (h : p.Safe sends Q E s) (hs : link.keys = s) :
    (p.run .none).Ends link (fun a link' => Q a link'.keys) fun e link' => E e link'.keys := by
  induction h generalizing link with
  | done h => exact Act.ends_pure.mpr (hs ▸ h)
  | fail h => exact Act.ends_throw.mpr (hs ▸ h)
  | @send c next s _ _ ih =>
    subst hs
    have on := run_send .none link c next
    rw [Command.effect_on (fun _ => rfl : ∀ v, CommandFaults.none.fails link.sent v = false)] at on
    have rest := @ih ⟨(c.outcome link.keys).2, link.sent + 1⟩ rfl
    rw [Act.Ends, on]
    exact rest

/-- What a safe program sends is what it may send. -/
theorem Safe.mem_trace (h : p.Safe sends Q E s) (whole : faults.Whole) (hs : link.keys = s)
    {c : Command} (hc : c ∈ p.trace faults link) : ∃ s, sends c s := by
  induction h generalizing link with
  | done _ => cases hc
  | fail _ => cases hc
  | @send c' next s sent _ ih =>
    subst hs
    rw [trace] at hc
    rcases whole link.sent with none | all
    · rw [Command.effect_on none] at hc
      rcases List.mem_cons.mp hc with rfl | hc
      · exact ⟨_, sent⟩
      · exact @ih ⟨(c'.outcome link.keys).2, link.sent + 1⟩ rfl hc
    · rw [Command.effect_of_fails all] at hc
      obtain rfl := List.mem_singleton.mp hc
      exact ⟨_, sent⟩

end Program

/-! ## Two clients -/

theorem Program.step_send {α : Type} (c : Command) (next : c.Answer → Program α) (s : Keyspace) :
    (send c next).step s = (next (c.outcome s).1, (c.outcome s).2) := by
  rw [step, Command.effect_on fun _ => rfl]

/-- Two programs that are left to run, and the keyspace that both use. -/
structure Clients (α β : Type) where
  left : Program α
  right : Program β
  keys : Keyspace

namespace Clients

variable {α β : Type} {x y : Clients α β}

/-- The left client sends its next command. -/
def stepLeft (x : Clients α β) : Clients α β :=
  { x with left := (x.left.step x.keys).1, keys := (x.left.step x.keys).2 }

/-- The right client sends its next command. -/
def stepRight (x : Clients α β) : Clients α β :=
  { x with right := (x.right.step x.keys).1, keys := (x.right.step x.keys).2 }

/-- One of the clients sends its next command. -/
inductive Turn (x : Clients α β) : Clients α β → Prop
  | left : Turn x x.stepLeft
  | right : Turn x x.stepRight

/-- What the clients may come to, in whatever order they take turns. -/
abbrev Reach : Clients α β → Clients α β → Prop := Relation.ReflTransGen Turn

/-- Whatever every turn preserves holds in whatever order they take turns. -/
theorem Reach.invariant {inv : Clients α β → Prop} (h : Reach x y) (start : inv x)
    (left : ∀ x, inv x → inv x.stepLeft) (right : ∀ x, inv x → inv x.stepRight) : inv y := by
  induction h with
  | refl => exact start
  | tail _ turn ih =>
    cases turn with
    | left => exact left _ ih
    | right => exact right _ ih

/-- Turns in a given order; `true` stands for the left client. -/
def follow (order : List Bool) (x : Clients α β) : Clients α β :=
  order.foldl (fun x isLeft => if isLeft then x.stepLeft else x.stepRight) x

theorem reach_follow (order : List Bool) (x : Clients α β) : Reach x (x.follow order) := by
  induction order generalizing x with
  | nil => exact .refl
  | cons isLeft order ih =>
    cases isLeft with
    | true => exact .head .left (ih x.stepLeft)
    | false => exact .head .right (ih x.stepRight)

end Clients

end Timetable
