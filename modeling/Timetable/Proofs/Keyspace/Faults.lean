import Timetable.Proofs.Keyspace.Program

/-!
# Programs under any faults

A fault may hit a single operation of a script, and leave what the script did before. `p.Weathers Q E s`: whatever
operations fail while the program `p` runs on `s`, `Q` holds of its result and of the keyspace that is left, or the
program fails and `E` holds of the keyspace. This is proved along the program (`Weathers.send`, `Weathers.bind`), and
for each script along its operations (`Command.guard_ends` and what follows it).
-/

namespace Timetable

/-! ## Single operations -/

namespace Command

variable {fails : Verb → Bool} {s : Keyspace} {J : Keyspace → Prop}

theorem guard_ends {v : Verb} {Q : Unit → Keyspace → Prop} (stop : J s) (go : Q () s) :
    (guard fails v).Ends s Q fun _ => J := by
  unfold guard
  split
  · exact Act.ends_throw.mpr stop
  · exact Act.ends_pure.mpr go

theorem hgetStep_ends {h : HashKey} {field : String} {Q : Option String → Keyspace → Prop} (stop : J s)
    (go : Q ((s.hash h).get? field) s) : (hgetStep fails h field).Ends s Q fun _ => J :=
  Act.ends_bind.mpr (guard_ends stop (Act.ends_bind.mpr (Act.ends_get.mpr (Act.ends_pure.mpr go))))

theorem hsetStep_ends {h : HashKey} {field value : String} {Q : Unit → Keyspace → Prop} (stop : J s)
    (go : Q () (s.withHash ((s.hash h).set field value) h)) : (hsetStep fails h field value).Ends s Q fun _ => J :=
  Act.ends_bind.mpr (guard_ends stop (Act.ends_modify.mpr go))

theorem hsetnxStep_ends {h : HashKey} {field value : String} {Q : Bool → Keyspace → Prop} (stop : J s)
    (taken : (s.hash h).contains field = true → Q false s)
    (free : (s.hash h).contains field = false → Q true (s.withHash ((s.hash h).set field value) h)) :
    (hsetnxStep fails h field value).Ends s Q fun _ => J := by
  refine Act.ends_bind.mpr (guard_ends stop (Act.ends_bind.mpr (Act.ends_get.mpr ?_)))
  cases held : (s.hash h).contains field with
  | true => exact Act.ends_pure.mpr (taken held)
  | false => exact Act.ends_bind.mpr (Act.ends_set.mpr (Act.ends_pure.mpr (free held)))

theorem hdelStep_ends {h : HashKey} {field : String} {Q : Unit → Keyspace → Prop} (stop : J s)
    (go : Q () (s.withHash ((s.hash h).erase field) h)) : (hdelStep fails h field).Ends s Q fun _ => J :=
  Act.ends_bind.mpr (guard_ends stop (Act.ends_modify.mpr go))

theorem hexistsStep_ends {h : HashKey} {field : String} {Q : Bool → Keyspace → Prop} (stop : J s)
    (go : Q ((s.hash h).contains field) s) : (hexistsStep fails h field).Ends s Q fun _ => J :=
  Act.ends_bind.mpr (guard_ends stop (Act.ends_bind.mpr (Act.ends_get.mpr (Act.ends_pure.mpr go))))

theorem zaddStep_ends {z : SetKey} {member : String} {score : Int} {Q : Unit → Keyspace → Prop} (stop : J s)
    (go : Q () (s.withSet ((s.sortedSet z).set member score) z)) :
    (zaddStep fails z member score).Ends s Q fun _ => J :=
  Act.ends_bind.mpr (guard_ends stop (Act.ends_modify.mpr go))

theorem zremStep_ends {z : SetKey} {member : String} {Q : Bool → Keyspace → Prop} (stop : J s)
    (go : Q ((s.sortedSet z).contains member) (s.withSet ((s.sortedSet z).erase member) z)) :
    (zremStep fails z member).Ends s Q fun _ => J :=
  Act.ends_bind.mpr (guard_ends stop
    (Act.ends_bind.mpr (Act.ends_get.mpr (Act.ends_bind.mpr (Act.ends_set.mpr (Act.ends_pure.mpr go))))))

theorem upToStep_ends {z : SetKey} {score : Int} {Q : List String → Keyspace → Prop} (stop : J s)
    (go : Q ((s.sortedSet z).upTo score) s) : (upToStep fails z score).Ends s Q fun _ => J :=
  Act.ends_bind.mpr (guard_ends stop (Act.ends_bind.mpr (Act.ends_get.mpr (Act.ends_pure.mpr go))))

end Command

/-! ## Programs -/

namespace Program

variable {α β : Type} {Q Q' : α → Keyspace → Prop} {E E' : Keyspace → Prop} {p : Program α} {s : Keyspace}

inductive Weathers (Q : α → Keyspace → Prop) (E : Keyspace → Prop) : Program α → Keyspace → Prop
  | done {a s} : Q a s → Weathers Q E (done a) s
  | fail {e s} : E s → Weathers Q E (fail e) s
  | answered {c next s} :
    (∀ fails answer, ((c.effect fails).on s).1 = .ok answer →
      Weathers Q E (next answer) ((c.effect fails).on s).2) →
    (∀ fails, ((c.effect fails).on s).1 = .error () → E ((c.effect fails).on s).2) →
    Weathers Q E (send c next) s

namespace Weathers

theorem send {c : Command} {next : c.Answer → Program α}
    (h : ∀ fails, (c.effect fails).Ends s (fun answer s' => (next answer).Weathers Q E s') fun _ => E) :
    (Program.send c next).Weathers Q E s :=
  .answered (fun fails => (h fails).1) fun fails => (h fails).2 ()

/-- Nothing is promised of a program. -/
theorem any (p : Program α) (s : Keyspace) : p.Weathers (fun _ _ => True) (fun _ => True) s := by
  induction p generalizing s with
  | done a => exact .done trivial
  | fail e => exact .fail trivial
  | send c next ih => exact .answered (fun _ answer _ => ih answer _) fun _ _ => trivial

theorem mono (h : p.Weathers Q E s) (hQ : ∀ a s, Q a s → Q' a s) (hE : ∀ s, E s → E' s) :
    p.Weathers Q' E' s := by
  induction h with
  | done h => exact .done (hQ _ _ h)
  | fail h => exact .fail (hE _ h)
  | answered _ stop ih => exact .answered ih fun fails failed => hE _ (stop fails failed)

theorem bind {f : α → Program β} {R : β → Keyspace → Prop} (h : p.Weathers Q E s)
    (next : ∀ a s, Q a s → (f a).Weathers R E s) : (p >>= f).Weathers R E s := by
  induction h with
  | done h => exact next _ _ h
  | fail h => exact .fail h
  | answered _ stop ih => exact .answered ih stop

theorem askThen {c : Command} {f : c.Answer → Program β} {R : β → Keyspace → Prop}
    (h : ∀ fails, (c.effect fails).Ends s (fun answer s' => (f answer).Weathers R E s') fun _ => E) :
    (ask c >>= f).Weathers R E s :=
  send h

theorem ofExceptThen {r : Except QueueError α} {f : α → Program β} {R : β → Keyspace → Prop} (stop : E s)
    (next : ∀ a, r = .ok a → (f a).Weathers R E s) : (Program.ofExcept r >>= f).Weathers R E s := by
  cases r with
  | ok a => exact next a rfl
  | error e => exact .fail stop

theorem discard {P : Keyspace → Prop} (h : p.Weathers (fun _ => P) E s) :
    (discard p : Program Unit).Weathers (fun _ => P) E s := by
  show (p >>= fun _ => .done ()).Weathers _ E s
  exact h.bind fun _ _ h => .done h

/-- Whatever happens to a run, it ends as the program does. -/
theorem ends (h : p.Weathers Q E s) (faults : CommandFaults) {link : Link} (hs : link.keys = s) :
    (p.run faults).Ends link (fun a link' => Q a link'.keys) fun _ link' => E link'.keys := by
  induction h generalizing link with
  | done h => exact Act.ends_pure.mpr (hs ▸ h)
  | fail h => exact Act.ends_throw.mpr (hs ▸ h)
  | @answered c next s _ stop ih =>
    subst hs
    have on := run_send faults link c next
    cases effect : (c.effect (faults.fails link.sent)).on link.keys with
    | mk answer keys =>
      rw [effect] at on
      cases answer with
      | ok answer =>
        have rest := @ih (faults.fails link.sent) answer (by rw [effect]) ⟨keys, link.sent + 1⟩ (by rw [effect])
        rw [Act.Ends, on]
        exact rest
      | error =>
        have left := stop (faults.fails link.sent) (by rw [effect])
        rw [effect] at left
        exact (Act.ends_of_on_error on).mpr left

end Weathers

/-! ## Commands of one kind -/

/-- Whatever it is answered, a program sends no other commands than these. -/
inductive Only (P : Command → Prop) : Program α → Prop
  | done {a} : Only P (done a)
  | fail {e} : Only P (fail e)
  | send {c next} : P c → (∀ answer, Only P (next answer)) → Only P (send c next)

namespace Only

variable {P : Command → Prop}

theorem bind {f : α → Program β} (h : p.Only P) (next : ∀ a, (f a).Only P) : (p >>= f).Only P := by
  induction h with
  | done => exact next _
  | fail => exact .fail
  | send allowed _ ih => exact .send allowed ih

theorem ask {c : Command} (h : P c) : (Program.ask c).Only P := .send h fun _ => .done

theorem ofExcept {r : Except QueueError α} : (Program.ofExcept r).Only P := by
  cases r with
  | ok a => exact .done
  | error e => exact .fail

theorem discard (h : p.Only P) : (discard p : Program Unit).Only P := by
  show (p >>= fun _ => .done ()).Only P
  exact h.bind fun _ => .done

/-- What commands of one kind preserve whatever fails holds of what a program of such commands leaves. -/
theorem weathers {J : Keyspace → Prop} (h : p.Only P)
    (step : ∀ c fails s, P c → J s → J ((c.effect fails).on s).2) (start : J s) :
    p.Weathers (fun _ => J) J s := by
  induction h generalizing s with
  | done => exact .done start
  | fail => exact .fail start
  | @send c next allowed _ ih =>
    refine .answered (fun fails answer _ => ih answer ?_) fun fails _ => ?_
    all_goals exact step c fails s allowed start

end Only

end Program

end Timetable
