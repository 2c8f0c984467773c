import Mathlib.Logic.Relation
import Timetable.Proofs.Queue.Locks
import Timetable.Proofs.Worker.Plan

/-!
# Claims that a dispatch renews

A dispatch is under way while others use the queue (`Worker.Dispatch`): between two of its steps they may ask for
anything at any time, but to finish its claim. Renewals that follow each other more closely than a lease ends keep the
claim until the dispatch gives it back (`Worker.KeepsClaim`).

The next step comes no later than an interval after the last renewal, and the lease runs longer. So whatever is asked
for in between finds the claim locked (`WorkQueue.Keeper.asked`), and so does the renewal itself. Others may renew the
claim too, also at the very time of a step; that only moves the end of the lease further away.
-/

namespace Timetable

namespace WorkQueue

variable {σ ρ : Type}

/-- Anything but to finish a claim that an entry stands for. -/
def Spares (holds : StoredEntry → StoredEntry → Prop) (e : StoredEntry) (request : QueueRequest) : Prop :=
  ∀ f, holds e f → request ≠ .finish f

/-- The states that requests of some kind lead to at an instant, one after the other. -/
def Asked (q : WorkQueue σ) (may : QueueRequest → Prop) (now : Instant) : σ → σ → Prop :=
  Relation.ReflTransGen fun s s' => ∃ request, may request ∧ s' = ((q.ask now request).on s).2

/-- A change of the world that leaves the clock alone, and the queue but for requests of some kind. -/
def Civil (q : WorkQueue σ) (may : QueueRequest → Prop) (change : World σ ρ → World σ ρ) : Prop :=
  ∀ world, (change world).now = world.now ∧ q.Asked may world.now world.queue (change world).queue

/-- A lock whose leases are longer than an interval, with what it means that a claim is `held` and that it is `gone`. -/
structure Keeper (q : WorkQueue σ) (inv : σ → Prop) (holds : StoredEntry → StoredEntry → Prop)
    (ended : Instant → Instant → Prop) (locked : StoredEntry → Instant → σ → Prop) (every : Nat)
    (held : StoredEntry → Instant → σ → Prop) (gone : StoredEntry → σ → Prop) : Prop
    extends Lock q (¬ ·.InLeapSecond) inv holds ended locked where
  lasts : ∀ {r now}, ¬ r.InLeapSecond → ¬ now.InLeapSecond → now ≤ r.plusMillis every → ¬ ended r now
  shows : ∀ {e r now s}, locked e r s → ¬ ended r now → held e now s
  own : ∀ e, holds e e
  /-- A renewal that is carried out finds the claim. -/
  renews : ∀ {e r now s renewed}, inv s → locked e r s → ((q.renewLease e now).on s).1 = .ok renewed → renewed = true
  releases : ∀ {e r s}, inv s → locked e r s → ((q.finish e).on s).1 = .ok () → gone e ((q.finish e).on s).2

variable {q : WorkQueue σ} {inv : σ → Prop} {holds : StoredEntry → StoredEntry → Prop}
  {ended : Instant → Instant → Prop} {locked : StoredEntry → Instant → σ → Prop} {every : Nat}
  {held : StoredEntry → Instant → σ → Prop} {gone : StoredEntry → σ → Prop}

/-- A claim is locked, and its lease started when it was last extended, or later. -/
def LockedSince (locked : StoredEntry → Instant → σ → Prop) (e : StoredEntry) (extended : Instant → Prop)
    (now : Instant) (s : σ) : Prop :=
  ∃ r, locked e r s ∧ ¬ r.InLeapSecond ∧ r ≤ now ∧ ∀ u, extended u → u ≤ r

/-- A time lies within an interval after a claim was extended. -/
def Soon (every : Nat) (extended : Instant → Prop) (now : Instant) : Prop :=
  ∃ u, extended u ∧ ¬ u.InLeapSecond ∧ now ≤ u.plusMillis every

theorem LockedSince.mono {e : StoredEntry} {extended : Instant → Prop} {now later : Instant} {s : σ}
    (h : LockedSince locked e extended now s) (le : now ≤ later) : LockedSince locked e extended later s :=
  let ⟨r, locked, ordinary, earlier, last⟩ := h
  ⟨r, locked, ordinary, le_trans earlier le, last⟩

theorem Soon.mono {every : Nat} {extended : Instant → Prop} {now later : Instant} (h : Soon every extended later)
    (le : now ≤ later) : Soon every extended now :=
  let ⟨u, mem, ordinary, within⟩ := h
  ⟨u, mem, ordinary, le_trans le within⟩

namespace Keeper

variable {e : StoredEntry} {r now later : Instant} {extended : Instant → Prop} {s s' : σ}

theorem running (keeper : Keeper q inv holds ended locked every held gone) (ordinary : ¬ r.InLeapSecond)
    (last : ∀ u, extended u → u ≤ r) (shown : ¬ now.InLeapSecond) (soon : Soon every extended now) : ¬ ended r now := by
  obtain ⟨u, mem, ordinary', le⟩ := soon
  exact keeper.lasts ordinary shown (le_trans le (Instant.plus_mono ordinary' ordinary (last u mem) (Int.le_refl _)))

/-- Within an interval after a claim was extended, nobody takes it out. -/
theorem asked (keeper : Keeper q inv holds ended locked every held gone) (shown : ¬ now.InLeapSecond)
    (soon : Soon every extended now) (before : inv s) (since : LockedSince locked e extended now s)
    (asked : q.Asked (Spares holds e) now s s') : inv s' ∧ LockedSince locked e extended now s' := by
  induction asked with
  | refl => exact ⟨before, since⟩
  | @tail s₁ _ _ step ih =>
    obtain ⟨request, spares, rfl⟩ := step
    obtain ⟨inv₁, r, locked₁, ordinary, le, last⟩ := ih
    refine ⟨keeper.step request inv₁, ?_⟩
    by_cases renewed : ∃ f, holds e f ∧ request = .renewLease f ∧ ((q.ask now (.renewLease f)).on s₁).1 = .ok true
    · obtain ⟨f, holder, rfl, answer⟩ := renewed
      exact ⟨now, keeper.renew inv₁ holder answer, shown, le_refl now, fun u mem => le_trans (last u mem) le⟩
    · have kept := keeper.keep request inv₁ locked₁ spares fun f holder same answer => renewed ⟨f, holder, same, answer⟩
      exact ⟨r, kept.resolve_left (keeper.running ordinary last shown soon), ordinary, le, last⟩

theorem held_of_since (keeper : Keeper q inv holds ended locked every held gone) (shown : ¬ later.InLeapSecond)
    (soon : Soon every extended later) (since : LockedSince locked e extended now s) : held e later s := by
  obtain ⟨r, locked, ordinary, _, last⟩ := since
  exact keeper.shows locked (keeper.running ordinary last shown soon)

end Keeper

end WorkQueue

namespace Worker

open WorkQueue

variable {σ ρ ε α : Type}

/-- A dispatch of an entry, from the instant at which it was claimed: the steps that it did, those that are left, and
the world. It has not finished yet, and its renewals were carried out so far, whatever they were answered. -/
inductive Dispatch (w : Worker σ ρ ε α) (s₀ : σ) (holds : StoredEntry → StoredEntry → Prop) (e : StoredEntry)
    (start : Instant) (c : Course (World σ ρ) ε α) : List (Instant × FlightStep (World σ ρ) ε α) →
    List (Instant × FlightStep (World σ ρ) ε α) → World σ ρ → Prop
  | claimed {t₀ t : Instant} {s : σ} {limit : Nat} {out : List StoredEntry} {world : World σ ρ} :
    w.queue.Run (forward (¬ ·.InLeapSecond)) t₀ s₀ t s → t ≤ start → ¬ start.InLeapSecond →
    (w.queue.claimDue start limit).on s = (.ok out, world.queue) → e ∈ out → world.now = start →
    Dispatch w s₀ holds e start c [] (w.stepsOf start c) world
  | others {done left world world' t step} : Dispatch w s₀ holds e start c done ((t, step) :: left) world →
    world.now ≤ world'.now → world'.now ≤ t → ¬ world'.now.InLeapSecond →
    w.queue.Asked (Spares holds e) world'.now world.queue world'.queue →
    Dispatch w s₀ holds e start c done ((t, step) :: left) world'
  | step {done left world t step} : Dispatch w s₀ holds e start c done ((t, step) :: left) world → step ≠ .finish →
    (step = .renew → ∃ renewed, ((w.queue.renewLease e t).on world.queue).1 = .ok renewed) →
    Dispatch w s₀ holds e start c (done ++ [(t, step)]) left (w.perform e step { world with now := t }).2

/-- What the handler does about an entry leaves its claim alone. -/
structure Discreet (w : Worker σ ρ ε α) (holds : StoredEntry → StoredEntry → Prop) (e : StoredEntry)
    (c : Course (World σ ρ) ε α) : Prop where
  marks : ∀ m ∈ c.marks, w.queue.Civil (Spares holds e) m.2
  completed : ∀ output t, w.queue.Civil (Spares holds e) fun world => ((w.handler.completed e output t).on world).2
  failed : ∀ error t, w.queue.Civil (Spares holds e) fun world => ((w.handler.failed e error t).on world).2

/-- A dispatch keeps its claim until it finishes, which takes the entry out. -/
structure KeepsClaim (w : Worker σ ρ ε α) (s₀ : σ) (holds : StoredEntry → StoredEntry → Prop)
    (held : StoredEntry → Instant → σ → Prop) (gone : StoredEntry → σ → Prop) (e : StoredEntry) (start : Instant)
    (c : Course (World σ ρ) ε α) : Prop where
  /-- It is still to finish. -/
  ends : ∀ {done left world}, w.Dispatch s₀ holds e start c done left world → (start.plusMillis c.lasts, .finish) ∈ left
  /-- Its lease runs beyond the next step. -/
  leased : ∀ {done t step left world}, w.Dispatch s₀ holds e start c done ((t, step) :: left) world →
    held e t world.queue
  recovered : ∀ {done t step left world now}, w.Dispatch s₀ holds e start c done ((t, step) :: left) world →
    world.now ≤ now → now ≤ t → ¬ now.InLeapSecond → held e t ((w.queue.recoverStalled now).on world.queue).2
  /-- The entry is not handed out meanwhile. -/
  apart : ∀ {done t step left world now limit out s}, w.Dispatch s₀ holds e start c done ((t, step) :: left) world →
    world.now ≤ now → now ≤ t → ¬ now.InLeapSecond → (w.queue.claimDue now limit).on world.queue = (.ok out, s) →
    ∀ f ∈ out, f.id ≠ e.id
  renewed : ∀ {done t left world renewed}, w.Dispatch s₀ holds e start c done ((t, .renew) :: left) world →
    ((w.queue.renewLease e t).on world.queue).1 = .ok renewed → renewed = true
  removed : ∀ {done t left world}, w.Dispatch s₀ holds e start c done ((t, .finish) :: left) world →
    ((w.queue.finish e).on world.queue).1 = .ok () → gone e (w.perform e .finish { world with now := t }).2.queue

section

variable {w : Worker σ ρ ε α} {s₀ : σ} {holds : StoredEntry → StoredEntry → Prop} {e : StoredEntry} {start t : Instant}
  {c : Course (World σ ρ) ε α} {done left : List (Instant × FlightStep (World σ ρ) ε α)} {world : World σ ρ}
  {step : FlightStep (World σ ρ) ε α}

/-- When the claim of a dispatch was extended: at its start, and at every renewal. -/
def Extended (start : Instant) (done : List (Instant × FlightStep (World σ ρ) ε α)) (u : Instant) : Prop :=
  u = start ∨ (u, .renew) ∈ done

namespace Dispatch

theorem parts (h : w.Dispatch s₀ holds e start c done left world) : w.stepsOf start c = done ++ left := by
  induction h with
  | claimed => rfl
  | others _ _ _ _ _ ih => exact ih
  | step _ _ _ ih => rw [ih, List.append_assoc, List.singleton_append]

theorem unfinished (h : w.Dispatch s₀ holds e start c done left world) (u : Instant) : (u, .finish) ∉ done := by
  induction h with
  | claimed => exact List.not_mem_nil
  | others _ _ _ _ _ ih => exact ih
  | step _ ne _ ih =>
    rw [List.mem_append, List.mem_singleton]
    rintro (before | same)
    · exact ih before
    · exact ne (Prod.mk.inj same).2.symm

theorem ordinary (h : w.Dispatch s₀ holds e start c done left world) : ¬ start.InLeapSecond := by
  induction h with
  | claimed _ _ shown => exact shown
  | others _ _ _ _ _ ih => exact ih
  | step _ _ _ ih => exact ih

theorem next_mem (h : w.Dispatch s₀ holds e start c done ((t, step) :: left) world) :
    (t, step) ∈ w.stepsOf start c := by
  rw [h.parts]
  exact List.mem_append_right _ List.mem_cons_self

/-- The next step comes soon after the last renewal. -/
theorem soon (h : w.Dispatch s₀ holds e start c done ((t, step) :: left) world) (positive : 0 < w.renewEvery) :
    Soon w.renewEvery (Extended start done) t := by
  obtain ⟨u, extended, le⟩ := renewed_before positive h.ordinary h.parts h.unfinished
  refine ⟨u, extended, ?_, le⟩
  rcases extended with rfl | renewed
  · exact h.ordinary
  · have mem : (u, .renew) ∈ w.stepsOf start c := by
      rw [h.parts]
      exact List.mem_append_left _ renewed
    exact (of_mem_stepsOf h.ordinary mem).2

/-- No step that is left comes before one that is due. -/
theorem next_le (h : w.Dispatch s₀ holds e start c done ((t, step) :: left) world) : ∀ s ∈ left, t ≤ s.1 := by
  have sorted := w.pairwise_stepsOf start c
  rw [h.parts] at sorted
  obtain ⟨_, sorted, _⟩ := List.pairwise_append.mp sorted
  exact fun s mem => List.rel_of_pairwise_cons sorted mem

end Dispatch

/-- What is true of a dispatch that keeps its claim. -/
structure Secure (inv : σ → Prop) (locked : StoredEntry → Instant → σ → Prop) (e : StoredEntry) (start : Instant)
    (done left : List (Instant × FlightStep (World σ ρ) ε α)) (world : World σ ρ) : Prop where
  inv : inv world.queue
  clock : ¬ world.now.InLeapSecond
  due : ∀ s ∈ left, world.now ≤ s.1
  since : LockedSince locked e (Extended start done) world.now world.queue

variable {q : WorkQueue σ} {inv : σ → Prop} {ended : Instant → Instant → Prop}
  {locked : StoredEntry → Instant → σ → Prop} {every : Nat} {held : StoredEntry → Instant → σ → Prop}
  {gone : StoredEntry → σ → Prop} {now : Instant} {s : σ}

theorem extended_append {u : Instant} (h : Extended start (done ++ [(t, step)]) u) :
    Extended start done u ∨ u = t ∧ step = .renew := by
  rcases h with first | mem
  · exact .inl (.inl first)
  rcases List.mem_append.mp mem with before | last
  · exact .inl (.inr before)
  · cases List.mem_singleton.mp last
    exact .inr ⟨rfl, rfl⟩

/-- Whatever others ask for before the next step, the claim stays locked. -/
theorem Secure.asked (secure : Secure inv locked e start done ((t, step) :: left) world)
    (keeper : Keeper w.queue inv holds ended locked w.renewEvery held gone) (positive : 0 < w.renewEvery)
    (h : w.Dispatch s₀ holds e start c done ((t, step) :: left) world) (le : world.now ≤ now) (before : now ≤ t)
    (shown : ¬ now.InLeapSecond) (asked : w.queue.Asked (Spares holds e) now world.queue s) :
    inv s ∧ LockedSince locked e (Extended start done) now s :=
  keeper.asked shown ((h.soon positive).mono before) secure.inv (secure.since.mono le) asked

/-- A step that renews nothing leaves the claim locked. -/
theorem Secure.change (secure : Secure inv locked e start done ((t, step) :: left) world)
    (keeper : Keeper w.queue inv holds ended locked w.renewEvery held gone) (positive : 0 < w.renewEvery)
    (h : w.Dispatch s₀ holds e start c done ((t, step) :: left) world) (other : step ≠ .renew)
    {change : World σ ρ → World σ ρ} (civil : w.queue.Civil (Spares holds e) change) :
    Secure inv locked e start (done ++ [(t, step)]) left (change { world with now := t }) := by
  obtain ⟨same, asked⟩ := civil { world with now := t }
  obtain ⟨_, ordinary⟩ := of_mem_stepsOf h.ordinary h.next_mem
  obtain ⟨after, r, locked, start, le, last⟩ :=
    secure.asked keeper positive h (secure.due _ List.mem_cons_self) (le_refl t) ordinary asked
  refine ⟨after, same.symm ▸ ordinary, same.symm ▸ h.next_le, r, locked, start, same.symm ▸ le, fun u extended => ?_⟩
  rcases extended_append extended with before | ⟨_, renewal⟩
  · exact last u before
  · exact absurd renewal other

/-- A renewal that is carried out finds the claim and extends it. -/
theorem Secure.renewal (secure : Secure inv locked e start done ((t, .renew) :: left) world)
    (keeper : Keeper w.queue inv holds ended locked w.renewEvery held gone)
    (h : w.Dispatch s₀ holds e start c done ((t, .renew) :: left) world) {renewed : Bool}
    (answer : ((w.queue.renewLease e t).on world.queue).1 = .ok renewed) : renewed = true ∧
      Secure inv locked e start (done ++ [(t, .renew)]) left (w.perform e .renew { world with now := t }).2 := by
  obtain ⟨r, locked, _, le, last⟩ := secure.since
  obtain ⟨_, ordinary⟩ := of_mem_stepsOf h.ordinary h.next_mem
  have yes : renewed = true := keeper.renews secure.inv locked answer
  subst yes
  refine ⟨rfl, keeper.step (.renewLease e) secure.inv, ordinary, h.next_le, t, ?_, ordinary, le_refl t, ?_⟩
  · exact keeper.renew secure.inv (keeper.own e) answer
  · intro u extended
    rcases extended_append extended with before | ⟨rfl, _⟩
    · exact le_trans (last u before) (le_trans le (secure.due _ List.mem_cons_self))
    · exact le_refl u

/-- The claim is locked all the while. -/
theorem Dispatch.secure (keeper : Keeper w.queue inv holds ended locked w.renewEvery held gone)
    (positive : 0 < w.renewEvery) (initial : inv s₀) (discreet : w.Discreet holds e c)
    (h : w.Dispatch s₀ holds e start c done left world) : Secure inv locked e start done left world := by
  induction h with
  | @claimed _ _ s limit _ world run _ ordinary on mem same =>
    have before := keeper.invariant initial run
    have left : ((w.queue.ask start (.claimDue limit)).on s).2 = world.queue := congrArg Prod.snd on
    refine ⟨left ▸ keeper.step (.claimDue limit) before, same.symm ▸ ordinary, ?_, start, ?_, ordinary, ?_, ?_⟩
    · rintro ⟨t, step⟩ mem
      exact same.symm ▸ (of_mem_stepsOf ordinary mem).1
    · exact (keeper.claim before on).2 e mem
    · exact same.symm ▸ le_refl start
    · rintro u (rfl | none)
      · exact le_refl u
      · cases none
  | @others _ _ _ world' t _ h le before shown asked ih =>
    obtain ⟨after, since⟩ := ih.asked keeper positive h le before shown asked
    refine ⟨after, shown, ?_, since⟩
    rintro s mem
    rcases List.mem_cons.mp mem with rfl | later
    · exact before
    · exact le_trans before (h.next_le s later)
  | @step _ _ _ t step h ne carried ih =>
    cases step with
    | mark change =>
      obtain ⟨ms, marked⟩ := mark_of_mem_stepsOf h.next_mem
      exact ih.change keeper positive h nofun (discreet.marks _ marked)
    | renew =>
      obtain ⟨renewed, answer⟩ := carried rfl
      exact (ih.renewal keeper h answer).2
    | settle outcome =>
      cases outcome with
      | ok output => exact ih.change keeper positive h nofun (discreet.completed output t)
      | error error => exact ih.change keeper positive h nofun (discreet.failed error t)
    | finish => exact absurd rfl ne

/-- What a keeper locks, a dispatch keeps. -/
theorem KeepsClaim.of_keeper (keeper : Keeper w.queue inv holds ended locked w.renewEvery held gone)
    (positive : 0 < w.renewEvery) (initial : inv s₀) (discreet : w.Discreet holds e c) :
    w.KeepsClaim s₀ holds held gone e start c where
  ends h := by
    have mem := finish_mem_stepsOf w start c
    rw [h.parts, List.mem_append] at mem
    exact mem.resolve_left (h.unfinished _)
  leased {done t step left world} h := by
    obtain ⟨_, ordinary⟩ := of_mem_stepsOf h.ordinary h.next_mem
    exact keeper.held_of_since ordinary (h.soon positive) (h.secure keeper positive initial discreet).since
  recovered {done t step left world now} h le before shown := by
    obtain ⟨_, ordinary⟩ := of_mem_stepsOf h.ordinary h.next_mem
    have secure := h.secure keeper positive initial discreet
    have asked : w.queue.Asked (Spares holds e) now world.queue ((w.queue.recoverStalled now).on world.queue).2 :=
      .single ⟨.recoverStalled, nofun, rfl⟩
    exact keeper.held_of_since ordinary (h.soon positive) (secure.asked keeper positive h le before shown asked).2
  apart {done t step left world now limit out s} h le before shown on f mem same := by
    have secure := h.secure keeper positive initial discreet
    obtain ⟨r, locked, ordinary, _, last⟩ := secure.since
    exact keeper.running ordinary last shown ((h.soon positive).mono before) (keeper.shut secure.inv locked on mem same)
  renewed h answer := ((h.secure keeper positive initial discreet).renewal keeper h answer).1
  removed h answer := by
    have secure := h.secure keeper positive initial discreet
    obtain ⟨r, locked, _⟩ := secure.since
    exact keeper.releases secure.inv locked answer

end

end Worker

end Timetable
