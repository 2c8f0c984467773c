import Timetable.Proofs.Queue.Locks

/-!
# Claims that were given up

A claim of due entries, and the recovery of stalled ones, give up the claims whose lease is over. Whoever was handed
out an entry is heard as long as nobody finished the claim and it was not given up, and never again once it was
(`WorkQueue.Fences`). What fences earlier holders off is a `Fence`: the time of a claim lies before the end of its
lease, and whatever is claimed later shows a later time. `Fences.of_fence` carries it along the runs.
-/

namespace Timetable

/-- Whether a request gives up the claims whose lease is over. -/
def QueueRequest.GivesUp : QueueRequest → Prop
  | .claimDue _ | .recoverStalled => True
  | _ => False

/-- How the claims of a queue are told apart. -/
structure ClaimSigns (σ : Type) where
  /-- Two entries show one claim. -/
  same : StoredEntry → StoredEntry → Prop
  /-- The claim that an entry shows is the one that is held. -/
  held : StoredEntry → σ → Prop
  /-- The lease of whoever holds this identifier is over. -/
  late : StoredEntry → Instant → σ → Prop

namespace WorkQueue

variable {σ : Type}

/-- The clock never goes back, and nobody finishes a claim or gives it up. -/
def undisturbed (signs : ClaimSigns σ) (clock : Instant → Prop) (e : StoredEntry) : Rule σ := fun t s now request =>
  forward clock t s now request ∧ (∀ f, signs.same e f → request ≠ .finish f) ∧
    (request.GivesUp → ¬ signs.late e now s)

/-- In a run an entry was handed out at some time, which left a state. -/
inductive HandsOut (q : WorkQueue σ) (clock : Instant → Prop) (s₀ : σ) (e : StoredEntry) (now : Instant) : σ → Prop
  | claimed {t₀ t : Instant} {s s' : σ} {limit : Nat} {out : List StoredEntry} :
    q.Run (forward clock) t₀ s₀ t s → t ≤ now → clock now → (q.claimDue now limit).on s = (.ok out, s') → e ∈ out →
    HandsOut q clock s₀ e now s'

/-- A claim is held until it is finished or given up, and its holder is heard. It is given up when its lease is over, and
from then on that holder is ignored, whoever holds the identifier by then. -/
structure Fences (q : WorkQueue σ) (clock : Instant → Prop) (s₀ : σ) (signs : ClaimSigns σ)
    (heard ignored : StoredEntry → σ → Prop) : Prop where
  current : ∀ {e now s₁ t s}, q.HandsOut clock s₀ e now s₁ → q.Run (undisturbed signs clock e) now s₁ t s →
    signs.held e s
  hears : ∀ {e now s₁ t s}, q.HandsOut clock s₀ e now s₁ → q.Run (forward clock) now s₁ t s → signs.held e s →
    heard e s
  givenUp : ∀ {e now s₁ t s later request answer s'}, q.HandsOut clock s₀ e now s₁ →
    q.Run (undisturbed signs clock e) now s₁ t s → t ≤ later → clock later → request.GivesUp →
    signs.late e later s → (q.ask later request).on s = (.ok answer, s') → ¬ signs.held e s'
  stale : ∀ {e now s₁ t s later request t' s'}, q.HandsOut clock s₀ e now s₁ → q.Run (forward clock) now s₁ t s →
    t ≤ later → clock later → request.GivesUp → signs.held e s → ¬ signs.held e ((q.ask later request).on s).2 →
    q.Run (forward clock) later ((q.ask later request).on s).2 t' s' → ignored e s'

/-- What fences earlier holders off. Times are told apart by what is `after` what. -/
structure Fence (q : WorkQueue σ) (clock : Instant → Prop) (inv : σ → Prop) (signs : ClaimSigns σ)
    (after : Instant → Instant → Prop) : Prop where
  step : ∀ {now s} (request), inv s → inv ((q.ask now request).on s).2
  /-- A claim shows its time, and its lease ends later. -/
  claim : ∀ {now s limit out s' e}, inv s → clock now → (q.claimDue now limit).on s = (.ok out, s') → e ∈ out →
    e.processedOn = some now ∧ signs.held e s' ∧ ∀ u, signs.late e u s' → after u now
  keep : ∀ {now s e} (request), inv s → signs.held e s → (∀ f, signs.same e f → request ≠ .finish f) →
    (request.GivesUp → ¬ signs.late e now s) → signs.held e ((q.ask now request).on s).2
  /-- A lease is extended to a later time, or not at all. -/
  lease : ∀ {now s e t} (request), inv s → clock now → e.processedOn = some t →
    signs.held e ((q.ask now request).on s).2 → ∀ u, signs.late e u ((q.ask now request).on s).2 →
      after u now ∨ signs.held e s ∧ signs.late e u s
  /-- Only at its own time a claim is won. -/
  won : ∀ {now s e t} (request), inv s → e.processedOn = some t → after now t →
    signs.held e ((q.ask now request).on s).2 → signs.held e s
  release : ∀ {now s e t request answer s'}, inv s → e.processedOn = some t → after now t → request.GivesUp →
    signs.late e now s → (q.ask now request).on s = (.ok answer, s') → ¬ signs.held e s'
  mono : ∀ {t u v}, clock t → clock u → after u t → u ≤ v → after v t
  trans : ∀ {t u v}, clock t → t ≤ u → after v u → after v t

variable {q : WorkQueue σ} {clock : Instant → Prop} {inv : σ → Prop} {signs : ClaimSigns σ}
  {after : Instant → Instant → Prop} {heard ignored : StoredEntry → σ → Prop} {e : StoredEntry} {s₀ s₁ s : σ}
  {now t : Instant}

namespace Fence

/-- What holds of an entry that was handed out, in the state that this left. -/
theorem handsOut (fence : Fence q clock inv signs after) (start : inv s₀) (out : q.HandsOut clock s₀ e now s₁) :
    inv s₁ ∧ clock now ∧ e.processedOn = some now ∧ signs.held e s₁ ∧ ∀ u, signs.late e u s₁ → after u now := by
  cases out with
  | @claimed _ _ s _ limit _ run _ shown on mem =>
    have before : inv s := run.invariant start fun h _ => fence.step _ h
    have left : ((q.ask now (.claimDue limit)).on s).2 = s₁ := congrArg Prod.snd on
    exact ⟨left ▸ fence.step (.claimDue limit) before, shown, fence.claim before shown on mem⟩

/-- While nobody finishes a claim or gives it up, it is held. -/
theorem undisturbed (fence : Fence q clock inv signs after) (start : inv s₁) (held : signs.held e s₁)
    (run : q.Run (undisturbed signs clock e) now s₁ t s) : inv s ∧ signs.held e s := by
  induction run with
  | start => exact ⟨start, held⟩
  | @step _ _ _ request _ may ih =>
    obtain ⟨_, unfinished, running⟩ := may
    exact ⟨fence.step request ih.1, fence.keep request ih.1 ih.2 unfinished running⟩

/-- As long as a claim is held, its lease ends after the time that it shows. -/
theorem leased (fence : Fence q clock inv signs after) (start : inv s₁) (shown : clock now)
    (time : e.processedOn = some now) (leased : ∀ u, signs.late e u s₁ → after u now)
    (run : q.Run (forward clock) now s₁ t s) :
    inv s ∧ now ≤ t ∧ (signs.held e s → ∀ u, signs.late e u s → after u now) := by
  induction run with
  | start => exact ⟨start, le_refl now, fun _ => leased⟩
  | @step t later s request _ may ih =>
    obtain ⟨before, past, ih⟩ := ih
    have past : now ≤ later := le_trans past may.1
    refine ⟨fence.step request before, past, fun held u late => ?_⟩
    rcases fence.lease request before may.2 time held u late with ended | ⟨was, late⟩
    · exact fence.trans shown past ended
    · exact ih was u late

/-- A claim that was given up is never held again. -/
theorem lost (fence : Fence q clock inv signs after) (start : inv s₁) {later : Instant} (earlier : clock t)
    (shown : clock later) (time : e.processedOn = some t) (ended : after later t) (lost : ¬ signs.held e s₁) {u : Instant}
    (run : q.Run (forward clock) later s₁ u s) : inv s ∧ ¬ signs.held e s := by
  have all : inv s ∧ clock u ∧ after u t ∧ ¬ signs.held e s := by
    induction run with
    | start => exact ⟨start, shown, ended, lost⟩
    | @step _ v _ request _ may ih =>
      obtain ⟨before, shown, ended, ih⟩ := ih
      have ended : after v t := fence.mono earlier shown ended may.1
      exact ⟨fence.step request before, may.2, ended, fun held => ih (fence.won request before time ended held)⟩
  exact ⟨all.1, all.2.2.2⟩

end Fence

/-- A rule that asks for more allows fewer runs. -/
theorem Run.weaken {may may' : Rule σ} (run : q.Run may t s₀ now s)
    (weaker : ∀ {t s now request}, may t s now request → may' t s now request) : q.Run may' t s₀ now s := by
  induction run with
  | start => exact .start
  | step _ allowed ih => exact .step ih (weaker allowed)

theorem Fences.of_fence (fence : Fence q clock inv signs after) (start : inv s₀)
    (hears : ∀ {e t s}, inv s → e.processedOn = some t → signs.held e s → heard e s)
    (ignores : ∀ {e t s}, inv s → e.processedOn = some t → ¬ signs.held e s → ignored e s) :
    Fences q clock s₀ signs heard ignored where
  current out run := by
    obtain ⟨inv₁, _, _, held, _⟩ := fence.handsOut start out
    exact (fence.undisturbed inv₁ held run).2
  hears {e now s₁ t s} out run held := by
    obtain ⟨inv₁, begun, time, _, ends⟩ := fence.handsOut start out
    obtain ⟨inv₂, _, _⟩ := fence.leased inv₁ begun time ends run
    exact hears inv₂ time held
  givenUp {e now s₁ t s later request answer s'} out run le shown gives late on := by
    obtain ⟨inv₁, begun, time, held, ends⟩ := fence.handsOut start out
    obtain ⟨_, held⟩ := fence.undisturbed inv₁ held run
    obtain ⟨inv₂, _, leased⟩ := fence.leased inv₁ begun time ends (run.weaken And.left)
    exact fence.release inv₂ time (leased held later late) gives late on
  stale {e now s₁ t s later request t' s'} out run le shown gives held gone rest := by
    obtain ⟨inv₁, begun, time, _, ends⟩ := fence.handsOut start out
    obtain ⟨inv₂, _, leased⟩ := fence.leased inv₁ begun time ends run
    -- only the end of its lease can have cost the holder the claim
    have late : signs.late e later s := by
      by_contra running
      refine gone (fence.keep request inv₂ held (fun f _ finish => ?_) fun _ => running)
      rw [finish] at gives
      exact gives
    have inv₃ : inv ((q.ask later request).on s).2 := fence.step request inv₂
    obtain ⟨inv₄, lost⟩ := fence.lost inv₃ begun shown time (leased held later late) gone rest
    exact ignores inv₄ time lost

end WorkQueue

end Timetable
