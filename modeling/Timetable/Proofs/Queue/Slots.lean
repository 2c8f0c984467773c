import Mathlib.Data.List.Induction
import Timetable.Proofs.Queue.Lone
import Timetable.Proofs.Schedule.Fires

/-!
# Every slot is handed out once

A slot lasts from one fire of a specification to the next. If every slot of a key's one repetition sees a claim, and what
is handed out in it is finished before a claim in a later one, every fire is handed out once and in order
(`LocalQueue.fires_handed_out_once`), whatever is asked of other keys. All else that claims hand out has other keys.

What was handed out so far are the first fires, and the record waits for the one after them (`LocalQueue.Progress`).

How the slots are attended is `LocalQueue.Attended`. Besides, the run must be `LocalQueue.Undisturbed`: where the
calendar ends before the lease, in a leap second, or where another key's removal names the field of the repetition, fires
are left out (`LocalQueue.fires_left_out`).
-/

namespace Timetable.LocalQueue

/-- A request with the time at which it is asked. -/
abbrev Step := Instant × QueueRequest

variable {rules : ClaimRules} {q : LocalQueue} {key : String} {spec : RepeatSpec} {t₀ : Instant} {ts us : List Instant}
  {next n : Option Instant} {a b steps : List Step} {s : Step}

/-! ## Runs step by step -/

/-- The state after some steps. -/
def after (rules : ClaimRules) : LocalQueue → List Step → LocalQueue
  | q, [] => q
  | q, (now, request) :: steps => after rules (((workQueue rules).ask now request).on q).2 steps

/-- What a step hands out. -/
def handOut (rules : ClaimRules) (q : LocalQueue) : Step → List StoredEntry
  | (now, .claimDue limit) =>
    match ((claimDue rules now limit).on q).1 with
    | .ok out => out
    | .error _ => []
  | _ => []

def handedOut (rules : ClaimRules) : LocalQueue → List Step → List StoredEntry
  | _, [] => []
  | q, s :: steps => handOut rules q s ++ handedOut rules (after rules q [s]) steps

def claimTimes (steps : List Step) : List Instant :=
  steps.filterMap fun
    | (now, .claimDue _) => some now
    | _ => none

theorem after_append (q : LocalQueue) (a b : List Step) : after rules q (a ++ b) = after rules (after rules q a) b := by
  induction a generalizing q with
  | nil => rfl
  | cons s a ih => exact ih _

theorem handedOut_append (q : LocalQueue) (a b : List Step) :
    handedOut rules q (a ++ b) = handedOut rules q a ++ handedOut rules (after rules q a) b := by
  induction a generalizing q with
  | nil => rfl
  | cons s a ih =>
    rw [List.cons_append, handedOut, ih, handedOut, List.append_assoc]
    rfl

theorem handedOut_snoc (q : LocalQueue) (a : List Step) (s : Step) :
    handedOut rules q (a ++ [s]) = handedOut rules q a ++ handOut rules (after rules q a) s := by
  rw [handedOut_append, handedOut, handedOut, List.append_nil]

theorem claimTimes_append (a b : List Step) : claimTimes (a ++ b) = claimTimes a ++ claimTimes b := List.filterMap_append

theorem mem_claimTimes {c : Instant} : c ∈ claimTimes steps ↔ ∃ limit, (c, .claimDue limit) ∈ steps := by
  rw [claimTimes, List.mem_filterMap]
  constructor
  · rintro ⟨⟨now, request⟩, mem, claims⟩
    cases request with
    | claimDue limit =>
      cases claims
      exact ⟨limit, mem⟩
    | _ => cases claims
  · rintro ⟨limit, mem⟩
    exact ⟨_, mem, rfl⟩

/-- How the slots of a key's one repetition are attended in a run from a state: of the fires `ts` and the one after them. -/
structure Attended (rules : ClaimRules) (key : String) (spec : RepeatSpec) (ts : List Instant) (next : Option Instant)
    (q : LocalQueue) (steps : List Step) : Prop where
  /-- Nothing else is asked of the key. -/
  foreign : ∀ s ∈ steps, s.2.Foreign key
  /-- The clock of claims never goes back. -/
  ordered : (claimTimes steps).Pairwise (· ≤ ·)
  /-- Every slot sees a claim, and there is none after the last. -/
  each : ∀ t ∈ ts, ∃ c ∈ claimTimes steps, t ≤ c ∧ ∀ u, spec.IsNextFire t (some u) → c < u
  ended : ∀ c ∈ claimTimes steps, ∀ u, next = some u → c < u
  /-- No claim is cut short. -/
  room : ∀ a s b, steps = a ++ s :: b → ∀ limit, s.2 = .claimDue limit → (after rules q a).entries.size ≤ limit
  /-- What is handed out is finished before a claim in a later slot. -/
  finished : ∀ a s b, steps = a ++ s :: b → ∀ e ∈ handOut rules (after rules q a) s, e.key = key →
    ∀ u, spec.IsNextFire e.fireAt (some u) → ∀ b₁ s' b₂, b = b₁ ++ s' :: b₂ → ∀ limit, s'.2 = .claimDue limit →
      u ≤ s'.1 → ∃ t, (t, .finish e) ∈ b₁

/-- Whether a claim is the first from some fire on. -/
def Opens (ts : List Instant) (a : List Step) (c : Instant) : Prop := ∃ t ∈ ts, t ≤ c ∧ ∀ c' ∈ claimTimes a, c' < t

/-- Claims that are the first in their slot come where the calendar reaches the end of the lease and the next fire can be
asked for, and the record of the repetition is left alone. -/
structure Undisturbed (rules : ClaimRules) (key : String) (spec : RepeatSpec) (ts : List Instant) (steps : List Step) :
    Prop where
  reach : ∀ a s b, steps = a ++ s :: b → ∀ limit, s.2 = .claimDue limit → Opens ts a s.1 →
    rules.Reach s.1 ∧ spec.Plain s.1
  clear : ∀ s ∈ steps, ¬ s.2.Removes (repeatField key spec)

/-- Whether an entry of the key was handed out in a run and not finished. -/
def Unfinished (rules : ClaimRules) (key : String) (q : LocalQueue) (a : List Step) (e : StoredEntry) : Prop :=
  ∃ a₁ s a₂, a = a₁ ++ s :: a₂ ∧ e ∈ handOut rules (after rules q a₁) s ∧ e.key = key ∧ ∀ t, (t, .finish e) ∉ a₂

theorem Unfinished.snoc {e : StoredEntry} (h : Unfinished rules key q a e) (other : s.2 ≠ .finish e) :
    Unfinished rules key q (a ++ [s]) e := by
  obtain ⟨a₁, s₁, a₂, rfl, mem, own, open_⟩ := h
  refine ⟨a₁, s₁, a₂ ++ [s], by simp, mem, own, fun t mem => ?_⟩
  rcases List.mem_append.mp mem with mem | mem
  · exact open_ t mem
  · rw [List.mem_singleton] at mem
    exact other (mem ▸ rfl)

/-- How far a run has come: it has handed out the first fires, and the record waits for the one after them. If there are
none, there may be no record. -/
structure Progress (rules : ClaimRules) (key : String) (spec : RepeatSpec) (t₀ : Instant) (q : LocalQueue) (a : List Step)
    (us : List Instant) (n : Option Instant) : Prop where
  fires : spec.Fires t₀ us n
  handed : ((handedOut rules q a).filter (·.key == key)).map (·.fireAt) = us
  lone : ∃ stage, stage.join = n ∧
    Lone key spec stage (fun e => spec.IsNextFire e.fireAt n ∧ Unfinished rules key q a e) (after rules q a)
  seen : ∀ c ∈ claimTimes a, ∀ u, n = some u → c < u
  claimed : ∀ t ∈ us, ∃ c ∈ claimTimes a, t ≤ c

namespace Progress

/-- Before the fire nothing of the key is handed out. -/
theorem apart (h : Progress rules key spec t₀ q a us n) (early : ∀ c ∈ claimTimes [s], ∀ u, n = some u → c < u) :
    ∀ e ∈ handOut rules (after rules q a) s, e.key ≠ key := by
  obtain ⟨stage, rfl, lone⟩ := h.lone
  obtain ⟨now, request⟩ := s
  cases request with
  | claimDue limit =>
    have ends : (claimDue rules now limit).Ends (after rules q a) _ _ := lone.claimDue_apart
      (fun t waits => early now (mem_claimTimes.mpr ⟨limit, List.mem_cons_self⟩) t (by rw [waits]; rfl)) limit
    intro e mem
    simp only [handOut] at mem
    split at mem
    · next out on => exact (ends.1 out on).2 e mem
    · cases mem
  | _ => exact fun e mem => by cases mem

/-- A step before the fire. -/
theorem quiet (h : Progress rules key spec t₀ q a us n) (foreign : s.2.Foreign key)
    (clear : ¬ s.2.Removes (repeatField key spec)) (early : ∀ c ∈ claimTimes [s], ∀ u, n = some u → c < u) :
    Progress rules key spec t₀ q (a ++ [s]) us n where
  fires := h.fires
  handed := by
    have none : (handOut rules (after rules q a) s).filter (·.key == key) = [] :=
      List.filter_eq_nil_iff.mpr fun e mem => by simpa using h.apart early e mem
    rw [handedOut_snoc, List.filter_append, none, List.append_nil]
    exact h.handed
  lone := by
    obtain ⟨stage, rfl, lone⟩ := h.lone
    obtain ⟨now, request⟩ := s
    have asked : Lone key spec stage _ (((workQueue rules).ask now request).on (after rules q a)).2 :=
      lone.ask foreign (fun _ => clear) fun limit claims t waits => by
        cases claims
        exact early now (mem_claimTimes.mpr ⟨limit, List.mem_cons_self⟩) t (by rw [waits]; rfl)
    rw [after_append]
    exact ⟨stage, rfl, asked.mono fun e works => ⟨works.1.1, works.1.2.snoc works.2⟩⟩
  seen c mem := by
    rw [claimTimes_append] at mem
    exact (List.mem_append.mp mem).elim (h.seen c) (early c)
  claimed t mem := by
    obtain ⟨c, mem, le⟩ := h.claimed t mem
    rw [claimTimes_append]
    exact ⟨c, List.mem_append_left _ mem, le⟩

/-- A claim in a new slot. -/
theorem fire {c u : Instant} {limit : Nat} (h : Progress rules key spec t₀ q a us (some u)) (due : u ≤ c)
    (idle : ∀ e, spec.IsNextFire e.fireAt (some u) → ¬ Unfinished rules key q a e) (usable : spec.Usable)
    (next : spec.nextAfter c = .ok n) (first : spec.IsNextFire u n) (later : ∀ t, n = some t → c < t)
    (reach : rules.Reach c) (few : (after rules q a).entries.size ≤ limit) :
    Progress rules key spec t₀ q (a ++ [(c, .claimDue limit)]) (us ++ [u]) n := by
  obtain ⟨stage, waits, lone⟩ := h.lone
  obtain rfl : stage = some (some u) := Option.join_eq_some_iff.mp waits
  obtain ⟨out, q', l, x, l', on, lone, rfl, own, fireAt, others⟩ :=
    lone.claimDue_current (fun e works => idle e works.1 works.2) usable due next later reach few
  have hands : handOut rules (after rules q a) (c, .claimDue limit) = l ++ x :: l' := by rw [handOut, on]
  have times : claimTimes (a ++ [(c, .claimDue limit)]) = claimTimes a ++ [c] := claimTimes_append a _
  refine ⟨h.fires.snoc first, ?handed, ?lone, fun c' mem t waits => ?seen, fun t mem => ?claimed⟩
  case handed =>
    have none {l : List StoredEntry} (others : ∀ d ∈ l, d.key ≠ key) : l.filter (·.key == key) = [] :=
      List.filter_eq_nil_iff.mpr fun d mem => by simpa using others d mem
    rw [handedOut_snoc, List.filter_append, List.map_append, h.handed, hands, List.filter_append,
      none fun d mem => others d (List.mem_append_left _ mem), List.filter_cons_of_pos (by simpa using own),
      none fun d mem => others d (List.mem_append_right _ mem)]
    simp [fireAt]
  case lone =>
    rw [after_append]
    refine ⟨some n, rfl, ?_⟩
    change Lone key spec (some n) _ ((claimDue rules c limit).on (after rules q a)).2
    rw [on]
    refine lone.mono ?_
    rintro _ rfl
    exact ⟨fireAt.symm ▸ first, a, (c, .claimDue limit), [], rfl, by simp [hands], own, by simp⟩
  case seen =>
    rw [times, List.mem_append, List.mem_singleton] at mem
    rcases mem with mem | rfl
    · exact lt_trans (h.seen c' mem u rfl) (lt_of_le_of_lt due (later t waits))
    · exact later t waits
  case claimed =>
    rw [times]
    rcases List.mem_append.mp mem with mem | mem
    · obtain ⟨c', mem, le⟩ := h.claimed t mem
      exact ⟨c', List.mem_append_left _ mem, le⟩
    · rw [List.mem_singleton.mp mem]
      exact ⟨c, by simp, due⟩

end Progress

/-- Nobody is at work on the key when a claim comes in a later slot. -/
theorem Attended.idle (h : Attended rules key spec ts next q steps) {c u : Instant} {limit : Nat} {e : StoredEntry}
    (split : steps = a ++ (c, .claimDue limit) :: b) (due : u ≤ c) (first : spec.IsNextFire e.fireAt (some u)) :
    ¬ Unfinished rules key q a e := by
  rintro ⟨a₁, s, a₂, rfl, mem, own, open_⟩
  obtain ⟨t, finished⟩ := h.finished a₁ s (a₂ ++ (c, .claimDue limit) :: b) (by simpa using split) e mem own u first
    a₂ _ b rfl limit rfl due
  exact open_ t finished

/-- Since every slot sees a claim and the clock never goes back, the first claim from a fire on comes in its slot. -/
theorem Attended.slot (h : Attended rules key spec ts next q steps) {c u : Instant} {limit : Nat}
    (split : steps = a ++ (c, .claimDue limit) :: b) (mem : u ∈ ts) (seen : ∀ c ∈ claimTimes a, c < u) :
    ∀ v, spec.IsNextFire u (some v) → c < v := by
  intro v first
  obtain ⟨c', mem', from_, before⟩ := h.each u mem
  have times : claimTimes steps = claimTimes a ++ c :: claimTimes b := by
    rw [split, claimTimes_append]
    rfl
  have ordered := h.ordered
  rw [times] at mem' ordered
  rcases List.mem_append.mp mem' with early | late
  · exact absurd from_ (not_le.mpr (seen c' early))
  · rcases List.mem_cons.mp late with rfl | late
    · exact before v first
    · exact lt_of_le_of_lt (List.rel_of_pairwise_cons (List.pairwise_append.mp ordered).2.1 late) (before v first)

/-- One step takes a run on. -/
theorem Progress.step (h : Progress rules key spec t₀ q a us n) (attended : Attended rules key spec ts next q steps)
    (undisturbed : Undisturbed rules key spec ts steps) (yearless : spec.Yearless) (since : 0 ≤ t₀.second)
    (fires : spec.Fires t₀ ts next) (split : steps = a ++ s :: b) :
    ∃ us n, Progress rules key spec t₀ q (a ++ [s]) us n := by
  have mem : s ∈ steps := split ▸ by simp
  by_cases early : ∀ c ∈ claimTimes [s], ∀ u, n = some u → c < u
  · exact ⟨us, n, h.quiet (attended.foreign s mem) (undisturbed.clear s mem) early⟩
  · -- a claim from the fire on
    push Not at early
    obtain ⟨c, claims, u, rfl, due⟩ := early
    obtain ⟨limit, claims⟩ := mem_claimTimes.mp claims
    obtain rfl := List.mem_singleton.mp claims
    have mem : u ∈ ts := fires.mem h.fires.firesAt h.fires.lt fun v waits =>
      lt_of_le_of_lt due (attended.ended c (mem_claimTimes.mpr ⟨limit, mem⟩) v waits)
    have seen (c) (mem : c ∈ claimTimes a) : c < u := h.seen c mem u rfl
    obtain ⟨reach, plain⟩ := undisturbed.reach a _ b split limit rfl ⟨u, mem, due, seen⟩
    have since : 0 ≤ c.second := since.trans (Instant.second_mono (h.fires.lt.le.trans due))
    obtain ⟨n', next⟩ := RepeatSpec.nextAfter_isOk yearless.usable reach.2
    have first := RepeatSpec.nextAfter_isNextFire yearless since plain next
    -- the next fire after the claim is the next one after the fire
    obtain ⟨n'', following⟩ := fires.following mem
    have slot (v : Instant) (waits : n'' = some v) : c < v := attended.slot split mem seen v (waits ▸ following)
    obtain rfl := (following.later due slot).unique first
    exact ⟨us ++ [u], n'', h.fire due (fun e first => attended.idle split due first) yearless.usable next following slot
      reach (attended.room a _ b split limit rfl)⟩

theorem Attended.progress (h : Attended rules key spec ts next q steps) (undisturbed : Undisturbed rules key spec ts steps)
    (yearless : spec.Yearless) (since : 0 ≤ t₀.second) (fires : spec.Fires t₀ ts next)
    (start : Progress rules key spec t₀ q [] [] n) (split : steps = a ++ b) :
    ∃ us n, Progress rules key spec t₀ q a us n := by
  induction a using List.reverseRecOn generalizing b with
  | nil => exact ⟨[], n, start⟩
  | append_singleton a s ih =>
    have split : steps = a ++ s :: b := by simpa using split
    obtain ⟨us, m, progress⟩ := ih split
    exact progress.step h undisturbed yearless since fires split

/-- Before the repetition is added, the queue holds nothing of the key. -/
theorem lone_after {W : StoredEntry → Prop} (lone : Lone key spec none W q) (foreign : ∀ s ∈ steps, s.2.Foreign key) :
    Lone key spec none W (after rules q steps) := by
  induction steps generalizing q with
  | nil => exact lone
  | cons s steps ih =>
    refine ih ?_ fun s mem => foreign s (List.mem_cons_of_mem _ mem)
    exact (lone.ask (foreign s List.mem_cons_self) (fun never => by cases never) fun _ _ _ never => by cases never).mono
      fun _ works => works.1

/-- The repetition is added, unless the calendar ends before its first fire. -/
theorem Progress.start {payload : Json} (yearless : spec.Yearless) (since : 0 ≤ t₀.second) (plain : spec.Plain t₀)
    (unused : Lone key spec none (fun _ => False) q) :
    ∃ n, Progress rules key spec t₀ (after rules q [(t₀, .addRepeating key spec payload)]) [] [] n := by
  cases next : spec.nextAfter t₀ with
  | ok n =>
    refine ⟨n, RepeatSpec.nextAfter_isNextFire yearless since plain next, rfl, ⟨some n, rfl, ?_⟩, ?_, ?_⟩
    · exact (unused.addRepeating yearless.usable payload next).mono fun _ never => never.elim
    · exact fun c mem => by simp [claimTimes] at mem
    · exact fun t mem => by simp at mem
  | error failure =>
    refine ⟨none, RepeatSpec.isNextFire_of_error yearless since next, rfl, ⟨none, rfl, ?_⟩, ?_, ?_⟩
    · exact (unused.addRepeating_fails yearless.usable payload next).mono fun _ never => never.elim
    · exact fun c mem => by simp [claimTimes] at mem
    · exact fun t mem => by simp at mem

/-- If every slot of a key's one repetition sees a claim, and what is handed out is finished in time, every fire is handed
out once and in order. A claim in whose slot there was another claim before hands out nothing of the key. -/
theorem fires_handed_out_once {payload : Json} {before : List Step} (yearless : spec.Yearless) (since : 0 ≤ t₀.second)
    (plain : spec.Plain t₀) (fires : spec.Fires t₀ ts next) (foreign : ∀ s ∈ before, s.2.Foreign key)
    (added : q = after rules {} (before ++ [(t₀, .addRepeating key spec payload)]))
    (attended : Attended rules key spec ts next q steps) (undisturbed : Undisturbed rules key spec ts steps) :
    ((handedOut rules q steps).filter (·.key == key)).map (·.fireAt) = ts ∧
      ∀ a s b, steps = a ++ s :: b → (∃ c ∈ t₀ :: claimTimes a, ∀ t, c < t → t ≤ s.1 → ¬ spec.FiresAt t) →
        ∀ e ∈ handOut rules (after rules q a) s, e.key ≠ key := by
  obtain ⟨n, start⟩ : ∃ n, Progress rules key spec t₀ q [] [] n := by
    rw [added, after_append]
    exact Progress.start yearless since plain (lone_after .empty foreign)
  constructor
  · obtain ⟨us, m, progress⟩ := attended.progress undisturbed yearless since fires start (List.append_nil steps).symm
    rw [progress.handed]
    refine progress.fires.unique fires (fun t mem u waits => ?_) fun t mem u waits => ?_
    · obtain ⟨c, mem, le, -⟩ := attended.each t mem
      exact lt_of_le_of_lt le (progress.seen c mem u waits)
    · obtain ⟨c, mem, le⟩ := progress.claimed t mem
      exact lt_of_le_of_lt le (attended.ended c mem u waits)
  · rintro a s b split ⟨c, earlier, none⟩
    obtain ⟨us, m, progress⟩ := attended.progress undisturbed yearless since fires start split
    refine progress.apart fun c' mem u waits => ?_
    subst waits
    by_contra due
    obtain ⟨limit, claims⟩ := mem_claimTimes.mp mem
    obtain rfl := List.mem_singleton.mp claims
    refine none u ?_ (not_lt.mp due) progress.fires.firesAt
    rcases List.mem_cons.mp earlier with rfl | earlier
    · exact progress.fires.lt
    · exact progress.seen c earlier u rfl

/-! ## Two slots -/

/-- What holds where a list starts, and of the rest, holds wherever it is taken apart. -/
theorem splits_cons {α : Type} {x : α} {l : List α} {P : List α → α → List α → Prop} (here : P [] x l)
    (later : ∀ a y b, l = a ++ y :: b → P (x :: a) y b) : ∀ a y b, x :: l = a ++ y :: b → P a y b := by
  rintro (_ | ⟨z, a⟩) y b split
  · cases split
    exact here
  · obtain ⟨rfl, rest⟩ := List.cons.inj split
    exact later a y b rest

theorem splits_nil {α : Type} {P : List α → α → List α → Prop} : ∀ a y b, [] = a ++ y :: b → P a y b :=
  fun a y b split => by simp at split

/-- Two slots are attended if there is a claim in each, and none after them. -/
theorem attended_of_two {t u v c d : Instant} (second : spec.IsNextFire t (some u)) (third : spec.IsNextFire u (some v))
    (foreign : ∀ s ∈ steps, s.2.Foreign key) (ordered : (claimTimes steps).Pairwise (· ≤ ·))
    (claims : c ∈ claimTimes steps ∧ d ∈ claimTimes steps) (inFirst : t ≤ c ∧ c < u) (inSecond : u ≤ d)
    (ended : ∀ c ∈ claimTimes steps, c < v)
    (room : ∀ a s b, steps = a ++ s :: b → ∀ limit, s.2 = .claimDue limit → (after rules q a).entries.size ≤ limit)
    (finished : ∀ a s b, steps = a ++ s :: b → ∀ e ∈ handOut rules (after rules q a) s, e.key = key →
      ∀ u, spec.IsNextFire e.fireAt (some u) → ∀ b₁ s' b₂, b = b₁ ++ s' :: b₂ → ∀ limit, s'.2 = .claimDue limit →
        u ≤ s'.1 → ∃ t, (t, .finish e) ∈ b₁) :
    Attended rules key spec [t, u] (some v) q steps := by
  refine ⟨foreign, ordered, fun t' mem => ?_, ?_, room, finished⟩
  · rcases List.mem_cons.mp mem with rfl | mem
    · exact ⟨c, claims.1, inFirst.1, second.before inFirst.2⟩
    · obtain rfl := List.mem_singleton.mp mem
      exact ⟨d, claims.2, inSecond, third.before (ended d claims.2)⟩
  · rintro c mem v ⟨⟩
    exact ended c mem

/-- Of seconds, two are handed out once, with a second claim in the slot of the first and another key in between. -/
theorem two_fires_handed_out_once :
    let e : StoredEntry :=
      { StoredEntry.ofFire "a" (.every 1000) (.ofMillis 1000) .null with processedOn := some (.ofMillis 1500) }
    let steps : List Step := [(.ofMillis 1500, .claimDue 5), (.ofMillis 1600, .finish e), (.ofMillis 1700, .claimDue 5),
      (.ofMillis 2000, .claimDue 5)]
    let q := after {} {} [(.ofMillis 0, .addDelayed "b" 60000 .null), (.ofMillis 0, .addRepeating "a" (.every 1000) .null)]
    ((handedOut {} q steps).filter (·.key == "a")).map (·.fireAt) = [.ofMillis 1000, .ofMillis 2000] ∧
      ∀ e ∈ handOut {} (after {} q (steps.take 2)) (.ofMillis 1700, .claimDue 5), e.key ≠ "a" := by
  intro e steps q
  have yearless : (RepeatSpec.every 1000).Yearless := by constructor <;> decide
  have next (ms u : Int) (since : 0 ≤ (Instant.ofMillis ms).second) (plain : ¬ (Instant.ofMillis ms).InLeapSecond)
      (next : (RepeatSpec.every 1000).nextAfter (.ofMillis ms) = .ok (some (.ofMillis u))) :
      (RepeatSpec.every 1000).IsNextFire (.ofMillis ms) (some (.ofMillis u)) :=
    RepeatSpec.nextAfter_isNextFire yearless since plain next
  have first := next 0 1000 (by decide) (by decide) (by decide)
  have second := next 1000 2000 (by decide) (by decide) (by decide)
  have third := next 2000 3000 (by decide) (by decide) (by decide)
  have attended : Attended {} "a" (.every 1000) [.ofMillis 1000, .ofMillis 2000] (some (.ofMillis 3000)) q steps := by
    refine attended_of_two (c := .ofMillis 1500) (d := .ofMillis 2000) second third (by decide) (by decide) (by decide)
      (by decide) (by decide) (by decide) ?_ ?_
    · refine splits_cons ?_ (splits_cons ?_ (splits_cons ?_ (splits_cons ?_ splits_nil))) <;> rintro limit ⟨⟩ <;>
        decide +kernel
    · refine splits_cons ?_ (splits_cons ?_ (splits_cons ?_ (splits_cons ?_ splits_nil)))
      · intro d mem _ u following
        have only : handOut {} (after {} q []) (.ofMillis 1500, .claimDue 5) = [e] := by decide +kernel
        rw [only, List.mem_singleton] at mem
        subst mem
        refine splits_cons (fun limit never => by cases never) fun a s b _ limit _ _ => ⟨.ofMillis 1600, List.mem_cons_self⟩
      · exact fun d mem => by cases mem
      · have none : handOut {} (after {} q (steps.take 2)) (.ofMillis 1700, .claimDue 5) = [] := by decide +kernel
        exact fun d mem => by cases none ▸ mem
      · exact fun _ _ _ _ _ => splits_nil
  have undisturbed : Undisturbed {} "a" (.every 1000) [.ofMillis 1000, .ofMillis 2000] steps := by
    have times : ∀ c ∈ claimTimes steps, ({} : ClaimRules).Reach c ∧ (RepeatSpec.every 1000).Plain c := by decide +kernel
    refine ⟨fun a s b split limit claims _ => times s.1 ?_, by decide⟩
    have mem : s ∈ steps := by rw [split]; simp
    exact mem_claimTimes.mpr ⟨limit, claims ▸ mem⟩
  have foreign : ∀ s ∈ ([(.ofMillis 0, .addDelayed "b" 60000 .null)] : List Step), s.2.Foreign "a" := by decide
  have fires : (RepeatSpec.every 1000).Fires (.ofMillis 0) [.ofMillis 1000, .ofMillis 2000] (some (.ofMillis 3000)) :=
    ⟨first, second, third⟩
  obtain ⟨handed, once⟩ := fires_handed_out_once yearless (by decide) (by decide) fires foreign rfl attended undisturbed
  refine ⟨handed, once (steps.take 2) _ [(.ofMillis 2000, .claimDue 5)] rfl ⟨.ofMillis 1500, by decide, ?_⟩⟩
  intro t later until_ at_
  exact absurd (second.2.2 t (lt_trans (by decide) later) at_) (not_le.mpr (lt_of_le_of_lt until_ (by decide)))

/-! ## Fires that are left out -/

/-- Whether not all seconds are handed out although every slot is attended. -/
def LeavesOut (key : String) (t₀ : Instant) (ts : List Instant) (next : Option Instant) (steps : List Step) : Prop :=
  let q := after {} {} [(t₀, .addRepeating key (.every 1000) .null)]
  0 ≤ t₀.second ∧ (RepeatSpec.every 1000).Fires t₀ ts next ∧ Attended {} key (.every 1000) ts next q steps ∧
    ((handedOut {} q steps).filter (·.key == key)).map (·.fireAt) ≠ ts

theorem next_second {t u : Instant} (since : 0 ≤ t.second) (plain : ¬ t.InLeapSecond)
    (next : (RepeatSpec.every 1000).nextAfter t = .ok (some u)) : (RepeatSpec.every 1000).IsNextFire t (some u) :=
  RepeatSpec.nextAfter_isNextFire (by constructor <;> decide) since plain next

/-- A run with a claim in one slot that hands out nothing. -/
theorem leavesOut_of_none {key : String} {t₀ t u c : Instant} {steps : List Step} (since : 0 ≤ t₀.second)
    (first : (RepeatSpec.every 1000).IsNextFire t₀ (some t)) (second : (RepeatSpec.every 1000).IsNextFire t (some u))
    (foreign : ∀ s ∈ steps, s.2.Foreign key) (times : claimTimes steps = [c]) (from_ : t ≤ c) (before : c < u)
    (room : ∀ a s b, steps = a ++ s :: b → ∀ limit, s.2 = .claimDue limit →
      (after {} (after {} {} [(t₀, .addRepeating key (.every 1000) .null)]) a).entries.size ≤ limit)
    (none : handedOut {} (after {} {} [(t₀, .addRepeating key (.every 1000) .null)]) steps = []) :
    LeavesOut key t₀ [t] (some u) steps := by
  refine ⟨since, ⟨first, second⟩, ⟨foreign, by simp [times], ?_, ?_, room, ?_⟩, by simp [none]⟩
  · intro t' mem
    obtain rfl := List.mem_singleton.mp mem
    exact ⟨c, by simp [times], from_, second.before before⟩
  · rintro c' mem v ⟨⟩
    rw [times, List.mem_singleton] at mem
    exact mem ▸ before
  · rintro a s b rfl e mem
    rw [handedOut_append, List.append_eq_nil_iff, handedOut, List.append_eq_nil_iff] at none
    simp [none.2.1] at mem

/-- What is asked for cannot be left out: that the calendar reaches the end of a lease that starts in the slot, that the
clock is in no leap second when the repetition is added, nor when it is claimed first in a slot, and that no other key's
removal names its field. -/
theorem fires_left_out :
    LeavesOut "a" ⟨8210266876680, 0⟩ [⟨8210266876681, 0⟩] (some ⟨8210266876682, 0⟩)
      [(⟨8210266876681, 0⟩, .claimDue 5)] ∧
    LeavesOut "a" ⟨1483228799, 1500000000⟩ [⟨1483228800, 0⟩] (some ⟨1483228801, 0⟩)
      [(⟨1483228800, 0⟩, .claimDue 5)] ∧
    LeavesOut "a" ⟨1483228798, 0⟩ [⟨1483228799, 0⟩, ⟨1483228800, 0⟩] (some ⟨1483228801, 0⟩)
      [(⟨1483228799, 1500000000⟩, .claimDue 5),
       (⟨1483228799, 1600000000⟩, .finish { StoredEntry.ofFire "a" (.every 1000) ⟨1483228799, 0⟩ .null with
          processedOn := some ⟨1483228799, 1500000000⟩ }),
       (⟨1483228800, 500000000⟩, .claimDue 5)] ∧
    LeavesOut "k::cron:x" ⟨0, 0⟩ [⟨1, 0⟩] (some ⟨2, 0⟩)
      [(⟨0, 500000000⟩, .removeRepeating "k" (.cron "x::every:1000")), (⟨1, 0⟩, .claimDue 5)] := by
  refine ⟨?_, ?_, ?_, ?_⟩
  · refine leavesOut_of_none (by decide) (next_second (by decide) (by decide) (by decide))
      (next_second (by decide) (by decide) (by decide)) (by decide) rfl (by decide) (by decide) ?_ (by decide +kernel)
    exact splits_cons (by rintro _ ⟨⟩; decide +kernel) splits_nil
  · have first : (RepeatSpec.every 1000).IsNextFire ⟨1483228799, 999999999⟩ (some ⟨1483228800, 0⟩) :=
      next_second (by decide) (by decide) (by decide)
    refine leavesOut_of_none (by decide) (first.later (by decide) (by rintro _ ⟨⟩; decide))
      (next_second (by decide) (by decide) (by decide)) (by decide) rfl (by decide) (by decide) ?_ (by decide +kernel)
    exact splits_cons (by rintro _ ⟨⟩; decide +kernel) splits_nil
  · have second : (RepeatSpec.every 1000).IsNextFire ⟨1483228799, 0⟩ (some ⟨1483228800, 0⟩) :=
      next_second (by decide) (by decide) (by decide)
    have third : (RepeatSpec.every 1000).IsNextFire ⟨1483228800, 0⟩ (some ⟨1483228801, 0⟩) :=
      next_second (by decide) (by decide) (by decide)
    refine ⟨by decide, ⟨next_second (by decide) (by decide) (by decide), second, third⟩, ?_, by decide +kernel⟩
    refine attended_of_two (c := ⟨1483228799, 1500000000⟩) (d := ⟨1483228800, 500000000⟩) second third (by decide)
      (by decide) (by decide) (by decide) (by decide) (by decide) ?_ ?_
    · refine splits_cons ?_ (splits_cons ?_ (splits_cons ?_ splits_nil)) <;> rintro limit ⟨⟩ <;> decide +kernel
    · refine splits_cons (fun e mem _ u following => ?_) (splits_cons (fun e mem => by cases mem)
        (splits_cons (fun _ _ _ _ _ => splits_nil) splits_nil))
      have only : handOut {} (after {} {} [(⟨1483228798, 0⟩, .addRepeating "a" (.every 1000) .null)])
          (⟨1483228799, 1500000000⟩, .claimDue 5) = [{ StoredEntry.ofFire "a" (.every 1000) ⟨1483228799, 0⟩ .null with
            processedOn := some ⟨1483228799, 1500000000⟩ }] := by decide +kernel
      obtain rfl := List.mem_singleton.mp (only ▸ mem)
      exact splits_cons (fun limit never => by cases never) fun _ _ _ _ _ _ _ => ⟨_, List.mem_cons_self⟩
  · refine leavesOut_of_none (by decide) (next_second (by decide) (by decide) (by decide))
      (next_second (by decide) (by decide) (by decide)) (by decide) rfl (by decide) (by decide) ?_ (by decide +kernel)
    exact splits_cons (fun _ never => by cases never) (splits_cons (by rintro _ ⟨⟩; decide +kernel) splits_nil)

end Timetable.LocalQueue
