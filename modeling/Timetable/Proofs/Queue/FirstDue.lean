import Timetable.Proofs.Queue.Ripe
import Timetable.Proofs.Queue.SharedFiring

/-!
# What a claim in a shared keyspace hands out, and what it leaves

A claim lists as many identifiers as it may claim of those that are due, and only then goes through them turn by turn. A
fire that is dropped in its turn (`SharedQueue.Barred`) has taken the place of another entry that was not listed. What one
turn hands out and leaves of what is due is `SharedQueue.Turn`; by induction over the turns follows what all of them do
(`SharedQueue.Turns`), and from that what the claim does (`SharedQueue.FirstDue`): whatever it hands out is due, it leaves
exactly what was not listed, and so it falls short of what it may claim, with other entries still due, if and only if it
drops a fire and more were due than it may claim.

`SharedQueue.first_due_of_run` says so of every state that a run on whole milliseconds reaches, and
`SharedQueue.dropped_fire_takes_place` shows a claim of one that hands out nothing and leaves an entry that is due.
-/

namespace Timetable.SharedQueue

open QueueContents

variable {rules : ClaimRules} {now t : Instant} {s s' : Keyspace} {id : String} {stored : StoredEntry} {ids : List String}
  {one : Option StoredEntry} {out : List StoredEntry} {limit : Nat}

/-! ## Turns -/

namespace Turn

/-- No turn changes what a record repeats. -/
theorem countable (turn : Turn rules now id stored s s' one) (h : Countable s) : Countable s' := by
  intro f r hr
  cases repeats : stored.repeats with
  | none => exact h f r (turn.single repeats ▸ hr)
  | some spec =>
    have advanced := turn.fire spec repeats
    by_cases own : f = repeatField stored.key spec
    · subst own
      by_cases waits : ∃ r₀, (contents s).record (repeatField stored.key spec) = some r₀ ∧ r₀.isCurrent stored = true
      · obtain ⟨r₀, hr₀, current⟩ := waits
        obtain ⟨r', hr', _, same, _⟩ := advanced.moved r₀ hr₀ current
        obtain rfl := Option.some.inj (hr'.symm.trans hr)
        exact same ▸ h _ r₀ hr₀
      · have stays := advanced.stays fun r₀ hr₀ => Bool.eq_false_iff.mpr fun current => waits ⟨r₀, hr₀, current⟩
        exact h _ r (stays ▸ hr)
    · exact h f r (advanced.others f own ▸ hr)

/-- What is handed out is the entry whose turn it is. -/
theorem eq_of_handed (turn : Turn rules now id stored s s' one) {c : StoredEntry} (handed : one = some c) :
    c = { stored with processedOn := some now } := by
  rcases turn.fate with ⟨-, none, -⟩ | ⟨-, some⟩
  · cases none.symm.trans handed
  · exact (Option.some.inj (some.symm.trans handed)).symm

/-- Only fires are dropped. -/
theorem repeats_of_dropped (turn : Turn rules now id stored s s' one) (dropped : one = none) : stored.repeats.isSome := by
  rcases turn.fate with ⟨⟨spec, fire, -⟩, -⟩ | ⟨-, some⟩
  · exact fire ▸ rfl
  · cases dropped.symm.trans some

/-- What is due under other identifiers stays as it is. -/
theorem entry_of_due (turn : Turn rules now id stored s s' one) {k : String} (due : Due now s k) (other : k ≠ id) :
    (contents s').entry k = (contents s).entry k := by
  obtain ⟨f, score, waits, -⟩ := due
  have after := turn.grows k _ other (fun h => by cases h) waits
  simp only [contents, after.entry, waits.entry]

end Turn

namespace Turns

/-- The entries that are handed out come in the order of the turns. -/
theorem sublist (turns : Turns rules now ids s out s') (kept : Kept (Readable now) s) :
    (out.map (·.id)).Sublist ids := by
  induction turns with
  | none => exact List.nil_sublist []
  | @turn id ids _ _ _ stored one _ entry turn _ ih =>
    have own := (entry_eq_some kept entry).2.1
    cases one with
    | none => exact (ih turn.kept).cons id
    | some c =>
      have same : c.id = id := by rw [turn.eq_of_handed rfl, own]
      rw [List.map_append, Option.toList_some, List.map_cons, List.map_nil, same]
      exact (ih turn.kept).cons_cons id

/-- What is handed out was stored before, but for the time of the claim. -/
theorem handed (turns : Turns rules now ids s out s') (kept : Kept (Readable now) s) (nodup : ids.Nodup)
    (due : ∀ id ∈ ids, Due now s id) {c : StoredEntry} (mem : c ∈ out) :
    ∃ e, (contents s).entry c.id = some e ∧ c = { e with processedOn := some now } := by
  induction turns with
  | none => cases mem
  | @turn id ids s s₁ s' stored one out entry turn rest ih =>
    rcases List.mem_append.mp mem with mine | later
    · have same := turn.eq_of_handed (Option.mem_toList.mp mine)
      have own := (entry_eq_some kept entry).2.1
      exact ⟨stored, by rw [same, own, entry], same⟩
    · obtain ⟨e, held, same⟩ := ih turn.kept nodup.of_cons (turn.due_rest nodup due) later
      have listed : c.id ∈ ids := (rest.sublist turn.kept).subset (List.mem_map_of_mem later)
      have other : c.id ≠ id := fun h => (List.nodup_cons.mp nodup).1 (h ▸ listed)
      exact ⟨e, turn.entry_of_due (due c.id (List.mem_cons_of_mem id listed)) other ▸ held, same⟩

/-- Whatever has a turn and is not handed out is a fire. -/
theorem dropped (turns : Turns rules now ids s out s') (kept : Kept (Readable now) s) (nodup : ids.Nodup)
    (due : ∀ id ∈ ids, Due now s id) (mem : id ∈ ids) (missing : id ∉ out.map (·.id)) :
    ∃ e, (contents s).entry id = some e ∧ e.repeats.isSome := by
  induction turns with
  | none => cases mem
  | @turn k ids s s₁ s' stored one out entry turn rest ih =>
    rw [List.map_append, List.mem_append, not_or] at missing
    rcases List.mem_cons.mp mem with rfl | later
    · cases one with
      | none => exact ⟨stored, entry, turn.repeats_of_dropped rfl⟩
      | some c =>
        have own := (entry_eq_some kept entry).2.1
        exact absurd (by simp [turn.eq_of_handed rfl, own]) missing.1
    · obtain ⟨e, held, fire⟩ := ih turn.kept nodup.of_cons (turn.due_rest nodup due) later missing.2
      have other : id ≠ k := fun h => (List.nodup_cons.mp nodup).1 (h ▸ later)
      exact ⟨e, turn.entry_of_due (due id (List.mem_cons_of_mem k later)) other ▸ held, fire⟩

/-- Nothing is due any more that had its turn, and nothing else comes to be due or ceases to be. -/
theorem left (turns : Turns rules now ids s out s') (countable : Countable s) {k : String} {n : Int}
    (past : n ≤ now.millis) : s'.delayed.get? k = some n ↔ k ∉ ids ∧ s.delayed.get? k = some n := by
  induction turns with
  | none => exact ⟨fun waits => ⟨List.not_mem_nil, waits⟩, And.right⟩
  | turn _ turn _ ih =>
    rw [ih (turn.countable countable), turn.due countable past, List.mem_cons, not_or, and_left_comm, and_assoc]

end Turns

/-! ## A whole claim -/

/-- What a claim hands out and what it leaves. -/
structure FirstDue (rules : ClaimRules) (now : Instant) (limit : Nat) (s : Keyspace) (out : List StoredEntry)
    (s' : Keyspace) : Prop where
  /-- As many as may be claimed have their turn. -/
  turns : Turns rules now ((dueIds now s).take limit) (recovered now s) out s'
  atMost : out.length ≤ limit
  ordered : (out.map (·.id)).Sublist ((dueIds now s).take limit)
  /-- What is handed out was stored, and its fire is past. -/
  due : ∀ c ∈ out, c.fireAt ≤ now ∧ ∃ e, (contents s).entry c.id = some e ∧ c = { e with processedOn := some now }
  dropped : ∀ id ∈ (dueIds now s).take limit, id ∉ out.map (·.id) →
    ∃ e, (contents s).entry id = some e ∧ e.repeats.isSome
  left : Countable s → ∀ id, id ∈ s'.delayed.upTo now.millis ↔ id ∈ (dueIds now s).drop limit
  /-- The claim is full, or leaves nothing due, unless a fire takes the place of another entry. -/
  full : Countable s → ((out.length < limit → s'.delayed.upTo now.millis = []) ↔
    (dueIds now s).length ≤ limit ∨ out.map (·.id) = (dueIds now s).take limit)

theorem contents_recovered (now : Instant) (s : Keyspace) (id : String) :
    (contents (recovered now s)).entry id = (contents s).entry id := by
  simp only [contents, entries_foldl_giveUp]

/-- What is due is no fire ahead. -/
theorem fireAt_le_of_due (kept : Kept (fun s => Readable now s ∧ Ripe now s) s) (whole : now.Whole)
    (due : id ∈ s.delayed.upTo now.millis) {e : StoredEntry} (stored : (contents s).entry id = some e) :
    e.fireAt ≤ now := by
  obtain ⟨⟨text, at_, read⟩, -⟩ := entry_eq_some ⟨kept.consistent, kept.holds.1⟩ stored
  obtain ⟨score, waits, past⟩ := SortedSet.mem_upTo.mp due
  have ripe := kept.holds.2.held at_ read
  rw [ripeAt, waits, Option.elim_some] at ripe
  calc e.fireAt ≤ Instant.ofMillis score := ripe
    _ ≤ Instant.ofMillis now.millis := Instant.ofMillis_le_ofMillis past
    _ = now := whole

theorem mem_drop_dueIds (now : Instant) (s : Keyspace) (limit : Nat) :
    id ∈ (dueIds now s).drop limit ↔ id ∉ (dueIds now s).take limit ∧ id ∈ dueIds now s := by
  have apart := List.disjoint_take_drop (nodup_dueIds now s) (le_refl limit)
  have split : id ∈ dueIds now s ↔ id ∈ (dueIds now s).take limit ∨ id ∈ (dueIds now s).drop limit := by
    rw [← List.mem_append, List.take_append_drop]
  rw [split]
  exact ⟨fun mem => ⟨fun first => apart first mem, .inr mem⟩, fun h => h.2.resolve_left h.1⟩

theorem Turns.mem_upTo_iff (turns : Turns rules now ((dueIds now s).take limit) (recovered now s) out s')
    (countable : Countable s) (id : String) : id ∈ s'.delayed.upTo now.millis ↔ id ∈ (dueIds now s).drop limit := by
  have countable₁ : Countable (recovered now s) := countable.of_repeats (repeats_foldl_giveUp _ _ s)
  rw [mem_drop_dueIds, dueIds, SortedSet.mem_upTo, SortedSet.mem_upTo]
  constructor
  · rintro ⟨n, waits, past⟩
    obtain ⟨unlisted, before⟩ := (turns.left countable₁ past).mp waits
    exact ⟨unlisted, n, before, past⟩
  · rintro ⟨unlisted, n, before, past⟩
    exact ⟨n, (turns.left countable₁ past).mpr ⟨unlisted, before⟩, past⟩

theorem firstDue_of_turns (kept : Kept (fun s => Readable now s ∧ Ripe now s) s) (time : now.Storable) (whole : now.Whole)
    (turns : Turns rules now ((dueIds now s).take limit) (recovered now s) out s') :
    FirstDue rules now limit s out s' := by
  have preserved : Preserved rules now .recoverStalled _ _ := preserved_ripe rules time whole trivial
  have all := kept.move preserved .recover
  have kept₁ : Kept (Readable now) (recovered now s) := ⟨all.consistent, all.holds.1⟩
  have nodup := (nodup_dueIds now s).sublist (List.take_sublist limit _)
  have due (id : String) (mem : id ∈ (dueIds now s).take limit) : Due now (recovered now s) id :=
    kept₁.consistent.due (List.mem_of_mem_take mem)
  have ordered := turns.sublist kept₁
  have few := ordered.length_le
  rw [List.length_map, List.length_take] at few
  refine ⟨turns, few.trans (min_le_left _ _), ordered, fun c mem => ?_, fun id mem missing => ?_, turns.mem_upTo_iff, ?_⟩
  · obtain ⟨e, stored, same⟩ := turns.handed kept₁ nodup due mem
    have listed := List.mem_of_mem_take (ordered.subset (List.mem_map_of_mem mem))
    have past : e.fireAt ≤ now := fireAt_le_of_due all whole listed stored
    exact ⟨same ▸ past, e, contents_recovered now s c.id ▸ stored, same⟩
  · rw [← contents_recovered now s id]
    exact turns.dropped kept₁ nodup due mem missing
  · intro countable
    have nothing : s'.delayed.upTo now.millis = [] ↔ (dueIds now s).length ≤ limit := by
      rw [List.eq_nil_iff_forall_not_mem, ← List.drop_eq_nil_iff, List.eq_nil_iff_forall_not_mem]
      exact forall_congr' fun id => not_congr (turns.mem_upTo_iff countable id)
    rw [nothing]
    constructor
    · intro full
      rcases Nat.lt_or_ge out.length limit with short | enough
      · exact .inl (full short)
      · refine .inr (ordered.eq_of_length ?_)
        rw [List.length_map, List.length_take]
        omega
    · rintro (few | all) short
      · exact few
      · have length := congrArg List.length all
        rw [List.length_map, List.length_take] at length
        omega

/-- In every state that a run on whole milliseconds reaches, whatever failed before, a claim that the calendar reaches
hands out a list, and that is the `FirstDue`. -/
theorem first_due_of_run {faults : CommandFaults} {t₀ : Instant} {link : Link} (whole : faults.Whole)
    (run : (workQueue rules faults).Run WorkQueue.wholeTimes t₀ {} t link) (le : t ≤ now) (shown : now.Storable)
    (millis : now.Whole) (reach : rules.Reach now) (limit : Nat) :
    ∃ out link', ((workQueue rules .none).claimDue now limit).on link = (.ok out, link') ∧
      FirstDue rules now limit link.keys out link'.keys := by
  have held := ripe_of_run whole run
  have kept : Kept (fun s => Readable now s ∧ Ripe now s) link.keys :=
    ⟨held.consistent, held.holds.1.mono le, held.holds.2.mono le⟩
  have does : Does (claimDue rules now limit) link.keys _ _ :=
    claimDue_does ⟨shown, reach⟩ ⟨kept.consistent, kept.holds.1⟩ limit
  obtain ⟨ok, error⟩ := does.ends_calm rfl
  cases result : (((claimDue rules now limit).run .none).on link).1 with
  | error failure => exact (error failure result).elim
  | ok out => exact ⟨out, _, Prod.ext result rfl, firstDue_of_turns kept shown millis (ok out result)⟩

/-! ## A fire that takes the place of another entry -/

/-- A claim without faults gives up late claims, lists what is due, and goes through it. -/
theorem claimDue_listed (rules : ClaimRules) (now : Instant) (limit : Nat) (link : Link) :
    ((workQueue rules .none).claimDue now limit).on link =
      ((claimEach rules now ((dueIds now link.keys).take limit)).run .none).on
        ⟨recovered now link.keys, link.sent + 2⟩ := by
  have calm (n : Nat) (v : Verb) : CommandFaults.none.fails n v = false := rfl
  have steps : claimDue rules now limit = .send (.recover now.millis) fun _ =>
    .send (.upTo .delayed now.millis limit) (claimEach rules now) := rfl
  show ((claimDue rules now limit).run .none).on link = _
  rw [steps, Program.run_send, Command.effect_on (calm _)]
  exact (Program.run_send _ _ _ _).trans (by rw [Command.effect_on (calm _)]; rfl)

/-- One fire of a chain is at work, and the next one and an entry of another key are due at two seconds. -/
def blocking : Link :=
  let fire (millis : Int) : StoredEntry := .ofFire "a" (.every 1000) (.ofMillis millis) .null
  let atWork : StoredEntry := { fire 1000 with processedOn := some (.ofMillis 1000) }
  let single : StoredEntry := .single "b" (.ofMillis 2000) .null
  { keys :=
      { repeats := Table.empty.set "a::every:1000" (recordText ⟨"a", .every 1000, .null, some (.ofMillis 2000)⟩)
        entries := ((Table.empty.set atWork.id (entryText atWork)).set "a:every:1000:2000" (entryText (fire 2000))).set
          "b:once" (entryText single)
        active := Table.empty.set atWork.id (ActiveClaim.text ⟨"a", 1000⟩)
        delayed := (Table.empty.set "a:every:1000:2000" 2000).set "b:once" 2000
        leases := Table.empty.set atWork.id 301000 }
    sent := 13 }

theorem run_blocking : (workQueue {} .none).Run WorkQueue.wholeTimes (.ofMillis 0) {} (.ofMillis 1000) blocking := by
  have null : Json.Keepable .null := ⟨trivial, by decide⟩
  have first : (Instant.ofMillis 0).Storable := by decide
  have second : (Instant.ofMillis 1000).Storable := by decide
  have word : (RepeatSpec.every 1000).Word := show 1000 < Json.wordLimit by decide
  let chain : QueueRequest := .addRepeating "a" (.every 1000) .null
  let claim : QueueRequest := .claimDue 1
  let add : QueueRequest := .addDelayed "b" 1000 .null
  have chained : (workQueue {} .none).Run WorkQueue.wholeTimes (.ofMillis 0) {} (.ofMillis 0) _ :=
    .step (r := chain) .start ⟨⟨le_rfl, first, word, null⟩, rfl⟩
  have claimed : (workQueue {} .none).Run WorkQueue.wholeTimes (.ofMillis 0) {} (.ofMillis 1000) _ :=
    .step (r := claim) chained ⟨⟨by decide, second, trivial⟩, rfl⟩
  have added : (workQueue {} .none).Run WorkQueue.wholeTimes (.ofMillis 0) {} (.ofMillis 1000) _ :=
    .step (r := add) claimed ⟨⟨le_rfl, second, null⟩, rfl⟩
  have reached : (((workQueue {} .none).ask (.ofMillis 1000) add).on (((workQueue {} .none).ask (.ofMillis 1000) claim).on
    (((workQueue {} .none).ask (.ofMillis 0) chain).on {}).2).2).2 = blocking := by decide +kernel
  exact reached ▸ added

theorem dueIds_blocking : dueIds (.ofMillis 2000) blocking.keys = ["a:every:1000:2000", "b:once"] := by
  have all : (recovered (.ofMillis 2000) blocking.keys).delayed.pairs.filter (fun p => decide (p.2 ≤ 2000)) =
      [("a:every:1000:2000", 2000), ("b:once", 2000)] := by decide +kernel
  rw [dueIds, SortedSet.upTo, show (Instant.ofMillis 2000).millis = 2000 from rfl, all,
    List.mergeSort_of_pairwise (by decide)]
  rfl

/-- A claim of two hands out the entry of the other key, since it is no fire. -/
theorem first_due_of_two :
    ∃ out link', ((workQueue {} .none).claimDue (.ofMillis 2000) 2).on blocking = (.ok out, link') ∧
      "b:once" ∈ out.map (·.id) ∧ FirstDue {} (.ofMillis 2000) 2 blocking.keys out link'.keys := by
  have later : Instant.ofMillis 1000 ≤ .ofMillis 2000 := by decide
  have millis : (Instant.ofMillis 2000).Whole := rfl
  obtain ⟨out, link', on, firstDue⟩ :=
    first_due_of_run CommandFaults.whole_none run_blocking later (by decide) millis (by decide) 2
  refine ⟨out, link', on, ?_, firstDue⟩
  by_contra missing
  have listed : "b:once" ∈ (dueIds (.ofMillis 2000) blocking.keys).take 2 := by
    rw [dueIds_blocking]
    decide
  obtain ⟨e, stored, fire⟩ := firstDue.dropped _ listed missing
  have single : ((contents blocking.keys).entry "b:once").bind (·.repeats) = none := by decide +kernel
  rw [stored, Option.bind_some] at single
  cases single ▸ fire

/-- A claim of one drops the fire and hands out nothing, and the entry of the other key stays due. -/
theorem dropped_fire_takes_place :
    (workQueue {} .none).Run WorkQueue.wholeTimes (.ofMillis 0) {} (.ofMillis 1000) blocking ∧
      ∃ link', ((workQueue {} .none).claimDue (.ofMillis 2000) 1).on blocking = (.ok [], link') ∧
        link'.keys.delayed.get? "b:once" = some 2000 ∧ link'.keys.active.contains "b:once" = false := by
  have claimed : (((workQueue {} .none).claimDue (.ofMillis 2000) 1).on blocking).1 = .ok [] ∧
      (((workQueue {} .none).claimDue (.ofMillis 2000) 1).on blocking).2.keys.delayed.get? "b:once" = some 2000 ∧
      (((workQueue {} .none).claimDue (.ofMillis 2000) 1).on blocking).2.keys.active.contains "b:once" = false := by
    rw [claimDue_listed, dueIds_blocking]
    decide +kernel
  exact ⟨run_blocking, _, Prod.ext claimed.1 rfl, claimed.2⟩

end Timetable.SharedQueue
