import Timetable.Proofs.Queue.Turns

/-!
# What a claim in memory hands out, and what it leaves

A claim goes through a list of what is due that is fixed before. The turns of that list take entries out, move records on
and put their next fires in, and a fire that is dropped does not count toward the limit. What one turn leaves is
`LocalQueue.Remains`; from it follows what going through any list of entries leaves (`LocalQueue.Hands`, by induction over
the list), and from that what the whole claim hands out and leaves (`LocalQueue.Batch`):
* at most as many entries as asked for, each once, by fire time and then by identifier, all of them due and free;
* each held with the time of the claim and a lease from then on;
* nothing that is due and free, unless the limit was reached;
* everything else, apart from fires that were due.

`LocalQueue.batch_of_run` says so of every state of a run. Two things that it asks for cannot be left out
(`LocalQueue.claim_loses_or_leaves_due`): a lease that would end beyond the calendar loses the entry that it is for, and a
record of milliseconds beyond a signed word can put in a fire that is past.
-/

namespace Timetable.LocalQueue

variable {rules : ClaimRules} {now : Instant} {q q' p : LocalQueue} {e c : StoredEntry} {es out : List StoredEntry}
  {id : String} {limit : Nat}

/-! ## One turn -/

/-- What the turn of a due entry leaves. -/
structure Remains (rules : ClaimRules) (now : Instant) (q : LocalQueue) (e : StoredEntry) (p : LocalQueue) : Prop where
  /-- What is stored and not claimed was stored before, apart from fires that lie ahead. -/
  stored : q.Countable → ∀ {id e'}, p.entries.get? id = some e' → p.active.contains id = false → e'.fireAt ≤ now →
    q.entries.get? id = some e' ∧ id ≠ e.id
  lease : ∀ expiry, p.active.get? e.id = some expiry → now.add? rules.lease = some expiry
  others : ∀ id, id ≠ e.id → p.active.get? id = q.active.get? id

theorem Remains.erased (free : q.active.contains e.id = false) : Remains rules now q e (q.eraseEntry e.id) where
  stored _ id e' he _ _ := by
    simp only [eraseEntry, Table.get?_erase, Option.ite_none_left_eq_some] at he
    exact ⟨he.2, fun same => he.1 same.symm⟩
  lease expiry held := by
    rw [show (q.eraseEntry e.id).active = q.active from rfl, Table.contains_eq_false_iff.mp free] at held
    cases held
  others _ _ := rfl

theorem Remains.eraseRecord (h : Remains rules now q e p) (f : String) : Remains rules now q e (p.eraseRecord f) :=
  ⟨h.stored, h.lease, h.others⟩

theorem Remains.putRecord {r : RepeatRecord} (h : Remains rules now q e p)
    (ahead : q.Countable → ∀ t, r.next = some t → now < t) : Remains rules now q e (p.putRecord r) where
  stored countable id e' he free past := by
    rw [putRecord_active] at free
    rcases putRecord_entries_eq_some.mp he with he | ⟨_, t, ht, _, rfl⟩
    · exact h.stored countable he free past
    · exact absurd past (not_le.mpr (ahead countable t ht))
  lease := by
    rw [putRecord_active]
    exact h.lease
  others := by
    rw [putRecord_active]
    exact h.others

theorem Remains.holdEntry {expiry : Instant} (h : Remains rules now q e p) (inTime : now.add? rules.lease = some expiry) :
    Remains rules now q e (p.holdEntry { e with processedOn := some now } expiry) where
  stored countable id e' he free past := by
    simp only [LocalQueue.holdEntry, Table.contains_set, Bool.or_eq_false_iff, decide_eq_false_iff_not] at free
    simp only [LocalQueue.holdEntry, Table.get?_set, if_neg free.1] at he
    exact h.stored countable he free.2 past
  lease expiry' held := by
    simp only [LocalQueue.holdEntry, Table.get?_set, if_true, Option.some.injEq] at held
    rw [inTime, held]
  others id ne := by
    simp only [LocalQueue.holdEntry, Table.get?_set, if_neg ne.symm]
    exact h.others id ne

theorem claimEntry_remains (tidy : q.Tidy) (free : q.active.contains e.id = false) :
    (claimEntry rules now e).Ends q (fun _ => Remains rules now q e) fun _ => Remains rules now q e := by
  refine claimEntry_leaves (.erased free) ?_ (fun r _ => (Remains.erased free).eraseRecord _)
    fun p expiry before inTime => before.holdEntry inTime
  intro r next record _ advanced
  refine (Remains.erased free).putRecord fun countable t ht => ?_
  obtain ⟨spec, -, hr⟩ := Option.bind_eq_some_iff.mp record
  have usable : r.spec.Usable := (tidy.parsed hr).usable (countable _ r hr)
  exact (RepeatSpec.nextAfter_spec usable (ht ▸ (RepeatRecord.advance_eq_ok advanced).2)).1

/-- What does not repeat is handed out. -/
theorem claimEntry_once (once : e.repeats = none) :
    (claimEntry rules now e).Ends q (fun out _ => out.isSome) fun _ _ => True := by
  have handed : (some <$> hold rules now e).Ends (q.eraseEntry e.id) (fun out _ => out.isSome) fun _ _ => True :=
    Act.ends_map.mpr ⟨fun _ _ => rfl, fun _ _ => trivial⟩
  unfold Act.Ends at handed ⊢
  rwa [claimEntry_single once]

/-! ## Going through what is due -/

/-- What going through some entries hands out and leaves. -/
structure Hands (rules : ClaimRules) (now : Instant) (q : LocalQueue) (es : List StoredEntry) (limit : Nat)
    (out : List StoredEntry) (q' : LocalQueue) : Prop where
  /-- The entries that are handed out keep their order. -/
  sublist : ∃ handed : List StoredEntry, handed.Sublist es ∧ out = handed.map fun e => { e with processedOn := some now }
  atMost : out.length ≤ limit
  held : ∀ c ∈ out, q'.entries.get? c.id = some c ∧
    ∃ expiry, now.add? rules.lease = some expiry ∧ q'.active.get? c.id = some expiry
  others : ∀ id, id ∉ es.map (·.id) → q'.active.get? id = q.active.get? id
  stored : q.Countable → ∀ {id e'}, q'.entries.get? id = some e' → q'.active.contains id = false → e'.fireAt ≤ now →
    q.entries.get? id = some e' ∧ (out.length < limit → id ∉ es.map (·.id))
  gone : ∀ {id e'}, q.entries.get? id = some e' → q'.entries.get? id = none → e' ∈ es ∧ e'.repeats.isSome

theorem Hands.none (q : LocalQueue) (enough : es = [] ∨ limit = 0) : Hands rules now q es limit [] q where
  sublist := ⟨[], List.nil_sublist es, rfl⟩
  atMost := Nat.zero_le limit
  held _ mem := by cases mem
  others _ _ := rfl
  stored _ _ _ he _ _ := by
    refine ⟨he, fun more => ?_⟩
    rcases enough with rfl | rfl
    · exact List.not_mem_nil
    · exact absurd more (Nat.lt_irrefl 0)
  gone he missing := by
    rw [he] at missing
    cases missing

/-- An entry's turn, and then the rest. -/
theorem Hands.cons {one : Option StoredEntry} {room : Nat} (stored : q.entries.get? e.id = some e)
    (fresh : e.id ∉ es.map (·.id)) (taken : Taken rules now q e one p) (left : Remains rules now q e p)
    (once : e.repeats = Option.none → one.isSome) (through : GoneThrough now p es out q')
    (rest : Hands rules now p es room out q')
    (limited : limit = one.toList.length + room) : Hands rules now q (e :: es) limit (one.toList ++ out) q' where
  sublist := by
    obtain ⟨handed, sub, rfl⟩ := rest.sublist
    cases one with
    | none => exact ⟨handed, sub.cons e, rfl⟩
    | some c =>
      obtain ⟨rfl, -⟩ := taken.handed rfl
      exact ⟨e :: handed, sub.cons_cons e, rfl⟩
  atMost := by
    rw [List.length_append, limited]
    exact Nat.add_le_add_left rest.atMost _
  held c mem := by
    rcases List.mem_append.mp mem with mine | later
    · obtain rfl : one = some c := Option.mem_toList.mp mine
      obtain ⟨rfl, there⟩ := taken.handed rfl
      have active : p.active.contains e.id = true := (taken.active e.id).mpr (.inr ⟨rfl, rfl⟩)
      obtain ⟨expiry, lease⟩ := Table.contains_iff.mp active
      refine ⟨(through.entry fresh (Table.contains_iff.mpr ⟨_, there⟩)).trans there, expiry, left.lease expiry lease, ?_⟩
      exact (rest.others e.id fresh).trans lease
    · exact rest.held c later
  others id other := by
    rw [List.map_cons, List.mem_cons, not_or] at other
    exact (rest.others id other.2).trans (left.others id other.1)
  stored countable id e' he free past := by
    obtain ⟨before, unlisted⟩ := rest.stored (countable.same taken.same) he free past
    have idle : p.active.contains id = false := by
      rw [Bool.eq_false_iff] at free ⊢
      exact fun held => free ((through.active id).mpr (.inl held))
    obtain ⟨first, ne⟩ := left.stored countable before idle past
    refine ⟨first, fun more => ?_⟩
    rw [List.length_append, limited] at more
    rw [List.map_cons, List.mem_cons, not_or]
    exact ⟨ne, unlisted (Nat.lt_of_add_lt_add_left more)⟩
  gone {id e'} he missing := by
    by_cases own : id = e.id
    · subst own
      obtain rfl : e = e' := Option.some.inj (stored.symm.trans he)
      refine ⟨List.mem_cons_self, ?_⟩
      by_contra single
      rw [Option.not_isSome_iff_eq_none] at single
      obtain ⟨c, rfl⟩ := Option.isSome_iff_exists.mp (once single)
      have there := (taken.handed rfl).2
      rw [through.entry fresh (Table.contains_iff.mpr ⟨c, there⟩), there] at missing
      cases missing
    · have kept := (taken.entry own (Table.contains_iff.mpr ⟨e', he⟩)).trans he
      exact (rest.gone kept missing).imp_left (List.mem_cons_of_mem e)

theorem claimEach_hands (limit : Nat) (tidy : q.Tidy) (takeable : q.Takeable es) :
    (claimEach rules now es limit).Ends q (Hands rules now q es limit) fun _ _ => True := by
  induction es generalizing q limit with
  | nil => exact Act.ends_pure.mpr (.none q (.inl rfl))
  | cons e es ih =>
    cases limit with
    | zero => exact Act.ends_pure.mpr (.none q (.inr rfl))
    | succ limit =>
      obtain ⟨stored, free⟩ := takeable.stored e List.mem_cons_self
      have fresh : e.id ∉ es.map (·.id) := (List.nodup_cons.mp takeable.nodup).1
      have takes : (claimEntry rules now e).Ends q (Taken rules now q e) _ := claimEntry_takes tidy stored free
      have once : (claimEntry rules now e).Ends q (fun one _ => e.repeats = none → one.isSome) fun _ _ => True := by
        cases repeats : e.repeats with
        | none => exact (claimEntry_once repeats).mono (fun _ _ some _ => some) fun _ _ h => h
        | some spec => exact ⟨fun _ _ => nofun, fun _ _ => trivial⟩
      refine Act.ends_bind.mpr ((takes.and ((claimEntry_remains tidy free).and once)).mono ?_ fun _ _ _ => trivial)
      rintro one p ⟨taken, left, once⟩
      have rest (room : Nat) : (claimEach rules now es room).Ends p _ _ :=
        (claimEach_goesThrough room taken.tidy (takeable.rest taken)).and (ih room taken.tidy (takeable.rest taken))
      cases one with
      | none =>
        refine (rest (limit + 1)).mono (fun out q' h => ?_) fun _ _ _ => trivial
        exact .cons stored fresh taken left once h.1.1 h.2 (Nat.zero_add _).symm
      | some c =>
        refine Act.ends_bind.mpr ((rest limit).mono (fun out q' h => Act.ends_pure.mpr ?_) fun _ _ _ => trivial)
        exact .cons stored fresh taken left once h.1.1 h.2 (Nat.add_comm _ _)

/-! ## A whole claim -/

/-- What a claim hands out and what it leaves. -/
structure Batch (rules : ClaimRules) (now : Instant) (limit : Nat) (q : LocalQueue) (claimed : List StoredEntry)
    (q' : LocalQueue) : Prop where
  atMost : claimed.length ≤ limit
  distinct : (claimed.map (·.id)).Nodup
  ordered : claimed.Pairwise fun a b => a.fireAt < b.fireAt ∨ a.fireAt = b.fireAt ∧ a.id < b.id
  /-- What is handed out was stored, due, and free once the leases that ran out were given up. -/
  due : ∀ c ∈ claimed, c.fireAt ≤ now ∧ (q.recover now).active.contains c.id = false ∧
    ∃ e, q.entries.get? c.id = some e ∧ c = { e with processedOn := some now }
  held : ∀ c ∈ claimed, q'.entries.get? c.id = some c ∧
    ∃ expiry, now.add? rules.lease = some expiry ∧ q'.active.get? c.id = some expiry
  rest : q.Countable → claimed.length < limit →
    ∀ id e, q'.entries.get? id = some e → q'.active.contains id = false → now < e.fireAt
  gone : ∀ id e, q.entries.get? id = some e → q'.entries.get? id = none → e.repeats.isSome ∧ e.fireAt ≤ now

/-- What is due comes by fire time and then by identifier, without ties. -/
theorem Named.pairwise_lt_due (h : q.Named) :
    (q.due now).Pairwise fun a b => a.fireAt < b.fireAt ∨ a.fireAt = b.fireAt ∧ a.id < b.id := by
  have distinct : (q.due now).Pairwise fun a b => a.id ≠ b.id := List.pairwise_map.mp h.nodup_due
  refine (distinct.and (pairwise_due now q)).imp fun {a b} both => ?_
  rw [firesBefore_iff, Prod.Lex.toLex_le_toLex] at both
  exact both.2.imp_right fun same => ⟨same.1, lt_of_le_of_ne same.2 both.1⟩

theorem claimDue_batch (tidy : q.Tidy) (limit : Nat) :
    (claimDue rules now limit).Ends q (Batch rules now limit q) fun _ _ => True := by
  have recovered : (q.recover now).Tidy := tidy.recover.1
  refine Act.ends_bind.mpr (Act.ends_modify.mpr (Act.ends_bind.mpr (Act.ends_get.mpr ?_)))
  have takeable : (q.recover now).Takeable ((q.recover now).due now) := recovered.takeable_due
  have both : (claimEach rules now ((q.recover now).due now) limit).Ends (q.recover now) _ _ :=
    (claimEach_goesThrough limit recovered takeable).and (claimEach_hands limit recovered takeable)
  refine both.mono (fun claimed q' h => ?_) fun _ _ _ => trivial
  obtain ⟨⟨through, -⟩, hands⟩ := h
  obtain ⟨handed, sub, rfl⟩ := hands.sublist
  have marked : (handed.map fun e : StoredEntry => { e with processedOn := some now }).map (·.id) = handed.map (·.id) := by
    rw [List.map_map]
    rfl
  constructor
  case atMost => exact hands.atMost
  case distinct =>
    rw [marked]
    exact recovered.ownId.nodup_due.sublist (sub.map _)
  case ordered => exact List.pairwise_map.mpr (recovered.ownId.pairwise_lt_due.sublist sub)
  case due =>
    intro c mem
    obtain ⟨e, chosen, rfl⟩ := List.mem_map.mp mem
    obtain ⟨stored, free, past⟩ := recovered.ownId.mem_due.mp (sub.subset chosen)
    exact ⟨past, free, e, stored, rfl⟩
  case held => exact hands.held
  case rest =>
    intro countable more id e he free
    by_contra past
    obtain ⟨before, unlisted⟩ := hands.stored countable he free (not_lt.mp past)
    -- it was not claimed before either, so it was on the list
    have idle : (q.recover now).active.contains id = false := by
      rw [Bool.eq_false_iff] at free ⊢
      exact fun held => free ((through.active id).mpr (.inl held))
    obtain rfl := recovered.ownId id e before
    exact unlisted more (List.mem_map_of_mem (recovered.ownId.mem_due.mpr ⟨before, idle, not_lt.mp past⟩))
  case gone =>
    intro id e he missing
    obtain ⟨mem, fire⟩ := hands.gone he missing
    exact ⟨fire, (recovered.ownId.mem_due.mp mem).2.2⟩

/-- Whatever a claim hands out in a state of a run, at any time and with any limit, is a `Batch`. There is a result as long
as the calendar reaches the end of the lease and the next second. -/
theorem batch_of_run {may : WorkQueue.Rule LocalQueue} {t₀ t : Instant} (run : (workQueue rules).Run may t₀ {} t q) :
    ∀ now limit, (rules.Reach now → ∃ claimed q', (claimDue rules now limit).on q = (.ok claimed, q')) ∧
      ∀ claimed q', (claimDue rules now limit).on q = (.ok claimed, q') → Batch rules now limit q claimed q' := by
  obtain ⟨tidy, -⟩ := tidy_of_run run
  intro now limit
  refine ⟨fun reach => claimDue_succeeds tidy reach limit, ?_⟩
  intro claimed q' on
  have batch : (claimDue rules now limit).Ends q _ _ := claimDue_batch tidy limit
  rwa [Act.ends_of_on_ok on] at batch

/-- Of two entries that are due, a claim of one hands out the earlier one and leaves the other. -/
theorem batch_of_one_of_two :
    ∃ q c q', (workQueue {}).Run (fun t _ now _ => t ≤ now) (Instant.ofMillis 0) {} (Instant.ofMillis 0) q ∧ q.Countable ∧
      (claimDue {} (Instant.ofMillis 2000) 1).on q = (.ok [c], q') ∧ c.id = singleId "b" ∧
      Batch {} (Instant.ofMillis 2000) 1 q [c] q' := by
  let later : QueueRequest := .addDelayed "a" 2000 .null
  let sooner : QueueRequest := .addDelayed "b" 1000 .null
  let q := (((workQueue {}).ask (Instant.ofMillis 0) later).on
    (((workQueue {}).ask (Instant.ofMillis 0) sooner).on {}).2).2
  have run : (workQueue {}).Run (fun t _ now _ => t ≤ now) (Instant.ofMillis 0) {} (Instant.ofMillis 0) q :=
    .step (.step .start (by decide)) (by decide)
  let a : StoredEntry := .single "a" (Instant.ofMillis 2000) .null
  let b : StoredEntry := .single "b" (Instant.ofMillis 1000) .null
  have due : (q.recover (Instant.ofMillis 2000)).due (Instant.ofMillis 2000) = [b, a] := by
    have all : (q.recover (Instant.ofMillis 2000)).entries.values.filter (fun e =>
      !(q.recover (Instant.ofMillis 2000)).active.contains e.id && decide (e.fireAt ≤ Instant.ofMillis 2000)) =
        [b, a] := by decide +kernel
    rw [LocalQueue.due, all]
    exact List.mergeSort_of_pairwise (by decide)
  let c : StoredEntry := { b with processedOn := some (Instant.ofMillis 2000) }
  let q' := ((claimEach {} (Instant.ofMillis 2000) [b, a] 1).on (q.recover (Instant.ofMillis 2000))).2
  have on : (claimDue {} (Instant.ofMillis 2000) 1).on q = (.ok [c], q') := by
    rw [claimDue_on, due]
    decide +kernel
  have none : q.repeats = .empty := by decide +kernel
  have countable : q.Countable := fun f r hr => by simp [none] at hr
  obtain ⟨-, batch⟩ := batch_of_run run (Instant.ofMillis 2000) 1
  exact ⟨q, c, q', run, countable, on, rfl, batch [c] q' on⟩

/-- Neither can be left out: where the lease would end beyond the calendar an entry that does not repeat is gone and not
handed out, and a record of milliseconds beyond a signed word leaves a fire that is due and free though the limit was not
reached. -/
theorem claim_loses_or_leaves_due :
    (∃ q e q', (workQueue {}).Run (fun t _ now _ => t ≤ now) ⟨8210266876740, 0⟩ {} ⟨8210266876740, 0⟩ q ∧
      q.entries.get? (singleId "a") = some e ∧ e.repeats = none ∧ e.fireAt ≤ ⟨8210266876740, 0⟩ ∧
      (claimDue {} ⟨8210266876740, 0⟩ 5).on q = (.error .outOfRange, q') ∧ q'.entries.get? (singleId "a") = none) ∧
    ∃ q c q' e, (workQueue {}).Run (fun t _ now _ => t ≤ now) (Instant.ofMillis 1000) {} (Instant.ofMillis 1000) q ∧
      (claimDue {} (Instant.ofMillis 2000) 5).on q = (.ok [c], q') ∧ q'.entries.get? e.id = some e ∧
      q'.active.contains e.id = false ∧ e.fireAt ≤ Instant.ofMillis 2000 := by
  constructor
  · let request : QueueRequest := .addDelayed "a" 0 .null
    let q := (((workQueue {}).ask ⟨8210266876740, 0⟩ request).on {}).2
    exact ⟨q, .single "a" ⟨8210266876740, 0⟩ .null, ((claimDue {} ⟨8210266876740, 0⟩ 5).on q).2,
      .step .start (le_refl _), by decide +kernel, rfl, by decide, by decide +kernel, by decide +kernel⟩
  · let spec : RepeatSpec := .every 18446744073709551615
    let request : QueueRequest := .addRepeating "a" spec .null
    let q := (((workQueue {}).ask (Instant.ofMillis 1000) request).on {}).2
    let c : StoredEntry :=
      { StoredEntry.ofFire "a" spec (Instant.ofMillis 999) .null with processedOn := some (Instant.ofMillis 2000) }
    exact ⟨q, c, ((claimDue {} (Instant.ofMillis 2000) 5).on q).2, .ofFire "a" spec (Instant.ofMillis 1999) .null,
      .step .start (le_refl _), by decide +kernel, by decide +kernel, by decide +kernel, by decide⟩

end Timetable.LocalQueue
