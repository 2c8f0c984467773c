import Timetable.Proofs.Queue.Overlap

/-!
# Claims turn by turn

A claim takes up one due entry after the other. In its turn an entry is taken out; then its record moves on, or is lost
where the calendar ends; then the entry may come back as claimed (`LocalQueue.claimEntry_leaves`). What every turn keeps
of the queue and says of the entry that it hands out, the claim keeps and says of all (`LocalQueue.claimEach_ends`).
-/

namespace Timetable.LocalQueue

variable {rules : ClaimRules} {now : Instant} {q : LocalQueue} {e : StoredEntry}

/-- Whatever holds once an entry is taken out, and is kept when its record moves on or is lost and when the entry is held
again, holds after its turn. -/
theorem claimEntry_leaves {P : LocalQueue → Prop} (erased : P (q.eraseEntry e.id))
    (moved : ∀ r next, q.recordOf e = some r → r.isCurrent e = true → r.advance now = .ok next →
      P ((q.eraseEntry e.id).putRecord next))
    (lost : ∀ r, q.recordOf e = some r → P ((q.eraseEntry e.id).eraseRecord r.field))
    (held : ∀ p expiry, P p → now.add? rules.lease = some expiry →
      P (p.holdEntry { e with processedOn := some now } expiry)) :
    (claimEntry rules now e).Ends q (fun _ => P) fun _ => P := by
  have holds {p : LocalQueue} (before : P p) :
      (do return some (← hold rules now e)).Ends p (fun _ => P) fun _ => P := by
    refine Act.ends_bind.mpr ?_
    unfold hold
    cases inTime : now.add? rules.lease with
    | none => exact Act.ends_throw.mpr before
    | some expiry =>
      exact Act.ends_bind.mpr (Act.ends_modify.mpr (Act.ends_pure.mpr (Act.ends_pure.mpr
        (held p expiry before inTime))))
  simp only [claimEntry, Act.ends_bind, Act.ends_modify]
  cases repeats : e.repeats with
  | none => exact holds erased
  | some spec =>
    have record : (q.eraseEntry e.id).repeats.get? (repeatField e.key spec) = q.recordOf e := by
      rw [recordOf, repeats]
      rfl
    simp only [Act.ends_bind, Act.ends_get, record]
    split
    · exact Act.ends_pure.mpr erased
    · have advanced : (advanceChain now (q.recordOf e) e).Ends (q.eraseEntry e.id) (fun _ => P) fun _ => P := by
        unfold advanceChain
        cases hr : q.recordOf e with
        | none => exact Act.ends_pure.mpr erased
        | some r =>
          dsimp only
          split
          · next current =>
            cases advances : r.advance now with
            | ok next => exact Act.ends_modify.mpr (moved r next hr current advances)
            | error failure =>
              exact Act.ends_bind.mpr (Act.ends_modify.mpr (Act.ends_throw.mpr (lost r hr)))
          · exact Act.ends_pure.mpr erased
      refine Act.ends_bind.mpr (advanced.mono (fun _ p before => ?_) fun _ _ h => h)
      simp only [Act.ends_bind, Act.ends_get]
      split
      · exact Act.ends_pure.mpr before
      · exact holds before

/-- What each turn keeps, and says of the entry that it hands out, holds of a whole claim. -/
theorem claimEach_ends {I : LocalQueue → Prop} {H : StoredEntry → Prop} {E : QueueError → LocalQueue → Prop}
    {es : List StoredEntry}
    (turn : ∀ {q e}, I q → e ∈ es → q.Tidy → q.entries.get? e.id = some e → q.active.contains e.id = false →
      (claimEntry rules now e).Ends q (fun out q' => I q' ∧ ∀ c, out = some c → H c) E)
    (limit : Nat) (tidy : q.Tidy) (takeable : q.Takeable es) (start : I q) :
    (claimEach rules now es limit).Ends q (fun out q' => I q' ∧ ∀ c ∈ out, H c) E := by
  induction es generalizing q limit with
  | nil => exact Act.ends_pure.mpr ⟨start, by simp⟩
  | cons e es ih =>
    cases limit with
    | zero => exact Act.ends_pure.mpr ⟨start, by simp⟩
    | succ limit =>
      obtain ⟨stored, free⟩ := takeable.stored e List.mem_cons_self
      have takes : (claimEntry rules now e).Ends q (Taken rules now q e) _ := claimEntry_takes tidy stored free
      refine Act.ends_bind.mpr ((takes.and (turn start List.mem_cons_self tidy stored free)).mono ?_ fun _ _ h => h.2)
      rintro out p ⟨taken, kept, first⟩
      have rest (limit : Nat) := ih (fun inv mem => turn inv (List.mem_cons_of_mem _ mem)) limit taken.tidy
        (takeable.rest taken) kept
      cases out with
      | none => exact rest (limit + 1)
      | some c =>
        refine Act.ends_bind.mpr ((rest limit).mono (fun outs q' => ?_) fun _ _ h => h)
        rintro ⟨kept, later⟩
        refine Act.ends_pure.mpr ⟨kept, fun c' mem => ?_⟩
        rcases List.mem_cons.mp mem with rfl | mem
        · exact first _ rfl
        · exact later c' mem

/-- Where one of the entries is handed out, what the turns before it keep takes that turn to what the turns after it keep. -/
theorem claimEach_around {I J : LocalQueue → Prop} {H : StoredEntry → Prop} {E : QueueError → LocalQueue → Prop}
    {front back : List StoredEntry} {c : StoredEntry} {limit : Nat}
    (before : ∀ {q d}, I q → d ∈ front → q.Tidy → q.entries.get? d.id = some d → q.active.contains d.id = false →
      (claimEntry rules now d).Ends q (fun out q' => I q' ∧ ∀ c, out = some c → H c) E)
    (turn : ∀ {q}, I q → q.Tidy → q.entries.get? e.id = some e → q.active.contains e.id = false →
      (claimEntry rules now e).Ends q (fun out q' => J q' ∧ out = some c) E)
    (after : ∀ {q d}, J q → d ∈ back → q.Tidy → q.entries.get? d.id = some d → q.active.contains d.id = false →
      (claimEntry rules now d).Ends q (fun out q' => J q' ∧ ∀ c, out = some c → H c) E)
    (few : (front ++ e :: back).length ≤ limit) (tidy : q.Tidy) (takeable : q.Takeable (front ++ e :: back)) (start : I q) :
    (claimEach rules now (front ++ e :: back) limit).Ends q
      (fun out q' => J q' ∧ ∃ l l', out = l ++ c :: l' ∧ ∀ d ∈ l ++ l', H d) E := by
  induction front generalizing q limit with
  | nil =>
    obtain ⟨limit, rfl⟩ : ∃ n, limit = n + 1 := ⟨limit - 1, by simp at few; omega⟩
    obtain ⟨stored, free⟩ := takeable.stored e List.mem_cons_self
    have takes : (claimEntry rules now e).Ends q (Taken rules now q e) _ := claimEntry_takes tidy stored free
    refine Act.ends_bind.mpr ((takes.and (turn start tidy stored free)).mono ?_ fun _ _ h => h.2)
    rintro _ p ⟨taken, kept, rfl⟩
    refine Act.ends_bind.mpr ((claimEach_ends after limit taken.tidy (takeable.rest taken) kept).mono ?_ fun _ _ h => h)
    rintro outs q' ⟨kept, others⟩
    exact Act.ends_pure.mpr ⟨kept, [], outs, rfl, others⟩
  | cons d front ih =>
    obtain ⟨limit, rfl⟩ : ∃ n, limit = n + 1 := ⟨limit - 1, by simp at few; omega⟩
    obtain ⟨stored, free⟩ := takeable.stored d List.mem_cons_self
    have takes : (claimEntry rules now d).Ends q (Taken rules now q d) _ := claimEntry_takes tidy stored free
    refine Act.ends_bind.mpr ((takes.and (before start List.mem_cons_self tidy stored free)).mono ?_ fun _ _ h => h.2)
    rintro out p ⟨taken, kept, first⟩
    have rest {limit : Nat} (few : (front ++ e :: back).length ≤ limit) :=
      ih (fun inv mem => before inv (List.mem_cons_of_mem _ mem)) few taken.tidy (takeable.rest taken) kept
    rw [List.cons_append, List.length_cons] at few
    cases out with
    | none => exact rest (Nat.le_of_succ_le few)
    | some d' =>
      refine Act.ends_bind.mpr ((rest (Nat.le_of_succ_le_succ few)).mono ?_ fun _ _ h => h)
      rintro _ q' ⟨kept, l, l', rfl, others⟩
      refine Act.ends_pure.mpr ⟨kept, d' :: l, l', rfl, fun x mem => ?_⟩
      rcases List.mem_cons.mp mem with rfl | mem
      · exact first _ rfl
      · exact others x mem

end Timetable.LocalQueue
