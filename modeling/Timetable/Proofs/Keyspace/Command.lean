import Mathlib.Data.Prod.Lex
import Mathlib.Data.String.Basic
import Timetable.Keyspace.Command
import Timetable.Proofs.Table

/-!
# What commands do

A command that fails as a whole does nothing. Of one that does not fail, `Command.outcome` says what it answers and
what it leaves: each script makes one change of the keyspace, or none.
-/

namespace Timetable

namespace SortedSet

theorem perm_upTo (z : SortedSet) (score : Int) :
    (z.upTo score).Perm ((z.pairs.filter fun p => decide (p.2 ≤ score)).map (·.1)) :=
  (List.mergeSort_perm _ _).map _

theorem mem_upTo {z : SortedSet} {score : Int} {member : String} :
    member ∈ z.upTo score ↔ ∃ n, z.get? member = some n ∧ n ≤ score := by
  rw [(z.perm_upTo score).mem_iff]
  simp only [List.mem_map, List.mem_filter, decide_eq_true_eq, Prod.exists, Table.mem_pairs_iff,
    exists_and_right, exists_eq_right]

theorem nodup_upTo (z : SortedSet) (score : Int) : (z.upTo score).Nodup :=
  (z.perm_upTo score).nodup_iff.mpr (z.nodup.sublist (List.filter_sublist.map _))

theorem listedBefore_iff {a b : String × Int} : listedBefore a b = true ↔ toLex (a.2, a.1) ≤ toLex (b.2, b.1) := by
  simp [listedBefore, Prod.Lex.toLex_le_toLex]

/-- Members are listed in the order of their scores and texts. -/
theorem pairwise_upTo (z : SortedSet) (score : Int) : (z.upTo score).Pairwise fun a b =>
    ∀ m n, z.get? a = some m → z.get? b = some n → listedBefore (a, m) (b, n) = true := by
  have sorted : ((z.pairs.filter fun p => decide (p.2 ≤ score)).mergeSort listedBefore).Pairwise
      fun a b => listedBefore a b = true := by
    refine List.pairwise_mergeSort (fun a b c => ?_) (fun a b => ?_) _
    · simp only [listedBefore_iff]
      exact le_trans
    · rw [Bool.or_eq_true, listedBefore_iff, listedBefore_iff]
      exact le_total _ _
  have stored {p : String × Int} (mem : p ∈ (z.pairs.filter fun p => decide (p.2 ≤ score)).mergeSort listedBefore) :
      z.get? p.1 = some p.2 :=
    Table.mem_pairs_iff.mp (List.mem_filter.mp (List.mem_mergeSort.mp mem)).1
  rw [upTo, List.pairwise_map]
  refine sorted.imp_of_mem fun {a b} ha hb before m n hm hn => ?_
  obtain rfl : a.2 = m := Option.some.inj ((stored ha).symm.trans hm)
  obtain rfl : b.2 = n := Option.some.inj ((stored hb).symm.trans hn)
  exact before

end SortedSet

namespace Keyspace

variable (s : Keyspace)

/-- With an entry that waits. -/
def addPending (id entry : String) (score : Int) : Keyspace :=
  { s with entries := s.entries.set id entry, delayed := s.delayed.set id score }

/-- Without an entry that waits. -/
def dropPending (id : String) : Keyspace :=
  { s with entries := s.entries.erase id, delayed := s.delayed.erase id }

/-- With a claim of an entry that waits. -/
def addClaim (id claim : String) (expiry : Int) : Keyspace :=
  { s with
    active := s.active.set id claim
    delayed := s.delayed.erase id
    leases := s.leases.set id expiry }

def extendLease (id : String) (expiry : Int) : Keyspace :=
  { s with leases := s.leases.set id expiry }

/-- Without an entry that is claimed, and without its claim. -/
def dropClaimed (id : String) : Keyspace :=
  { s with
    entries := s.entries.erase id
    active := s.active.erase id
    leases := s.leases.erase id }

/-- Without a claim; its entry waits again, if it is there. -/
def giveUp (now : Int) (id : String) : Keyspace :=
  { s with
    active := s.active.erase id
    leases := s.leases.erase id
    delayed := if s.entries.contains id then s.delayed.set id now else s.delayed }

end Keyspace

namespace Command

/-- What a command answers and leaves, if it does not fail. -/
def outcome : (c : Command) → Keyspace → c.Answer × Keyspace
  | hget h field, s => ((s.hash h).get? field, s)
  | hset h field value, s => ((), s.withHash ((s.hash h).set field value) h)
  | hdel h field, s => ((), s.withHash ((s.hash h).erase field) h)
  | hexists h field, s => ((s.hash h).contains field, s)
  | hgetall h, s => ((s.hash h).pairs, s)
  | hkeys h, s => ((s.hash h).keys, s)
  | hvals h, s => ((s.hash h).values, s)
  | hlen h, s => ((s.hash h).size, s)
  | zrem z member, s => ((), s.withSet ((s.sortedSet z).erase member) z)
  | upTo z score limit, s => (((s.sortedSet z).upTo score).take limit, s)
  | insertIfAbsent id entry score, s =>
    ((), if s.entries.contains id then s else s.addPending id entry score)
  | removePending id, s => if s.delayed.contains id then (true, s.dropPending id) else (false, s)
  | claim id text expiry, s =>
    if s.delayed.contains id then (true, s.addClaim id text expiry) else (false, s)
  | renew id text expiry, s =>
    if s.active.get? id = some text then (true, s.extendLease id expiry) else (false, s)
  | release id text, s => if s.active.get? id = some text then (true, s.dropClaimed id) else (false, s)
  | recover now, s => ((s.leases.upTo now).length, (s.leases.upTo now).foldl (·.giveUp now) s)

/-! ## Commands that fail -/

theorem effect_of_fails {fails : Verb → Bool} (h : ∀ v, fails v = true) (c : Command) (s : Keyspace) :
    (c.effect fails).on s = (.error (), s) := by
  cases c <;> simp [effect, hgetStep, hsetStep, hdelStep, hexistsStep, zremStep, upToStep, guard, h,
    insertScript, removePendingScript, claimScript, renewScript, releaseScript, recoverScript,
    Act.on_discard]
  rfl

/-! ## Commands that do not fail -/

section

variable (s : Keyspace) (h : HashKey) (z : SetKey) (v : Verb) (field value member : String)

theorem guard_on : (guard (fun _ => false) v).on s = (.ok (), s) := rfl

theorem hgetStep_on : (hgetStep (fun _ => false) h field).on s = (.ok ((s.hash h).get? field), s) := rfl

theorem hsetnxStep_on : (hsetnxStep (fun _ => false) h field value).on s =
    if (s.hash h).contains field then (.ok false, s)
    else (.ok true, s.withHash ((s.hash h).set field value) h) := by
  simp only [hsetnxStep, Act.on_bind, guard_on, Act.on_get]
  split <;> rfl

theorem hdelStep_on : (hdelStep (fun _ => false) h field).on s =
    (.ok (), s.withHash ((s.hash h).erase field) h) := rfl

theorem hexistsStep_on : (hexistsStep (fun _ => false) h field).on s =
    (.ok ((s.hash h).contains field), s) := rfl

theorem zremStep_on : (zremStep (fun _ => false) z member).on s =
    (.ok ((s.sortedSet z).contains member), s.withSet ((s.sortedSet z).erase member) z) := rfl

theorem upToStep_on (score : Int) : (upToStep (fun _ => false) z score).on s =
    (.ok ((s.sortedSet z).upTo score), s) := rfl

end

section

variable (s : Keyspace) (id text : String) (score now : Int)

theorem insertScript_on : (insertScript (fun _ => false) id text score).on s =
    (.ok (), if s.entries.contains id then s else s.addPending id text score) := by
  simp only [insertScript, Act.on_bind, guard_on, hsetnxStep_on]
  by_cases hc : s.entries.contains id = true
  · rw [if_pos (show (s.hash .entries).contains id = true from hc), if_pos hc]
    rfl
  · rw [if_neg (show ¬ (s.hash .entries).contains id = true from hc), if_neg hc]
    rfl

theorem removePendingScript_on : (removePendingScript (fun _ => false) id).on s =
    if s.delayed.contains id then (.ok true, s.dropPending id) else (.ok false, s) := by
  simp only [removePendingScript, Act.on_bind, guard_on, zremStep_on, Keyspace.sortedSet]
  by_cases hc : s.delayed.contains id = true
  · rw [if_pos hc, if_pos hc]
    rfl
  · rw [if_neg hc, if_neg hc, Table.erase_of_not_contains (Bool.not_eq_true _ ▸ hc)]
    rfl

theorem claimScript_on : (claimScript (fun _ => false) id text score).on s =
    if s.delayed.contains id then (.ok true, s.addClaim id text score) else (.ok false, s) := by
  simp only [claimScript, Act.on_bind, guard_on, zremStep_on, Keyspace.sortedSet]
  by_cases hc : s.delayed.contains id = true
  · rw [if_pos hc, if_pos hc]
    rfl
  · rw [if_neg hc, if_neg hc, Table.erase_of_not_contains (Bool.not_eq_true _ ▸ hc)]
    rfl

theorem renewScript_on : (renewScript (fun _ => false) id text score).on s =
    if s.active.get? id = some text then (.ok true, s.extendLease id score) else (.ok false, s) := by
  simp only [renewScript, Act.on_bind, guard_on, hgetStep_on, Keyspace.hash]
  by_cases hc : s.active.get? id = some text
  · rw [if_pos hc, if_pos hc]
    rfl
  · rw [if_neg hc, if_neg hc]
    rfl

theorem releaseScript_on : (releaseScript (fun _ => false) id text).on s =
    if s.active.get? id = some text then (.ok true, s.dropClaimed id) else (.ok false, s) := by
  simp only [releaseScript, Act.on_bind, guard_on, hgetStep_on, Keyspace.hash]
  by_cases hc : s.active.get? id = some text
  · rw [if_pos hc, if_pos hc]
    rfl
  · rw [if_neg hc, if_neg hc]
    rfl

theorem recoverEach_on (ids : List String) : (recoverEach (fun _ => false) now ids).on s =
    (.ok (), ids.foldl (·.giveUp now) s) := by
  induction ids generalizing s with
  | nil => rfl
  | cons id ids ih =>
    simp only [recoverEach, Act.on_bind, Act.on_discard, zremStep_on, hdelStep_on, hexistsStep_on,
      List.foldl_cons]
    rw [← ih (s.giveUp now id)]
    by_cases hc : s.entries.contains id = true
    · have after : s.giveUp now id = ((s.withSet (s.leases.erase id) .leases).withHash
          (s.active.erase id) .active).withSet (s.delayed.set id now) .delayed := by
        simp only [Keyspace.giveUp, if_pos hc]
        rfl
      rw [after]
      show ((if s.entries.contains id = true then _ else _ : Step Unit).on _) = _
      rw [if_pos hc]
      rfl
    · have after : s.giveUp now id =
          (s.withSet (s.leases.erase id) .leases).withHash (s.active.erase id) .active := by
        simp only [Keyspace.giveUp, if_neg hc]
        rfl
      rw [after]
      show ((if s.entries.contains id = true then _ else _ : Step Unit).on _) = _
      rw [if_neg hc]
      rfl

theorem recoverScript_on : (recoverScript (fun _ => false) now).on s =
    (.ok (s.leases.upTo now).length, (s.leases.upTo now).foldl (·.giveUp now) s) := by
  simp only [recoverScript, Act.on_bind, guard_on, upToStep_on, recoverEach_on, Keyspace.sortedSet]
  rfl

end

theorem effect_on {fails : Verb → Bool} (h : ∀ v, fails v = false) (c : Command) (s : Keyspace) :
    (c.effect fails).on s = (.ok (c.outcome s).1, (c.outcome s).2) := by
  have pair {α : Type} (p : Prop) [Decidable p] (a b : α) (s s' : Keyspace) :
      (if p then (.ok a, s) else (.ok b, s') : Except Unit α × Keyspace) =
        (.ok (if p then (a, s) else (b, s')).1, (if p then (a, s) else (b, s')).2) := by
    split <;> rfl
  obtain rfl : fails = fun _ => false := funext h
  cases c with
  | insertIfAbsent id entry score => exact insertScript_on s id entry score
  | removePending id => exact (removePendingScript_on s id).trans (pair _ _ _ _ _)
  | claim id text expiry => exact (claimScript_on s id text expiry).trans (pair _ _ _ _ _)
  | renew id text expiry => exact (renewScript_on s id text expiry).trans (pair _ _ _ _ _)
  | release id text => exact (releaseScript_on s id text).trans (pair _ _ _ _ _)
  | recover now => exact recoverScript_on s now
  | _ => rfl

end Command

end Timetable
