import Timetable.Proofs.Queue.Locks
import Timetable.Proofs.Queue.Orderly
import Timetable.Proofs.Queue.Requests

/-!
# Leases in the queue in a shared keyspace

In a shared keyspace a claim is known by identifier, key and millisecond. Most commands change no claim at all
(`SharedQueue.Quiet`), and a claim of due entries does not touch what is claimed unless it is late. A request may end a
claim only if it is late or if the request names it (`SharedQueue.MayEnd`). So the queue excludes claims of what is
claimed, whatever is asked of it and whatever fails (`SharedQueue.excludes`).
-/

namespace Timetable.SharedQueue

open Program

variable {s s' : Keyspace} {P : String → Prop} {id x : String} {expiry : Int} {e : StoredEntry}

/-! ## Programs that change no claim -/

/-- A command that changes no claim, and stores no entry but under its own identifier. -/
def Quiet : Command → Prop
  | .hset .entries id text => ∃ e, text = entryText e ∧ e.id = id
  | .insertIfAbsent id text _ => ∃ e, text = entryText e ∧ e.id = id
  | .hset .active _ _ | .hdel .entries _ | .hdel .active _ | .zrem .leases _ => False
  | .claim .. | .renew .. | .release .. | .recover _ => False
  | _ => True

theorem quiet_leaves {c : Command} (quiet : Quiet c) (fails : Verb → Bool) (orderly : Orderly s) :
    (c.effect fails).Ends s (fun _ => Leaves s P) fun _ => Leaves s P := by
  have stay : Leaves s P s := .refl orderly
  cases c with
  | hget h field => exact Command.hgetStep_ends stay stay
  | hset h field text =>
    cases h with
    | repeats => exact Command.hsetStep_ends stay (.of_eq (orderly.withRepeats _) rfl rfl)
    | entries =>
      obtain ⟨e, rfl, own⟩ := quiet
      exact Command.hsetStep_ends stay (.of_eq (orderly.setEntry own) rfl rfl)
    | active => exact quiet.elim
  | hdel h field =>
    cases h with
    | repeats => exact Command.hdelStep_ends stay (.of_eq (orderly.withRepeats _) rfl rfl)
    | entries | active => exact quiet.elim
  | hexists h field => exact Command.hexistsStep_ends stay stay
  | hgetall | hkeys | hvals | hlen =>
    exact Act.ends_bind.mpr (Command.guard_ends stay
      (Act.ends_bind.mpr (Act.ends_get.mpr (Act.ends_pure.mpr stay))))
  | zrem z member =>
    cases z with
    | delayed =>
      exact Act.ends_discard.mpr (Command.zremStep_ends stay (.of_eq (orderly.unschedule member) rfl rfl))
    | leases => exact quiet.elim
  | upTo z score limit => exact Act.ends_bind.mpr (Command.upToStep_ends stay (Act.ends_pure.mpr stay))
  | insertIfAbsent id text score =>
    obtain ⟨e, rfl, own⟩ := quiet
    exact insertScript_leaves orderly own score
  | removePending id => exact removePendingScript_leaves orderly id
  | claim | renew | release | recover => exact quiet.elim

theorem only_leaves {α : Type} {p : Program α} (quiet : p.Only Quiet) (orderly : Orderly s) :
    p.Weathers (fun _ => Leaves s P) (Leaves s P) s := by
  refine quiet.weathers (fun c fails s₁ allowed left => ?_) (.refl orderly)
  have next := quiet_leaves (P := P) allowed fails left.orderly
  exact Act.ends_iff_forall.mp (next.mono (fun _ _ => left.trans) fun _ _ => left.trans)

section

variable {rules : ClaimRules} {now : Instant} {key : String} {spec : RepeatSpec} {payload : Json}

theorem insertCurrent_quiet (r : RepeatRecord) : (insertCurrent r).Only Quiet := by
  unfold insertCurrent
  cases r.currentInstance with
  | some e => exact .ask ⟨e, rfl, rfl⟩
  | none => exact .done

theorem loadRecord_quiet (field : String) : (loadRecord field).Only Quiet := by
  refine .send trivial fun text => ?_
  cases text with
  | none => exact .done
  | some text => exact Only.ofExcept.bind fun _ => .done

theorem advanceChain_quiet (record : Option RepeatRecord) (e : StoredEntry) :
    (advanceChain now record e).Only Quiet := by
  unfold advanceChain
  cases record with
  | none => exact .done
  | some r =>
    dsimp only
    split
    · exact Only.ofExcept.bind fun next => .send trivial fun _ => insertCurrent_quiet next
    · exact .done

theorem keyIsActive_quiet (e : StoredEntry) : (keyIsActive e).Only Quiet := .send trivial fun _ => .ofExcept

theorem addRepeating_quiet : (addRepeating now key spec payload).Only Quiet := by
  have save (r : RepeatRecord) : (do saveRecord r; insertCurrent r : Program Unit).Only Quiet :=
    .send trivial fun _ => insertCurrent_quiet r
  refine (loadRecord_quiet _).bind fun record => ?_
  cases record with
  | none => exact Only.ofExcept.bind save
  | some old => exact save { old with payload }

theorem addDelayed_quiet {delay : Nat} : (addDelayed now key delay payload).Only Quiet := by
  unfold addDelayed
  cases now.addMillis? (signedWord delay) with
  | none => exact .fail
  | some fireAt => exact .ask ⟨_, rfl, rfl⟩

theorem removeRepeating_quiet : (removeRepeating key spec).Only Quiet := by
  refine (loadRecord_quiet _).bind fun record => ?_
  cases record with
  | none => exact .done
  | some r =>
    refine .send trivial fun _ => ?_
    cases r.currentInstance with
    | none => exact .done
    | some e => exact (Only.discard (.ask trivial)).bind fun _ => .done

theorem listEntries_quiet {states : List EntryState} : (listEntries now states).Only Quiet :=
  .send trivial fun _ => .send trivial fun _ => Only.ofExcept.bind fun _ => .done

theorem getEntry_quiet : (getEntry now key).Only Quiet := by
  refine .send trivial fun text => ?_
  cases text with
  | none => exact .done
  | some text => exact Only.ofExcept.bind fun _ => .send trivial fun _ => .done

end

/-! ## Claims -/

/-- What was handed out is claimed, with a lease as the rules say. -/
structure Claimed (rules : ClaimRules) (now : Instant) (s : Keyspace) (e : StoredEntry) : Prop where
  time : e.processedOn = some now
  held : ∃ expiry, leaseExpiry rules now = .ok expiry ∧ Held s e.id (ActiveClaim.mk e.key now.millis).text expiry

theorem Claimed.stays {rules : ClaimRules} {now : Instant} (h : Claimed rules now s e) (stays : Stays s s' e.id) :
    Claimed rules now s' e :=
  let ⟨expiry, inTime, held⟩ := h.held
  ⟨h.time, expiry, inTime, stays _ _ held⟩

section

variable {rules : ClaimRules} {now : Instant} {stored : StoredEntry} {a : ActiveClaim}

theorem release_leaves (orderly : Orderly s) (id : String) (a : ActiveClaim) :
    (release id a).Weathers (fun _ => Leaves s fun x => s.active.get? id = some a.text → x ≠ id)
      (Leaves s fun x => s.active.get? id = some a.text → x ≠ id) s :=
  .send fun _ => (releaseScript_leaves orderly id a.text).mono (fun _ _ left => .done left) fun _ _ left => left

/-- A claim that was won stays if the entry is handed out. All others stay in any case. -/
theorem handOut_leaves (orderly : Orderly s) (own : stored.id = id) :
    (handOut rules now id stored a).Weathers
      (fun out s' => Leaves s (· ≠ id) s' ∧
        ∀ c, out = some c → c = { stored with processedOn := some now } ∧ Stays s s' id)
      (Leaves s (· ≠ id)) s := by
  have dropped {s₁ : Keyspace} (left : Leaves s (fun _ => True) s₁) :
      (do discard (release id a); return none : Program (Option StoredEntry)).Weathers
        (fun out s' => Leaves s (· ≠ id) s' ∧
          ∀ c, out = some c → c = { stored with processedOn := some now } ∧ Stays s s' id)
        (Leaves s (· ≠ id)) s₁ := by
    have through {s' : Keyspace} (h : Leaves s₁ (fun x => s₁.active.get? id = some a.text → x ≠ id) s') :
        Leaves s (· ≠ id) s' :=
      (left.mono fun _ _ => trivial).trans (h.mono fun _ ne _ => ne)
    refine ((release_leaves left.orderly id a).mono (fun _ _ => through) fun _ => through).discard.bind ?_
    rintro ⟨⟩ s' left'
    exact .done ⟨left', fun _ h => by cases h⟩
  have won {s' : Keyspace} (left : Leaves s (fun _ => True) s') : Leaves s (· ≠ id) s' ∧
      ∀ c, some { stored with processedOn := some now } = some c →
        c = { stored with processedOn := some now } ∧ Stays s s' id := by
    refine ⟨left.mono fun _ _ => trivial, ?_⟩
    rintro _ ⟨⟩
    exact ⟨rfl, left.stays trivial⟩
  have quiet {α : Type} {p : Program α} (h : p.Only Quiet) {s₁ : Keyspace} (left : Leaves s (fun _ => True) s₁) :
      p.Weathers (fun _ => Leaves s fun _ => True) (Leaves s (· ≠ id)) s₁ :=
    (only_leaves h left.orderly).mono (fun _ _ => left.trans) fun _ h => (left.trans h).mono fun _ _ => trivial
  have saved : (saveEntry id { stored with processedOn := some now }).Only Quiet := .ask ⟨_, rfl, own⟩
  unfold handOut
  dsimp only
  split
  · exact (quiet saved (.refl orderly)).bind fun _ _ left => .done (won left)
  · refine (quiet (loadRecord_quiet _) (.refl orderly)).bind fun record s₁ left₁ => ?_
    split
    · exact dropped left₁
    · refine (quiet saved left₁).bind fun _ s₂ left₂ => ?_
      refine (quiet (advanceChain_quiet record _) left₂).bind fun _ s₃ left₃ => ?_
      split
      · refine (quiet (keyIsActive_quiet _) left₃).bind fun blocked s₄ left₄ => ?_
        split
        · exact dropped left₄
        · exact .done (won left₄)
      · exact .done (won left₃)

/-- What is claimed already is not claimed again. -/
theorem claimId_leaves (orderly : Orderly s) (id : String) :
    (claimId rules now id).Weathers
      (fun out s' => Leaves s (fun _ => True) s' ∧
        ∀ c, out = some c → c.id = id ∧ Free s id ∧ Claimed rules now s' c)
      (Leaves s fun _ => True) s := by
  have stay : Leaves s (fun _ => True) s := .refl orderly
  unfold claimId
  refine .askThen fun _ => Command.hgetStep_ends stay ?_
  cases entry : (s.hash .entries).get? id with
  | none =>
    refine (only_leaves (p := ask (.zrem .delayed id)) (.ask trivial) orderly).bind fun _ _ left => ?_
    exact .done ⟨left, fun _ h => by cases h⟩
  | some text =>
    obtain ⟨e, rfl, own⟩ := orderly.named entry
    refine .ofExceptThen stay fun stored read => ?_
    have own : stored.id = id := (StoredEntry.named_of_decode read).1.trans own
    refine .ofExceptThen stay fun expiry inTime => ?_
    refine .askThen fun _ => (claimScript_leaves orderly id _ expiry).mono ?_ fun _ _ left => left
    rintro won s₁ ⟨left, claimed⟩
    cases won with
    | false => exact .done ⟨left, fun _ h => by cases h⟩
    | true =>
      obtain ⟨free, held⟩ := claimed rfl
      have free : Free s id := fun _ _ held => by
        rw [held.active] at free
        cases free
      have through {s' : Keyspace} (h : Leaves s₁ (· ≠ id) s') : Leaves s (fun _ => True) s' := by
        refine ⟨h.orderly, fun {x} _ t n was => ?_⟩
        have ne : x ≠ id := by
          rintro rfl
          exact free t n was
        exact h.stays ne t n (left.stays trivial t n was)
      refine (handOut_leaves left.orderly own).mono ?_ fun _ => through
      rintro out s' ⟨left', handed⟩
      refine ⟨through left', fun c hc => ?_⟩
      obtain ⟨rfl, stays⟩ := handed c hc
      exact ⟨own, free, rfl, expiry, inTime, own ▸ stays _ _ held⟩

theorem claimEach_leaves (orderly : Orderly s) {ids : List String} (nodup : ids.Nodup) :
    (claimEach rules now ids).Weathers
      (fun out s' => Leaves s (fun _ => True) s' ∧ (out.map (·.id)).Sublist ids ∧
        ∀ c ∈ out, Free s c.id ∧ Claimed rules now s' c)
      (Leaves s fun _ => True) s := by
  induction ids generalizing s with
  | nil => exact .done ⟨.refl orderly, .slnil, fun _ h => by cases h⟩
  | cons id ids ih =>
    obtain ⟨absent, nodup⟩ := List.nodup_cons.mp nodup
    rw [claimEach]
    refine (claimId_leaves orderly id).bind ?_
    rintro one s₁ ⟨left, first⟩
    have before {x : String} (free : Free s₁ x) : Free s x := fun t n held => free t n (left.stays trivial t n held)
    cases one with
    | none =>
      refine (ih left.orderly nodup).mono ?_ fun _ => left.trans
      rintro out s' ⟨left', sub, claimed⟩
      exact ⟨left.trans left', sub.cons id, fun c mem => (claimed c mem).imp_left before⟩
    | some c =>
      obtain ⟨own, free, held⟩ := first c rfl
      refine ((ih left.orderly nodup).mono (fun _ _ h => h) fun _ => left.trans).bind ?_
      rintro out s' ⟨left', sub, claimed⟩
      refine .done ⟨left.trans left', ?_, fun c' mem => ?_⟩
      · rw [List.map_cons, own]
        exact sub.cons_cons id
      · rcases List.mem_cons.mp mem with rfl | mem
        · exact ⟨own.symm ▸ free, held.stays (left'.stays trivial)⟩
        · exact (claimed c' mem).imp_left before

/-- A claim that is not late stays, and is not claimed again. -/
theorem claimDue_leaves (orderly : Orderly s) (limit : Nat) :
    (claimDue rules now limit).Weathers
      (fun out s' => Leaves s (· ∉ s.leases.upTo now.millis) s' ∧ (out.map (·.id)).Nodup ∧
        ∀ c ∈ out, Claimed rules now s' c ∧ (c.id ∉ s.leases.upTo now.millis → Free s c.id))
      (Leaves s (· ∉ s.leases.upTo now.millis)) s := by
  have recovered : (discard (recoverStalled now) : Program Unit).Weathers
      (fun _ => Leaves s (· ∉ s.leases.upTo now.millis)) (Leaves s (· ∉ s.leases.upTo now.millis)) s :=
    Weathers.discard (.send fun _ => (recoverScript_leaves orderly now.millis).mono
      (fun _ _ left => .done left) fun _ _ left => left)
  refine recovered.bind fun _ s₁ left => ?_
  have through {s' : Keyspace} (h : Leaves s₁ (fun _ => True) s') : Leaves s (· ∉ s.leases.upTo now.millis) s' :=
    left.trans (h.mono fun _ _ => trivial)
  refine .askThen fun _ => Act.ends_bind.mpr (Command.upToStep_ends left (Act.ends_pure.mpr ?_))
  have nodup := (SortedSet.nodup_upTo s₁.delayed now.millis).sublist (List.take_sublist limit _)
  refine (claimEach_leaves left.orderly nodup).mono ?_ fun _ => through
  rintro out s' ⟨left', sub, claimed⟩
  refine ⟨through left', nodup.sublist sub, fun c mem => ⟨(claimed c mem).2, fun inTime t n held => ?_⟩⟩
  exact (claimed c mem).1 t n (left.stays inTime t n held)

end

/-! ## Requests -/

section

variable {rules : ClaimRules} {now : Instant} {f : StoredEntry}

/-- A lease is extended for whoever holds the claim. -/
theorem renewLease_leaves (orderly : Orderly s) :
    (renewLease rules f now).Weathers
      (fun renewed s' => Leaves s (fun x => renewed = true → x ≠ f.id) s' ∧
        (renewed = true → ∃ claim expiry, ActiveClaim.ofEntry? f = some claim ∧ leaseExpiry rules now = .ok expiry ∧
          s.active.get? f.id = some claim.text ∧ Held s' f.id claim.text expiry))
      (Leaves s fun _ => True) s := by
  have stay {P : String → Prop} : Leaves s P s := .refl orderly
  unfold renewLease
  cases named : ActiveClaim.ofEntry? f with
  | none => exact .done ⟨stay, fun h => by cases h⟩
  | some claim =>
    refine .ofExceptThen stay fun expiry inTime => .send fun _ => ?_
    refine (renewScript_leaves orderly f.id claim.text expiry).mono ?_ fun _ _ left => left
    rintro renewed s' ⟨left, held⟩
    exact .done ⟨left, fun yes => ⟨claim, expiry, rfl, inTime, held yes⟩⟩

/-- A request may end a claim that is late, or that it names. -/
def MayEnd (now : Instant) (s : Keyspace) (x : String) : QueueRequest → Prop
  | .claimDue _ | .recoverStalled => x ∈ s.leases.upTo now.millis
  | .renewLease f | .finish f =>
    f.id = x ∧ ∃ claim, ActiveClaim.ofEntry? f = some claim ∧ s.active.get? f.id = some claim.text
  | _ => False

theorem program_leaves (orderly : Orderly s) (request : QueueRequest) :
    (program rules now request).Weathers (fun _ => Leaves s (¬ MayEnd now s · request))
      (Leaves s (¬ MayEnd now s · request)) s := by
  cases request with
  | addRepeating => exact only_leaves addRepeating_quiet orderly
  | addDelayed => exact only_leaves addDelayed_quiet orderly
  | removeRepeating => exact only_leaves removeRepeating_quiet orderly
  | removeDelayed => exact only_leaves (.ask trivial) orderly
  | listRepeating => exact only_leaves (.send trivial fun _ => .ofExcept) orderly
  | listEntries => exact only_leaves listEntries_quiet orderly
  | getEntry => exact only_leaves getEntry_quiet orderly
  | size => exact only_leaves (.ask trivial) orderly
  | claimDue limit => exact (claimDue_leaves orderly limit).mono (fun _ _ h => h.1) fun _ left => left
  | recoverStalled =>
    exact .send fun _ => (recoverScript_leaves orderly now.millis).mono (fun _ _ left => .done left) fun _ _ left => left
  | renewLease f =>
    refine (renewLease_leaves orderly).mono ?_ fun _ left => left.mono fun _ _ => trivial
    rintro renewed s' ⟨left, held⟩
    refine left.mono fun x kept yes same => ?_
    obtain ⟨claim, _, named, _, active, _⟩ := held yes
    exact kept ⟨same.symm, claim, named, active⟩
  | finish f =>
    show (finish f).Weathers _ _ s
    unfold finish
    cases named : ActiveClaim.ofEntry? f with
    | none => exact .done (.refl orderly)
    | some claim =>
      have released {s' : Keyspace} (left : Leaves s (fun x => s.active.get? f.id = some claim.text → x ≠ f.id) s') :
          Leaves s (¬ MayEnd now s · (.finish f)) s' :=
        left.mono fun x kept active same => kept ⟨same.symm, claim, named, active⟩
      exact ((release_leaves orderly f.id claim).mono (fun _ _ => released) fun _ => released).discard

variable {faults : CommandFaults} {link : Link}

theorem ask_leaves (orderly : Orderly link.keys) (request : QueueRequest) :
    Leaves link.keys (¬ MayEnd now link.keys · request)
      (((workQueue rules faults).ask now request).on link).2.keys := by
  rw [ask_eq_run]
  exact (Act.ends_iff_forall
    (P := fun link' : Link => Leaves link.keys (¬ MayEnd now link.keys · request) link'.keys)).mp
    ((program_leaves orderly request).ends faults rfl)

end

/-! ## Exclusion -/

/-- Whoever holds one of two entries holds the other: they bear one identifier, key and millisecond of claim. -/
def SameClaim (e f : StoredEntry) : Prop := f.id = e.id ∧ ActiveClaim.ofEntry? f = ActiveClaim.ofEntry? e

/-- The lease that started at some time is over, in whole milliseconds. -/
def LeaseOver (rules : ClaimRules) (start now : Instant) : Prop :=
  ∃ expiry, start.add? rules.lease = some expiry ∧ expiry.millis ≤ now.millis

theorem leaseExpiry_eq_ok {rules : ClaimRules} {now : Instant} :
    leaseExpiry rules now = .ok expiry ↔ ∃ t, now.add? rules.lease = some t ∧ t.millis = expiry := by
  unfold leaseExpiry
  cases now.add? rules.lease <;> simp

/-- The claim of an entry is held, with a lease that started at some time. -/
def Locked (rules : ClaimRules) (e : StoredEntry) (start : Instant) (s : Keyspace) : Prop :=
  ∃ claim expiry, ActiveClaim.ofEntry? e = some claim ∧ leaseExpiry rules start = .ok expiry ∧
    Held s e.id claim.text expiry

section

variable {rules : ClaimRules} {start now : Instant} {f : StoredEntry}

theorem Locked.stays (h : Locked rules e start s) (stays : Stays s s' e.id) : Locked rules e start s' :=
  let ⟨claim, expiry, named, inTime, held⟩ := h
  ⟨claim, expiry, named, inTime, stays _ _ held⟩

theorem Claimed.locked (h : Claimed rules now s e) : Locked rules e now s :=
  let ⟨expiry, inTime, held⟩ := h.held
  ⟨⟨e.key, now.millis⟩, expiry, by simp [ActiveClaim.ofEntry?, h.time], inTime, held⟩

/-- As long as its lease is not over, a claim is not late. -/
theorem Locked.notLate (h : Locked rules e start s) (running : ¬ LeaseOver rules start now) :
    e.id ∉ s.leases.upTo now.millis := by
  obtain ⟨claim, expiry, _, inTime, held⟩ := h
  obtain ⟨t, ht, rfl⟩ := leaseExpiry_eq_ok.mp inTime
  intro late
  obtain ⟨n, hn, le⟩ := SortedSet.mem_upTo.mp late
  rw [held.lease] at hn
  cases hn
  exact running ⟨t, ht, le⟩

/-- Only a holder names the identifier and the claim of an entry. -/
theorem Locked.sameClaim {claim : ActiveClaim} (h : Locked rules e start s) (same : f.id = e.id)
    (named : ActiveClaim.ofEntry? f = some claim) (held : s.active.get? f.id = some claim.text) : SameClaim e f := by
  obtain ⟨claim', _, named', _, held'⟩ := h
  rw [same, held'.claim] at held
  rw [SameClaim, named, named', ActiveClaim.text_injective (Option.some.inj held)]
  exact ⟨same, rfl⟩

variable {faults : CommandFaults} {link link' : Link}

/-- Nothing takes out a claim but its holder, or the end of its lease. -/
theorem ask_locked (orderly : Orderly link.keys) (locked : Locked rules e start link.keys) (request : QueueRequest)
    (unfinished : ∀ f, SameClaim e f → request ≠ .finish f)
    (notExtended : ∀ f, SameClaim e f → request = .renewLease f →
      (((workQueue rules faults).ask now (.renewLease f)).on link).1 ≠ .ok true) :
    LeaseOver rules start now ∨
      Locked rules e start (((workQueue rules faults).ask now request).on link).2.keys := by
  by_cases running : LeaseOver rules start now
  · exact .inl running
  refine .inr ?_
  by_cases ends : MayEnd now link.keys e.id request
  · cases request with
    | claimDue | recoverStalled => exact absurd ends (locked.notLate running)
    | renewLease f =>
      obtain ⟨same, claim, named, active⟩ := ends
      have refused := notExtended f (locked.sameClaim same named active) rfl
      have renewal : (renewLease rules f now).Weathers _ _ link.keys := renewLease_leaves orderly
      obtain ⟨ok, error⟩ := renewal.ends faults rfl
      cases result : (((workQueue rules faults).ask now (.renewLease f)).on link).1 with
      | ok renewed =>
        refine locked.stays ((ok renewed result).1.stays ?_)
        rintro rfl
        exact absurd result refused
      | error error' => exact locked.stays ((error error' result).stays trivial)
    | finish f =>
      obtain ⟨same, claim, named, active⟩ := ends
      exact absurd rfl (unfinished f (locked.sameClaim same named active))
    | _ => exact ends.elim
  · exact locked.stays ((ask_leaves orderly request).stays ends)

theorem renewLease_locked (orderly : Orderly link.keys) (holds : SameClaim e f)
    (renewed : (((workQueue rules faults).ask now (.renewLease f)).on link).1 = .ok true) :
    Locked rules e now (((workQueue rules faults).ask now (.renewLease f)).on link).2.keys := by
  have renewal : (renewLease rules f now).Weathers _ _ link.keys := renewLease_leaves orderly
  obtain ⟨ok, _⟩ := renewal.ends faults rfl
  obtain ⟨claim, expiry, named, inTime, _, held⟩ := (ok true renewed).2 rfl
  exact ⟨claim, expiry, holds.2.symm.trans named, inTime, holds.1 ▸ held⟩

/-- A claim of due entries locks what it hands out. -/
theorem claimDue_locked {limit : Nat} {out : List StoredEntry} (orderly : Orderly link.keys)
    (on : ((workQueue rules faults).claimDue now limit).on link = (.ok out, link')) :
    (out.map (·.id)).Nodup ∧ ∀ c ∈ out, Locked rules c now link'.keys ∧
      (c.id ∉ link.keys.leases.upTo now.millis → Free link.keys c.id) := by
  have claims : (claimDue rules now limit).Weathers _ _ link.keys := claimDue_leaves orderly limit
  obtain ⟨_, nodup, claimed⟩ := (Act.ends_of_on_ok on).mp (claims.ends faults rfl)
  exact ⟨nodup, fun c mem => (claimed c mem).imp_left (·.locked)⟩

theorem lock (rules : ClaimRules) (faults : CommandFaults) :
    WorkQueue.Lock (workQueue rules faults) (¬ ·.InLeapSecond) (Orderly ·.keys) SameClaim (LeaseOver rules)
      (fun e start link => Locked rules e start link.keys) where
  step request orderly := (ask_leaves orderly request).orderly
  claim orderly on := (claimDue_locked orderly on).imp_right fun h c mem => (h c mem).1
  renew orderly holds renewed := renewLease_locked orderly holds renewed
  keep request orderly locked := ask_locked orderly locked request
  shut {now s limit out s' e start f} orderly locked on mem same := by
    by_contra running
    have free := ((claimDue_locked orderly on).2 f mem).2 (same ▸ locked.notLate running)
    obtain ⟨claim, expiry, _, _, held⟩ := locked
    exact free _ _ (same ▸ held)
  mono := fun ⟨expiry, inTime, late⟩ ordinary le => ⟨expiry, inTime, Int.le_trans late (Instant.millis_mono ordinary le)⟩

/-- The queue in a shared keyspace excludes claims of what is claimed, whatever is asked of it and whatever fails. -/
theorem excludes (rules : ClaimRules) (faults : CommandFaults) :
    WorkQueue.Excludes (workQueue rules faults) (¬ ·.InLeapSecond) {} SameClaim (LeaseOver rules) :=
  .of_lock (lock rules faults) .empty

end

end Timetable.SharedQueue
