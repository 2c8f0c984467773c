import Timetable.Proofs.Json.Reread
import Timetable.Proofs.Queue.Identifiers
import Timetable.Queue.Shared

/-!
# What is read of stored texts

Entries, records and claims are stored as texts. Whoever reads such a text finds what was written, as far as the
parts go that name it: the identifier, key and specification of an entry, the field of a record, and the key of a
claim. Different claims have different texts (`ActiveClaim.text_injective`).
-/

namespace Timetable

open Json

theorem SharedQueue.decode_text_eq_ok {α : Type} {ofJson? : Json → Option α} {j : Json} {a : α} :
    decode ofJson? j.text = .ok a ↔ ofJson? (j.reread deepest) = some a := by
  rw [decode, outline?_text, Option.bind_eq_bind, Option.bind_some]
  cases ofJson? (j.reread deepest) <;> simp

/-! ## Specifications -/

namespace RepeatSpec

theorem ofJson?_every (millis : Json) :
    ofJson? (.obj [("kind", .str "every"), ("millis", millis)]) =
      if millis.isWhole then (nat64? millis).map every else none := by
  have kind : record? ["kind"] (.obj [("kind", .str "every"), ("millis", millis)]) =
      some [.given (.str "every")] := by simp [record?, occurrences, member?, Slot.ofMember]
  have count : record? ["millis"] (.obj [("kind", .str "every"), ("millis", millis)]) =
      some [.given millis] := by simp [record?, occurrences, member?, Slot.ofMember]
  cases h : millis.isWhole with
  | true =>
    cases n : nat64? millis <;>
      simp [ofJson?, isWhole, membersAreWhole, h, kind, Slot.required, string?, ofKind?, count, n]
  | false => simp [ofJson?, isWhole, membersAreWhole, h]

theorem ofJson?_cron (expression : String) :
    ofJson? (.obj [("expression", .str expression), ("kind", .str "cron")]) =
      some (cron expression) := by
  have kind : record? ["kind"] (.obj [("expression", .str expression), ("kind", .str "cron")]) =
      some [.given (.str "cron")] := by simp [record?, occurrences, member?, Slot.ofMember]
  have text : record? ["expression"] (.obj [("expression", .str expression), ("kind", .str "cron")]) =
      some [.given (.str expression)] := by simp [record?, occurrences, member?, Slot.ofMember]
  simp [ofJson?, isWhole, membersAreWhole, kind, Slot.required, string?, ofKind?, text]

theorem reread_toJson_every (room millis : Nat) : (every millis).toJson.reread (room + 1) =
    .obj [("kind", .str "every"), ("millis", (Json.ofInt millis).reread)] := rfl

theorem reread_toJson_cron (room : Nat) (expression : String) :
    (cron expression).toJson.reread (room + 1) =
      .obj [("expression", .str expression), ("kind", .str "cron")] := rfl

theorem eq_of_reread {spec spec' : RepeatSpec} {room : Nat}
    (h : ofJson? (spec.toJson.reread (room + 1)) = some spec') : spec' = spec := by
  cases spec with
  | every millis =>
    rw [reread_toJson_every, ofJson?_every, Option.ite_none_right_eq_some,
      Option.map_eq_some_iff] at h
    obtain ⟨_, n, hn, rfl⟩ := h
    congr 1
    rw [Numeral.reread] at hn
    cases hv : (Json.ofInt millis).value? with
    | none => simp [hv, nat64?, natBelow?] at hn
    | some j =>
      rw [hv, Option.getD_some] at hn
      cases j with
      | int k =>
        obtain rfl := eq_of_value?_ofInt hv
        simp only [nat64?, natBelow?, Option.ite_none_right_eq_some, Option.some.injEq] at hn
        omega
      | _ => simp [nat64?, natBelow?] at hn
  | cron expression =>
    rw [reread_toJson_cron, ofJson?_cron] at h
    exact (Option.some.inj h).symm

theorem optional_toJson_some (spec : RepeatSpec) :
    Slot.optional ofJson? (.given ((ofOption toJson (some spec)).reread 126)) =
      (ofJson? (spec.toJson.reread 126)).map some := by
  cases spec <;> rfl

end RepeatSpec

/-! ## Entries -/

namespace StoredEntry

theorem ofJson?_reread (e : StoredEntry) :
    ofJson? (e.toJson.reread deepest) = (do
      let repeats ← Slot.optional RepeatSpec.ofJson?
        (.given ((ofOption RepeatSpec.toJson e.repeats).reread 126))
      let payload ← payload? (e.payload.reread 126)
      let fireAt ← Instant.ofText? e.fireAt.text
      let processedOn ← Slot.optional instant?
        (.given ((ofOption ofInstant e.processedOn).reread 126))
      some { e with repeats, payload, fireAt, processedOn }) := by
  have slots (fireAt payload processedOn repeats : Json) :
      record? ["id", "key", "repeat", "payload", "fire_at", "processed_on"]
        (.obj [("fire_at", fireAt), ("id", .str e.id), ("key", .str e.key), ("payload", payload),
          ("processed_on", processedOn), ("repeat", repeats)]) =
        some [.given (.str e.id), .given (.str e.key), .given repeats, .given payload,
          .given fireAt, .given processedOn] := by
    simp [record?, occurrences, member?, Slot.ofMember]
  have shape : e.toJson.reread deepest = .obj [("fire_at", ofInstant e.fireAt), ("id", .str e.id),
      ("key", .str e.key), ("payload", e.payload.reread 126),
      ("processed_on", (ofOption ofInstant e.processedOn).reread 126),
      ("repeat", (ofOption RepeatSpec.toJson e.repeats).reread 126)] := rfl
  rw [shape, ofJson?, slots]
  rfl

/-- Whatever is read of the text of an entry bears its name. -/
theorem named_of_decode {e e' : StoredEntry}
    (h : SharedQueue.decodeEntry (SharedQueue.entryText e) = .ok e') :
    e'.id = e.id ∧ e'.key = e.key ∧ e'.repeats = e.repeats := by
  have read := SharedQueue.decode_text_eq_ok.mp h
  simp only [ofJson?_reread, Option.bind_eq_bind, Option.bind_eq_some_iff] at read
  obtain ⟨repeats, hrepeats, _, _, _, _, _, _, same⟩ := read
  cases same
  refine ⟨rfl, rfl, ?_⟩
  cases he : e.repeats with
  | none =>
    rw [he] at hrepeats
    exact (Option.some.inj hrepeats).symm
  | some spec =>
    rw [he, RepeatSpec.optional_toJson_some, Option.map_eq_some_iff] at hrepeats
    obtain ⟨spec', hspec, rfl⟩ := hrepeats
    rw [RepeatSpec.eq_of_reread hspec]

end StoredEntry

/-! ## Records and claims -/

namespace RepeatRecord

theorem ofJson?_reread (r : RepeatRecord) :
    ofJson? (r.toJson.reread deepest) = (do
      let spec ← RepeatSpec.ofJson? (r.spec.toJson.reread 126)
      let payload ← payload? (r.payload.reread 126)
      let next ← Slot.optional instant? (.given ((ofOption ofInstant r.next).reread 126))
      some { r with spec, payload, next }) := by
  have slots (next payload spec : Json) :
      record? ["key", "spec", "payload", "next"]
        (.obj [("key", .str r.key), ("next", next), ("payload", payload), ("spec", spec)]) =
        some [.given (.str r.key), .given spec, .given payload, .given next] := by
    simp [record?, occurrences, member?, Slot.ofMember]
  have shape : r.toJson.reread deepest = .obj [("key", .str r.key),
      ("next", (ofOption ofInstant r.next).reread 126), ("payload", r.payload.reread 126),
      ("spec", r.spec.toJson.reread 126)] := rfl
  rw [shape, ofJson?, slots]
  rfl

/-- Whatever is read of the text of a record belongs into its field. -/
theorem field_of_decode {r r' : RepeatRecord}
    (h : SharedQueue.decodeRecord (SharedQueue.recordText r) = .ok r') :
    r'.key = r.key ∧ r'.spec = r.spec := by
  have read := SharedQueue.decode_text_eq_ok.mp h
  simp only [ofJson?_reread, Option.bind_eq_bind, Option.bind_eq_some_iff] at read
  obtain ⟨spec, hspec, _, _, _, _, same⟩ := read
  cases same
  exact ⟨rfl, RepeatSpec.eq_of_reread hspec⟩

end RepeatRecord

namespace ActiveClaim

theorem reread_toJson (c : ActiveClaim) : c.toJson.reread deepest =
    .obj [("key", .str c.key), ("claimed_at", (Json.ofInt c.claimedAt).reread)] := rfl

/-- Whatever is read of the text of a claim has its key. -/
theorem key_of_decode {c c' : ActiveClaim} (h : SharedQueue.decodeClaim c.text = .ok c') : c'.key = c.key := by
  have slots (claimedAt : Json) :
      record? ["key", "claimed_at"] (.obj [("key", .str c.key), ("claimed_at", claimedAt)]) =
        some [.given (.str c.key), .given claimedAt] := by
    simp [record?, occurrences, member?, Slot.ofMember]
  have read := SharedQueue.decode_text_eq_ok.mp h
  rw [reread_toJson, ofJson?, slots] at read
  simp only [Option.bind_eq_bind, Option.bind_some, Slot.required, string?,
    Option.bind_eq_some_iff] at read
  obtain ⟨_, _, same⟩ := read
  cases same
  rfl

/-- A claim is written as its key, then its time. -/
theorem chars_toJson (c : ActiveClaim) : c.toJson.chars =
    '\x7b' :: writeString "key" (':' :: writeString c.key (',' :: writeString "claimed_at" [':'])) ++
      (Text.signed c.claimedAt ++ ['\x7d']) := by
  simp only [toJson, chars, write, writeMembers, List.cons_append, ← writeString_append, List.nil_append]

theorem text_injective {c c' : ActiveClaim} (h : c.text = c'.text) : c = c' := by
  have chars : c.toJson.chars = c'.toJson.chars := String.ofList_injective h
  have read : c.toJson.reread deepest = c'.toJson.reread deepest :=
    Option.some.inj ((outline?_text c.toJson).symm.trans ((congrArg outline? h).trans (outline?_text c'.toJson)))
  rw [reread_toJson, reread_toJson] at read
  have key : c.key = c'.key := by
    injection read with members
    injection members with first
    exact Json.str.inj (Prod.mk.inj first).2
  rw [chars_toJson, chars_toJson, key] at chars
  have time := Text.signed_injective (List.append_cancel_right (List.append_cancel_left chars))
  exact congr (congrArg mk key) time

end ActiveClaim

end Timetable
