import Timetable.Queue.Entry

/-!
# Queue entries in JSON
-/

namespace Timetable

open Json

namespace OverlapPolicy

def text : OverlapPolicy → String
  | skip => "skip"
  | allow => "allow"

def ofText? (s : String) : Option OverlapPolicy := [skip, allow].find? (·.text == s)

def toJson (p : OverlapPolicy) : Json := .str p.text

def ofJson? (j : Json) : Option OverlapPolicy := word? j >>= ofText?

end OverlapPolicy

namespace EntryState

def text : EntryState → String
  | waiting => "waiting"
  | delayed => "delayed"
  | active => "active"

def ofText? (s : String) : Option EntryState := all.find? (·.text == s)

def toJson (s : EntryState) : Json := .str s.text

def ofJson? (j : Json) : Option EntryState := word? j >>= ofText?

end EntryState

namespace StoredEntry

def toJson (e : StoredEntry) : Json :=
  .obj [("fire_at", ofInstant e.fireAt), ("id", .str e.id), ("key", .str e.key),
    ("payload", e.payload), ("processed_on", ofOption ofInstant e.processedOn),
    ("repeat", ofOption RepeatSpec.toJson e.repeats)]

def ofJson? (j : Json) : Option StoredEntry := do
  let [id, key, repeats, payload, fireAt, processedOn] ←
    record? ["id", "key", "repeat", "payload", "fire_at", "processed_on"] j | none
  some
    { id := ← id.required string?
      key := ← key.required string?
      repeats := ← repeats.optional RepeatSpec.ofJson?
      payload := ← payload.required payload?
      fireAt := ← fireAt.required instant?
      processedOn := ← processedOn.optional instant? }

end StoredEntry

/-- An entry with its state as one more member. -/
def QueueEntry.toJson (e : QueueEntry) : Json := e.entry.toJson.overlay (.obj [("state", e.state.toJson)])

namespace RepeatRecord

def toJson (r : RepeatRecord) : Json :=
  .obj [("key", .str r.key), ("next", ofOption ofInstant r.next), ("payload", r.payload),
    ("spec", r.spec.toJson)]

def ofJson? (j : Json) : Option RepeatRecord := do
  let [key, spec, payload, next] ← record? ["key", "spec", "payload", "next"] j | none
  some
    { key := ← key.required string?
      spec := ← spec.required RepeatSpec.ofJson?
      payload := ← payload.required payload?
      next := ← next.optional instant? }

end RepeatRecord

end Timetable
