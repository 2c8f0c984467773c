import Timetable.Engine.Dispatch
import Timetable.Proofs.Identifier
import Timetable.Proofs.Queue.SideBySide
import Timetable.Proofs.Store.Columns

/-!
# Stored forms are read as they were written

Jobs travel as the payloads of entries, and entries, records and claims as texts; results and schedules lie in the rows
of executions. All of it comes back as it was, if it is *legible*: its times are such as a text can stand for, its
numbers fit the words they are kept in, and the payloads that texts hold are faithful (`Json.Faithful`), which leaves
fractions out that change on the way and values that lie too deep to be read where they are. A job that is still a value
asks less of its payloads: any proper one comes back (`Json.Proper`).

No text stands for a leap second in the middle of a minute. What holds such a time comes back with the second after it
(`stray_forms_change`).

1. A job is read of the payload of an entry, and so is the entry around it (`Job.Legible.payloadJob`);
2. entries, records and claims are read of their texts (`StoredEntry.Legible.decode`, `RepeatRecord.Legible.decode`,
   `ActiveClaim.decode`);
3. results and schedules are read of their columns (`CallResult.readJson?_column`, `Schedule.Legible.readJson?_column`).

`stored_forms_come_back` puts these together.
-/

namespace Timetable

open Json

/-! ## Jobs -/

structure FunctionSpec.Legible (f : FunctionSpec) : Prop where
  event : f.event.Proper
  headers : f.headers.Proper
  params : f.params.Proper

structure Job.Legible (j : Job) : Prop where
  schedule : j.schedule.Legible
  functions : ∀ f ∈ j.functions, f.Legible
  createdAt : j.createdAt.Legible
  updatedAt : j.updatedAt.Legible

/-- The payloads of a function leave room for the function, its list, the job and an entry around them. -/
structure FunctionSpec.Faithful (f : FunctionSpec) : Prop where
  event : f.event.Faithful ofDecimal 123
  headers : f.headers.Faithful ofDecimal 123
  params : f.params.Faithful ofDecimal 123

def Job.Faithful (j : Job) : Prop := ∀ f ∈ j.functions, f.Faithful

theorem FunctionSpec.Faithful.legible {f : FunctionSpec} (h : f.Faithful) : f.Legible :=
  ⟨h.event.proper, h.headers.proper, h.params.proper⟩

namespace Job

variable {j : Job}

theorem Legible.toJson (h : j.Legible) (faithful : j.Faithful) : j.toJson.Faithful ofDecimal 126 := by
  have sorted : ["createdAt", "environmentId", "executionType", "functions", "id", "name", "schedule", "status",
      "updatedAt"].Pairwise (· < ·) := by decide
  have functions : (ofList FunctionSpec.toJson j.functions).Faithful ofDecimal 125 :=
    faithful_ofList fun f mem => FunctionSpec.faithful_toJson (faithful f mem).event (faithful f mem).headers
      (faithful f mem).params
  refine faithful_obj sorted ?_
  simp only [List.forall_mem_cons]
  exact ⟨faithful_str _, faithful_str _, faithful_str _, functions, faithful_str _, faithful_str _, h.schedule.toJson,
    faithful_str _, faithful_str _, nofun⟩

theorem Legible.ofJson? (h : j.Legible) : ofJson? j.toJson = some j := by
  have record : record? ["id", "environmentId", "name", "schedule", "functions", "executionType", "status", "createdAt",
      "updatedAt"] j.toJson = some [.given (ofIdentifier j.id), .given (.str j.environment), .given (.str j.name),
        .given j.schedule.toJson, .given (.ofList FunctionSpec.toJson j.functions), .given j.executionType.toJson,
        .given j.status.toJson, .given (ofInstant j.createdAt), .given (ofInstant j.updatedAt)] := by
    simp [Job.toJson, record?, occurrences, member?, Slot.ofMember]
  have id : identifier? (ofIdentifier j.id) = some j.id := Identifier.ofText?_text j.id
  have functions : list? FunctionSpec.ofJson? (.ofList FunctionSpec.toJson j.functions) = some j.functions :=
    list?_ofList fun f mem => FunctionSpec.ofJson?_toJson (h.functions f mem).event (h.functions f mem).headers
      (h.functions f mem).params
  have executionType : ExecutionType.ofJson? j.executionType.toJson = some j.executionType :=
    ExecutionType.ofText?_text j.executionType
  have status : JobStatus.ofJson? j.status.toJson = some j.status := JobStatus.ofText?_text j.status
  have createdAt : instant? (ofInstant j.createdAt) = some j.createdAt := h.createdAt.read
  have updatedAt : instant? (ofInstant j.updatedAt) = some j.updatedAt := h.updatedAt.read
  unfold Job.ofJson?
  rw [record]
  simp only [Slot.required, string?, id, h.schedule.ofJson?, functions, executionType, status, createdAt, updatedAt,
    Option.bind_eq_bind, Option.bind_some]

/-- An entry that carries a job gives it back. -/
theorem Legible.payloadJob (h : j.Legible) (e : StoredEntry) :
    Engine.payloadJob { e with payload := j.toJson } = .ok j := by
  rw [Engine.payloadJob, h.ofJson?]

end Job

/-! ## Entries and records -/

namespace StoredEntry

structure Legible (e : StoredEntry) : Prop where
  repeats : ∀ spec, e.repeats = some spec → spec.Legible
  payload : e.payload.Faithful ofDecimal 126
  fireAt : e.fireAt.Legible
  processedOn : ∀ t, e.processedOn = some t → t.Legible

variable {e : StoredEntry}

theorem Legible.decode (h : e.Legible) : SharedQueue.decodeEntry (SharedQueue.entryText e) = .ok e := by
  have repeats : Slot.optional RepeatSpec.ofJson? (.given ((ofOption RepeatSpec.toJson e.repeats).reread 126)) =
      some e.repeats := by
    cases own : e.repeats with
    | none => rfl
    | some spec => rw [RepeatSpec.optional_toJson_some, (h.repeats spec own).read, Option.map_some]
  have payload := h.payload.fractions.payload?_eq h.payload.representable h.payload.normal h.payload.shallow
  refine SharedQueue.decode_text_eq_ok.mpr ?_
  rw [ofJson?_reread, repeats, payload, h.fireAt.read, Instant.Legible.optional_read h.processedOn]
  rfl

/-- A job may be the payload. -/
theorem Legible.with_job (h : e.Legible) {j : Job} (legible : j.Legible) (faithful : j.Faithful) :
    ({ e with payload := j.toJson } : StoredEntry).Legible :=
  ⟨h.repeats, legible.toJson faithful, h.fireAt, h.processedOn⟩

end StoredEntry

namespace RepeatRecord

structure Legible (r : RepeatRecord) : Prop where
  spec : r.spec.Legible
  payload : r.payload.Faithful ofDecimal 126
  next : ∀ t, r.next = some t → t.Legible

theorem Legible.decode {r : RepeatRecord} (h : r.Legible) :
    SharedQueue.decodeRecord (SharedQueue.recordText r) = .ok r := by
  have payload := h.payload.fractions.payload?_eq h.payload.representable h.payload.normal h.payload.shallow
  refine SharedQueue.decode_text_eq_ok.mpr ?_
  rw [ofJson?_reread, h.spec.read, payload, Instant.Legible.optional_read h.next]
  rfl

end RepeatRecord

/-! ## Results and schedules -/

theorem CallResult.readJson?_column {kind : JsonColumn} {rs : List CallResult} (h : ∀ r ∈ rs, r.Columnar) :
    readJson? (list? CallResult.ofJson?) (kind.text (ofList CallResult.toJson rs)) = some rs := by
  have faithful : (ofList CallResult.toJson rs).Faithful kind.numeral deepest :=
    faithful_ofList fun r mem => (h r mem).toJson
  rw [faithful.readJson?, list?_ofList fun r mem => (h r mem).ofJson?]

theorem Schedule.Legible.readJson?_column {kind : JsonColumn} {s : Schedule} (h : s.Legible) :
    readJson? Schedule.ofJson? (kind.text s.toJson) = some s := by
  have faithful : s.toJson.Faithful kind.numeral deepest := h.toJson
  rw [faithful.readJson?, h.ofJson?]

/-! ## Together -/

/-- A job is read of the payload of any entry, entries with any payload, records and claims are read of their texts,
and results and schedules of columns of either kind: each as it was. The times in them may be all that some text stands
for. A job that no text was made of keeps all its fractions. -/
theorem stored_forms_come_back :
    (∀ j : Job, j.Legible → ∀ e : StoredEntry, Engine.payloadJob { e with payload := j.toJson } = .ok j ∧
      (j.Faithful → e.Legible → SharedQueue.decodeEntry (SharedQueue.entryText { e with payload := j.toJson }) =
        .ok { e with payload := j.toJson })) ∧
    (∀ e : StoredEntry, e.Legible → SharedQueue.decodeEntry (SharedQueue.entryText e) = .ok e) ∧
    (∀ r : RepeatRecord, r.Legible → SharedQueue.decodeRecord (SharedQueue.recordText r) = .ok r) ∧
    (∀ c : ActiveClaim, FitsWord c.claimedAt → SharedQueue.decodeClaim c.text = .ok c) ∧
    (∀ (kind : JsonColumn) (rs : List CallResult), (∀ r ∈ rs, r.Columnar) →
      readJson? (list? CallResult.ofJson?) (kind.text (ofList CallResult.toJson rs)) = some rs) ∧
    (∀ (kind : JsonColumn) (s : Schedule), s.Legible → readJson? Schedule.ofJson? (kind.text s.toJson) = some s) ∧
    ∀ t : Instant, t.Legible ↔ ∃ text, Instant.ofText? text = some t := by
  refine ⟨fun j legible e => ⟨legible.payloadJob e, ?_⟩, ?_, ?_, ?_, ?_, ?_, ?_⟩
  · exact fun faithful h => (h.with_job legible faithful).decode
  · exact fun e h => h.decode
  · exact fun r h => h.decode
  · exact fun c fits => ActiveClaim.decode fits
  · exact fun kind rs h => CallResult.readJson?_column h
  · exact fun kind s h => h.readJson?_column
  · exact fun t => Instant.legible_iff

/-- A nanosecond before the end of a minute with a leap second, long before our era. -/
def ancientTime : Instant := ⟨-99999999961, 1999999999, by decide⟩

example : ancientTime.text = "-1199-02-15T14:13:60.999999999Z" := by decide +kernel

def oddPayload : Json := .obj [("", .arr [.obj [("\n\"", .null)], .int 18446744073709551615]), ("é", .bool false)]

theorem faithful_oddPayload : oddPayload.Faithful ofDecimal 123 := by
  have word : (Json.int 18446744073709551615).Faithful ofDecimal 121 :=
    ⟨⟨by decide, by decide⟩, trivial, trivial, Nat.zero_le _⟩
  have inner : (Json.obj [("\n\"", .null)]).Faithful ofDecimal 121 := by
    refine faithful_obj (by decide) ?_
    simp only [List.forall_mem_cons]
    exact ⟨faithful_null, nofun⟩
  have outer : (Json.arr [.obj [("\n\"", .null)], .int 18446744073709551615]).Faithful ofDecimal 122 := by
    refine faithful_arr ?_
    simp only [List.forall_mem_cons]
    exact ⟨inner, word, nofun⟩
  refine faithful_obj (by decide) ?_
  simp only [List.forall_mem_cons]
  exact ⟨outer, faithful_bool false, nofun⟩

def oddJob : Job where
  id := ⟨0xffffffffffffffffffffffffffffffff, by decide⟩
  environment := ""
  name := "\u0000"
  schedule := .onTime ancientTime
  functions := [⟨"", oddPayload, .null, .arr []⟩]
  executionType := .parallel
  status := .disabled
  createdAt := ancientTime
  updatedAt := .last

def oddEntry : StoredEntry := ⟨"::", ":", some (.every 18446744073709551615), oddPayload, ancientTime, some .first⟩

def oddRecord : RepeatRecord := ⟨"", .cron "", oddPayload, none⟩

/-- Times of extreme years and in a leap second, numbers that fill their words, and texts that are empty or all marks. -/
theorem odd_forms_come_back :
    oddJob.Legible ∧ oddJob.Faithful ∧ oddEntry.Legible ∧ oddRecord.Legible ∧
    Engine.payloadJob { oddEntry with payload := oddJob.toJson } = .ok oddJob ∧
    SharedQueue.decodeEntry (SharedQueue.entryText { oddEntry with payload := oddJob.toJson }) =
      .ok { oddEntry with payload := oddJob.toJson } ∧
    SharedQueue.decodeEntry (SharedQueue.entryText oddEntry) = .ok oddEntry ∧
    SharedQueue.decodeRecord (SharedQueue.recordText oddRecord) = .ok oddRecord ∧
    SharedQueue.decodeClaim (ActiveClaim.mk "" (-1)).text = .ok ⟨"", -1⟩ ∧
    readJson? (list? CallResult.ofJson?) (JsonColumn.jsonb.text
      (ofList CallResult.toJson [.completed "" (some 65535), .completed "" none, .failed ""])) =
        some [.completed "" (some 65535), .completed "" none, .failed ""] ∧
    readJson? Schedule.ofJson? (JsonColumn.jsonb.text oddJob.schedule.toJson) = some oddJob.schedule := by
  have ancient : ancientTime.Legible := ⟨by decide, by decide⟩
  have latest : Instant.last.Legible := ⟨by decide, by decide⟩
  have earliest : Instant.first.Legible := ⟨by decide, by decide⟩
  have faithful : oddJob.Faithful := by
    rintro _ (_ | ⟨_, ⟨⟩⟩)
    exact ⟨faithful_oddPayload, faithful_null, faithful_arr nofun⟩
  have job : oddJob.Legible := ⟨⟨ancient.1, ancient.2⟩, fun f mem => (faithful f mem).legible, ancient, latest⟩
  have entry : oddEntry.Legible := by
    refine ⟨?_, faithful_oddPayload.mono (by decide), ancient, ?_⟩
    · rintro _ ⟨⟩
      exact (by decide : 18446744073709551615 < 18446744073709551616)
    · rintro _ ⟨⟩
      exact earliest
  have record : oddRecord.Legible := ⟨trivial, faithful_oddPayload.mono (by decide), nofun⟩
  have codes : ∀ r ∈ [CallResult.completed "" (some 65535), .completed "" none, .failed ""], r.Columnar := by
    simp [CallResult.Columnar, CallResult.completed, CallResult.failed]
  obtain ⟨jobs, entries, records, claims, results, schedules, -⟩ := stored_forms_come_back
  exact ⟨job, faithful, entry, record, (jobs oddJob job oddEntry).1, (jobs oddJob job oddEntry).2 faithful entry,
    entries oddEntry entry, records oddRecord record, claims ⟨"", -1⟩ (by decide), results _ _ codes,
    schedules _ _ job.schedule⟩

/-! ### Forms that change -/

/-- Half a leap second behind 1970-01-01T00:00:30Z. -/
def strayTime : Instant := ⟨30, Instant.nanosInto 1500000000⟩

/-- A time of the calendar in a leap second that no minute ends with. A job that was created then comes back as created
half a second into the next second, and so does the fire of an entry. A fraction may come back as another, too. -/
theorem stray_forms_change :
    let moved : Instant := ⟨31, Instant.nanosInto 500000000⟩
    let job := { oddJob with createdAt := strayTime }
    let entry := { oddEntry with fireAt := strayTime }
    let shifting := { oddEntry with payload := shiftingPayload }
    strayTime.Representable ∧ ¬ strayTime.EndsMinute ∧ strayTime.text = "1970-01-01T00:00:31.500Z" ∧
      strayTime ≠ moved ∧
      Engine.payloadJob { oddEntry with payload := job.toJson } = .ok { job with createdAt := moved } ∧
      SharedQueue.decodeEntry (SharedQueue.entryText entry) = .ok { entry with fireAt := moved } ∧
      SharedQueue.decodeEntry (SharedQueue.entryText shifting) ≠ .ok shifting := by
  decide +kernel

end Timetable
