import Timetable.Proofs.Job.Storable
import Timetable.Store.Relational

/-!
# What columns give back

Jobs and executions are written to columns and read from them again. What is *columnar* comes back as it was: times in
whole microseconds outside of leap seconds, none before the first that a column holds, minutes that the column holds,
and values that come back of a column of some kind (`Json.Faithful`), in which all fractions are kept and which leave
room for the list and the record around them.

A columnar job is read of its row (`Job.row_job`), a columnar execution of its own (`JobExecution.row_execution`), and
a schedule fills the one column for its value that its type asks for (`Schedule.columns_single`). Changing the columns
of a job's row makes the row of the changed job (`Job.row_change`).
-/

namespace Timetable

open Json

/-! ## Times -/

/-- A time in whole microseconds, outside of leap seconds and not before the first of a column. -/
structure Instant.Columnar (t : Instant) : Prop extends t.Storable where
  whole : t.nanos % 1000 = 0
  held : columnStart ≤ t

theorem takeTimes_of_columnar {times : List (Option Instant)} (h : ∀ t, some t ∈ times → t.Columnar) :
    takeTimes times = .ok () := by
  refine if_pos (List.all_eq_true.mpr fun time mem => ?_)
  cases time with
  | none => rfl
  | some t => exact decide_eq_true (h t mem).held

namespace Instant

variable {t : Instant}

instance (t : Instant) : Decidable t.Columnar :=
  decidable_of_iff (t.Storable ∧ t.nanos % 1000 = 0 ∧ columnStart ≤ t)
    ⟨fun h => ⟨h.1, h.2.1, h.2.2⟩, fun h => ⟨h.1, h.2, h.3⟩⟩

theorem Columnar.columnTime_eq (h : t.Columnar) : columnTime t = t := by
  rw [columnTime_of_dvd h.whole, smoothed, ofNanos_nanos h.ordinary]

theorem Columnar.floorMicros_eq (h : t.Columnar) : t.floorMicros = t := by
  rw [floorMicros, Int.ediv_mul_cancel (Int.dvd_of_emod_eq_zero h.whole), ofNanos_nanos h.ordinary]

theorem map_columnTime {t : Option Instant} (h : ∀ u, t = some u → u.Columnar) : t.map columnTime = t := by
  cases t with
  | none => rfl
  | some u => rw [Option.map_some, (h u rfl).columnTime_eq]

end Instant

/-! ## Functions and results -/

/-- The payloads of a function come back of a column, in a list of functions. -/
structure FunctionSpec.Columnar (kind : JsonColumn) (f : FunctionSpec) : Prop where
  event : f.event.Faithful kind.numeral 125
  headers : f.headers.Faithful kind.numeral 125
  params : f.params.Faithful kind.numeral 125

namespace FunctionSpec

variable {kind : JsonColumn} {f : FunctionSpec} {fs : List FunctionSpec}

theorem faithful_toJson {form : Decimal → Numeral} {room : Nat} (event : f.event.Faithful form room)
    (headers : f.headers.Faithful form room) (params : f.params.Faithful form room) :
    f.toJson.Faithful form (room + 1) := by
  have sorted : ["eventPayload", "functionId", "headersPayload", "paramsPayload"].Pairwise (· < ·) := by decide
  refine faithful_obj sorted ?_
  simp only [List.forall_mem_cons]
  exact ⟨event, faithful_str _, headers, params, nofun⟩

theorem Columnar.toJson (h : f.Columnar kind) : f.toJson.Faithful kind.numeral 126 :=
  faithful_toJson h.event h.headers h.params

theorem ofJson?_toJson (event : f.event.Proper) (headers : f.headers.Proper) (params : f.params.Proper) :
    ofJson? f.toJson = some f := by
  have record : record? ["functionId", "eventPayload", "headersPayload", "paramsPayload"] f.toJson =
      some [.given (.str f.functionId), .given f.event, .given f.headers, .given f.params] := by
    simp [FunctionSpec.toJson, record?, occurrences, member?, Slot.ofMember]
  unfold FunctionSpec.ofJson?
  rw [record]
  simp only [Slot.required, Slot.orElse, string?, event.payload?, headers.payload?, params.payload?,
    Option.bind_eq_bind, Option.bind_some]

theorem Columnar.ofJson? (h : f.Columnar kind) : ofJson? f.toJson = some f :=
  ofJson?_toJson h.event.proper h.headers.proper h.params.proper

theorem readFunctions_functionsText (table : String) (h : ∀ f ∈ fs, f.Columnar kind) :
    readFunctions table (functionsText kind fs) = .ok fs := by
  have faithful : (ofList FunctionSpec.toJson fs).Faithful kind.numeral deepest :=
    faithful_ofList fun f mem => (h f mem).toJson
  rw [readFunctions, functionsText, faithful.readJson?, list?_ofList fun f mem => (h f mem).ofJson?]
  rfl

end FunctionSpec

namespace CallResult

variable {form : Decimal → Numeral} {r : CallResult} {rs : List CallResult}

/-- The code of a call fits its 16 bits. -/
def Columnar (r : CallResult) : Prop := ∀ code, r.statusCode = some code → code < 65536

theorem Columnar.toJson (h : r.Columnar) : r.toJson.Faithful form 126 := by
  obtain ⟨functionId, code, fatal⟩ := r
  cases code with
  | none =>
    have sorted : ["fatalError", "functionId"].Pairwise (· < ·) := by decide
    refine faithful_obj sorted ?_
    simp only [List.append_nil, List.forall_mem_cons]
    exact ⟨faithful_bool _, faithful_str _, nofun⟩
  | some code =>
    have sorted : ["fatalError", "functionId", "statusCode"].Pairwise (· < ·) := by decide
    refine faithful_obj sorted ?_
    simp only [List.cons_append, List.nil_append, List.forall_mem_cons]
    exact ⟨faithful_bool _, faithful_str _, faithful_ofNat ((h code rfl).trans (by decide)), nofun⟩

theorem ofJson?_of_record {j : Json} {functionId : String} {slot : Slot} {code : Option Nat} {fatal : Bool}
    (record : record? ["functionId", "statusCode", "fatalError"] j =
      some [.given (.str functionId), slot, .given (.bool fatal)])
    (read : slot.optionalOrElse nat16? = some code) : ofJson? j = some ⟨functionId, code, fatal⟩ := by
  unfold CallResult.ofJson?
  rw [record]
  simp only [Slot.required, read, string?, bool?, Option.bind_eq_bind, Option.bind_some]

theorem Columnar.ofJson? (h : r.Columnar) : ofJson? r.toJson = some r := by
  obtain ⟨functionId, code, fatal⟩ := r
  cases code with
  | none =>
    have record : record? ["functionId", "statusCode", "fatalError"] (CallResult.mk functionId none fatal).toJson =
        some [.given (.str functionId), .missing, .given (.bool fatal)] := by
      simp [CallResult.toJson, record?, occurrences, member?, Slot.ofMember]
    exact ofJson?_of_record record rfl
  | some code =>
    have record :
        record? ["functionId", "statusCode", "fatalError"] (CallResult.mk functionId (some code) fatal).toJson =
          some [.given (.str functionId), .given (.ofNat code), .given (.bool fatal)] := by
      simp [CallResult.toJson, record?, occurrences, member?, Slot.ofMember]
    refine ofJson?_of_record record ?_
    show (nat16? (.ofNat code)).map some = _
    rw [nat16?, natBelow?_ofNat (h code rfl), Option.map_some]

end CallResult

/-! ## Schedules -/

namespace ScheduleColumns

end ScheduleColumns

namespace Schedule

variable {form : Decimal → Numeral} {s : Schedule} {room : Nat}

/-- Minutes that the column holds, or a time that it gives back. -/
def Columnar : Schedule → Prop
  | interval minutes => minutes ≤ ScheduleColumns.maximumMinutes
  | periodical _ => True
  | onTime at_ => at_.Columnar

/-- What is read as it was written: minutes in 32 bits, or a time of the calendar. -/
def Legible : Schedule → Prop
  | interval minutes => minutes < 4294967296
  | periodical _ => True
  | onTime at_ => at_.Representable ∧ at_.EndsMinute

/-- The columns of a schedule. -/
def columns (s : Schedule) : ScheduleColumns :=
  let scheduleType := s.scheduleType.text
  match s with
  | interval minutes => { scheduleType, intervalMinutes := some minutes }
  | periodical expression => { scheduleType, cronExpression := some expression }
  | onTime at_ => { scheduleType, executeAt := some at_ }

theorem Columnar.ofSchedule (h : s.Columnar) : ScheduleColumns.ofSchedule s = .ok s.columns := by
  cases s with
  | interval minutes => exact if_pos h
  | periodical expression => rfl
  | onTime at_ =>
    simp only [ScheduleColumns.ofSchedule, Instant.Columnar.columnTime_eq h]
    rfl

theorem Columnar.takeTimes (h : s.Columnar) : takeTimes [s.columns.executeAt] = .ok () := by
  cases s with
  | onTime at_ =>
    refine takeTimes_of_columnar fun t mem => ?_
    obtain rfl := Option.some.inj (List.mem_singleton.mp mem)
    exact h
  | _ => rfl

theorem columns_schedule (s : Schedule) : s.columns.schedule = .ok s := by
  cases s with
  | interval minutes =>
    have column : ScheduleColumns.minutes? (some (minutes : Int)) = some minutes := by simp [ScheduleColumns.minutes?]
    simp only [ScheduleColumns.schedule, ScheduleColumns.scheduleOf, columns, scheduleType, readWord,
      ScheduleType.parse, parseWord, ScheduleType.ofText?_text, column]
    rfl
  | periodical expression => rfl
  | onTime at_ => rfl

theorem Legible.toJson (h : s.Legible) : s.toJson.Faithful form (room + 1) := by
  have sorted : ["type", "value"].Pairwise (· < ·) := by decide
  refine faithful_obj sorted ?_
  simp only [List.forall_mem_cons]
  refine ⟨faithful_str _, ?_, nofun⟩
  cases s with
  | interval minutes => exact faithful_ofNat h
  | periodical expression => exact faithful_str _
  | onTime at_ => exact faithful_str _

theorem Legible.ofJson? (h : s.Legible) : ofJson? s.toJson = some s := by
  have record : record? ["type", "value"] s.toJson = some [.given s.scheduleType.toJson, .given s.valueJson] := by
    simp [Schedule.toJson, record?, occurrences, member?, Slot.ofMember]
  have type : ScheduleType.ofJson? s.scheduleType.toJson = some s.scheduleType := ScheduleType.ofText?_text _
  have value : ofValue? s.valueJson s.scheduleType = some s := by
    cases s with
    | interval minutes =>
      have number : nat32? (.ofNat minutes) = some minutes := natBelow?_ofNat h
      show (nat32? (.ofNat minutes)).map interval = _
      rw [number]
      rfl
    | periodical expression => rfl
    | onTime at_ => exact congrArg (Option.map onTime) (Instant.ofText?_text h.1 h.2)
  unfold Schedule.ofJson?
  rw [record]
  simp only [Slot.required, type, value, Option.bind_eq_bind, Option.bind_some]

end Schedule

/-! ## Jobs -/

/-- The row of a job. -/
def Job.row (kind : JsonColumn) (j : Job) : JobRow where
  id := j.id
  environment := j.environment
  name := j.name
  schedule := j.schedule.columns
  functions := functionsText kind j.functions
  executionType := j.executionType.text
  status := j.status.text
  createdAt := j.createdAt
  updatedAt := j.updatedAt

structure Job.Columnar (kind : JsonColumn) (j : Job) : Prop where
  schedule : j.schedule.Columnar
  functions : ∀ f ∈ j.functions, f.Columnar kind

structure NewJob.Columnar (kind : JsonColumn) (j : NewJob) : Prop where
  schedule : j.schedule.Columnar
  functions : ∀ f ∈ j.functions, f.Columnar kind

structure JobChanges.Columnar (kind : JsonColumn) (c : JobChanges) : Prop where
  schedule : ∀ s, c.schedule = some s → s.Columnar
  functions : ∀ fs, c.functions = some fs → ∀ f ∈ fs, f.Columnar kind

namespace Job

variable {kind : JsonColumn} {j : Job} {c : JobChanges} {now : Instant}

theorem row_job (h : j.Columnar kind) : (j.row kind).job = .ok j := by
  simp only [JobRow.job, row, Schedule.columns_schedule, FunctionSpec.readFunctions_functionsText jobsTable h.functions,
    readExecutionType, readWord, ExecutionType.parse, JobStatus.parse, parseWord, ExecutionType.ofText?_text,
    JobStatus.ofText?_text]
  rfl

theorem row_store (j : NewJob) (id : Identifier) (now : Instant) :
    JobRow.ofNew kind id now j.schedule.columns j = (j.store id now).row kind := rfl

/-- What a statement makes of the columns of a job is the row of the job with the changes made. -/
theorem row_change (j : Job) (c : JobChanges) (now : Instant) :
    (j.row kind).change kind now c (c.schedule.map Schedule.columns) = (c.applyAt now j).row kind := by
  obtain ⟨name, schedule, functions, executionType, status⟩ := c
  simp only [JobRow.change, ScheduleColumns.change_eq, row, JobChanges.applyAt, JobChanges.applyTo]
  cases schedule <;> cases functions <;> cases executionType <;> cases status <;> rfl

end Job

theorem NewJob.Columnar.store {kind : JsonColumn} {j : NewJob} (h : j.Columnar kind) (id : Identifier) (now : Instant) :
    (j.store id now).Columnar kind :=
  ⟨h.schedule, h.functions⟩

namespace JobChanges.Columnar

variable {kind : JsonColumn} {c : JobChanges} {j : Job}

theorem applyAt (h : c.Columnar kind) (hj : j.Columnar kind) (now : Instant) : (c.applyAt now j).Columnar kind where
  schedule := by
    show (c.schedule.getD j.schedule).Columnar
    cases schedule : c.schedule with
    | none => exact hj.schedule
    | some s => exact h.schedule s schedule
  functions := by
    show ∀ f ∈ c.functions.getD j.functions, f.Columnar kind
    cases functions : c.functions with
    | none => exact hj.functions
    | some fs => exact h.functions fs functions

theorem columns (h : c.Columnar kind) :
    c.schedule.mapM ScheduleColumns.ofSchedule = .ok (c.schedule.map Schedule.columns) := by
  cases schedule : c.schedule with
  | none => rfl
  | some s => rw [Option.mapM_some, (h.schedule s schedule).ofSchedule]; rfl

theorem takeTimes (h : c.Columnar kind) :
    takeTimes [(c.schedule.map Schedule.columns).bind (·.executeAt)] = .ok () := by
  cases schedule : c.schedule with
  | none => rfl
  | some s => exact (h.schedule s schedule).takeTimes

end JobChanges.Columnar

/-! ## Executions -/

/-- The row of an execution. -/
def JobExecution.row (kind : JsonColumn) (e : JobExecution) : ExecutionRow where
  id := e.id
  jobId := e.jobId
  processedOn := e.processedOn
  finishedOn := e.finishedOn
  results := kind.text (ofList CallResult.toJson e.results)
  functions := functionsText kind e.functions
  executionType := e.executionType.text
  status := e.status.text
  schedule := kind.text e.schedule.toJson
  createdAt := e.createdAt

structure JobExecution.Columnar (kind : JsonColumn) (e : JobExecution) : Prop where
  results : ∀ r ∈ e.results, r.Columnar
  functions : ∀ f ∈ e.functions, f.Columnar kind
  schedule : e.schedule.Legible

structure NewExecution.Columnar (kind : JsonColumn) (e : NewExecution) : Prop where
  processedOn : ∀ t, e.processedOn = some t → t.Columnar
  finishedOn : ∀ t, e.finishedOn = some t → t.Columnar
  results : ∀ r ∈ e.results, r.Columnar
  functions : ∀ f ∈ e.functions, f.Columnar kind
  schedule : e.schedule.Legible

namespace JobExecution

variable {kind : JsonColumn} {e : JobExecution}

theorem row_execution (h : e.Columnar kind) : (e.row kind).execution = .ok e := by
  have results : (ofList CallResult.toJson e.results).Faithful kind.numeral deepest :=
    faithful_ofList fun r mem => (h.results r mem).toJson
  have schedule : e.schedule.toJson.Faithful kind.numeral deepest := h.schedule.toJson
  simp only [ExecutionRow.execution, row, results.readJson?, list?_ofList fun r mem => (h.results r mem).ofJson?,
    FunctionSpec.readFunctions_functionsText executionsTable h.functions, schedule.readJson?, h.schedule.ofJson?,
    readExecutionType, readWord, readColumn, ExecutionType.parse, ExecutionStatus.parse, parseWord,
    ExecutionType.ofText?_text, ExecutionStatus.ofText?_text]
  rfl

end JobExecution

namespace NewExecution.Columnar

variable {kind : JsonColumn} {e : NewExecution} {id : Identifier} {now : Instant}

theorem store (h : e.Columnar kind) : (e.store id now).Columnar kind := ⟨h.results, h.functions, h.schedule⟩

theorem takeTimes (h : e.Columnar kind) : takeTimes [e.processedOn, e.finishedOn] = .ok () := by
  refine takeTimes_of_columnar fun t mem => ?_
  rcases List.mem_cons.mp mem with begun | rest
  · exact h.processedOn t begun.symm
  · exact h.finishedOn t (List.mem_singleton.mp rest).symm

theorem row_store (h : e.Columnar kind) : ExecutionRow.ofNew kind id now e = (e.store id now).row kind := by
  simp only [ExecutionRow.ofNew, Instant.map_columnTime h.processedOn, Instant.map_columnTime h.finishedOn]
  rfl

end NewExecution.Columnar

end Timetable
