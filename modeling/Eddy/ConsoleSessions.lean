import Eddy.ConsoleWebJson
import Eddy.EventStorePause
import Eddy.FrameStream

/-!
# From the runtime to both consoles

The terminal's reader thread and its loop, the bridge's `serve_client`, and the browser's handler of
messages. Either console reads the socket in chunks of its own, and the bytes it has recorded are
read again by a replay.
-/

namespace Eddy.Console
open ConsoleWeb (jsonString)

/-- `Display` -/
def DecodeError.text : DecodeError → String
  | .frameTooLarge size => s!"event frame is too large ({size} bytes)"
  | .unknownTag tag => s!"unknown event tag {tag}"
  | .truncated => "truncated event frame"
  | .invalidUtf8 => "event contains invalid UTF-8"
  | .invalidValue value => s!"invalid {value} in event frame"
  | .trailingBytes tag remaining => s!"event tag {tag} has {remaining} trailing bytes"

/-- What `read` returns; no bytes are the end. -/
inductive ReadResult where
  | ok (bytes : List UInt8)
  | err (error : String)

def FrameDecoder.endReason (decoder : FrameDecoder) : String :=
  match decoder.finish with
  | .ok () => "runtime disconnected"
  | .error error => s!"runtime disconnected with protocol error: {error.text}"

inductive ReaderMessage where
  | events (events : List Event)
  | disconnected (reason : String)

/-- What `write_all` returns; where it fails, some of the bytes were written. -/
inductive WriteResult where
  | ok
  | err (written : ℕ) (error : String)

/-- The messages that a reader sends, and the bytes that its completed writes leave in the record
file. -/
structure Reading where
  messages : List ReaderMessage
  recorded : List UInt8
  /-- What a write that failed leaves at the end of the file. -/
  cut : List UInt8

def Reading.disconnected (reason : String) : Reading := ⟨[.disconnected reason], [], []⟩

/-- The loop of `read_stream`; the writes to the record file, if there is one, return `writes`. -/
def readLoop (decoder : FrameDecoder) (writes : Option (ℕ → WriteResult)) :
    List ReadResult → Reading
  | [] => ⟨[], [], []⟩
  | .ok [] :: _ => .disconnected decoder.endReason
  | .ok (byte :: bytes) :: reads =>
    match (writes.map (· 0) : Option WriteResult) with
    | some (.err written error) =>
      { Reading.disconnected s!"could not write record file: {error}" with
        cut := (byte :: bytes).take written }
    | some .ok | none =>
      let recorded := if writes.isSome then byte :: bytes else []
      match decoder.push (byte :: bytes) with
      | (.ok events, decoder) =>
        let rest := readLoop decoder (writes.map fun writes n => writes (n + 1)) reads
        ⟨if events.isEmpty then rest.messages else .events events :: rest.messages,
          recorded ++ rest.recorded, rest.cut⟩
      | (.error error, _) =>
        { Reading.disconnected s!"protocol error: {error.text}" with recorded := recorded }
  | .err error :: _ => .disconnected s!"socket error: {error}"

/-- The model of the terminal and why it was disconnected. -/
structure Session where
  model : ConsoleModel
  reason : Option String

def Session.new : Session := ⟨.new, none⟩

/-- The loop of `run` over the messages. -/
def Session.receive (s : Session) : ReaderMessage → Session
  | .events events => { s with model := events.foldl ConsoleModel.apply s.model }
  | .disconnected reason => { s with reason := some reason }

/-- A session that takes every message of its reader. -/
def Reading.session (reading : Reading) : Session := reading.messages.foldl Session.receive .new

/-- The session of a terminal that does not record and whose reads return this. -/
def terminal (reads : List ReadResult) : Session := (readLoop .new none reads).session

/-- `ConsoleOptions` -/
structure ConsoleOptions where
  socket : String
  record : Option String
  replay : Option String

/-- What becomes of the files and of the socket. -/
structure Disk where
  /-- What the replay file or the socket returns, or why it could not be opened. -/
  source : Except String (List ReadResult)
  /-- Why the record file could not be created. -/
  refused : Option String
  writes : ℕ → WriteResult

/-- `read_stream` -/
def readStream (disk : Disk) (record : Option String) (reads : List ReadResult) : Reading :=
  match record with
  | none => readLoop .new none reads
  | some path =>
    match disk.refused with
    | some error => .disconnected s!"could not create record file {path}: {error}"
    | none => readLoop .new (some disk.writes) reads

/-- `run`, until its reader is done -/
def run (options : ConsoleOptions) (disk : Disk) : Except String Reading :=
  if options.replay.isSome && options.record.isSome then
    .error "--record cannot be used with --replay"
  else
    match disk.source, options.replay with
    | .error error, some path => .error s!"could not open replay file {path}: {error}"
    | .error error, none => .error s!"could not connect to {options.socket}: {error}"
    | .ok reads, _ => .ok (readStream disk options.record reads)

/-- Chunks that `read` returns before the end. -/
def readsOf (chunks : List (List UInt8)) : List ReadResult := chunks.map .ok ++ [.ok []]

end Eddy.Console

namespace Eddy.ConsoleWeb
open Console

/-- `send_status` -/
def statusJson (state reason : String) : String :=
  let message := "\x7b\"type\":\"bridge_status\",\"state\":"
  let message := jsonString message state
  let message := message ++ ",\"reason\":"
  let message := jsonString message reason
  message.push '\x7d'

/-- The loop of `serve_client`: the messages that it sends. -/
def serveLoop (decoder : FrameDecoder) : List ReadResult → List String
  | [] => []
  | .ok [] :: _ => [statusJson "disconnected" decoder.endReason]
  | .ok (byte :: bytes) :: reads =>
    match decoder.push (byte :: bytes) with
    | (.ok events, decoder) => events.map eventToJson ++ serveLoop decoder reads
    | (.error error, _) => [statusJson "error" s!"protocol error: {error.text}"]
  | .err error :: _ => [statusJson "error" s!"socket error: {error}"]

/-- `serve_client`, whose connection to the runtime may have failed. -/
def serveClient (failed : Option String) (reads : List ReadResult) : List String :=
  match failed with
  | some error => [statusJson "error" s!"could not connect to runtime socket: {error}"]
  | none => serveLoop .new reads

end Eddy.ConsoleWeb

namespace Eddy.ConsoleUi

/-- A property of a parsed value: of members with one name the last counts. -/
def field (value : Json.Value) (name : String) : Option Json.Value :=
  match value with
  | .obj members => members.reverse.lookup name
  | .null | .bool _ | .num _ | .str _ | .arr _ => none

def asNumber : Json.Value → Option ℤ
  | .num value => if value.den = 1 then some (toDouble value.num) else none
  | .null | .bool _ | .str _ | .arr _ | .obj _ => none

def asString : Json.Value → Option String
  | .str value => some value
  | .null | .bool _ | .num _ | .arr _ | .obj _ => none

def asBool : Json.Value → Option Bool
  | .bool value => some value
  | .null | .num _ | .str _ | .arr _ | .obj _ => none

def asNumbers : Json.Value → Option (List ℤ)
  | .arr items => items.mapM asNumber
  | .null | .bool _ | .num _ | .str _ | .obj _ => none

def asNullable {α : Type} (as : Json.Value → Option α) : Json.Value → Option (Option α)
  | .null => some none
  | value => (as value).map some

def asLocation (value : Json.Value) : Option Location := do
  return ⟨← asString (← field value "file"), ← asNumber (← field value "line")⟩

def asWakeSource (value : Json.Value) : Option WakeSource := do
  match ← asString (← field value "kind") with
  | "io" => return .io (← asNumber (← field value "fd"))
  | "timer" => return .timer (← asNumber (← field value "id"))
  | "task" => return .task (← asNumber (← field value "id"))
  | "channel" => return .channel (← asString (← field value "channel"))
  | "external" => return .external
  | _ => none

def asPollResult (value : Json.Value) : Option PollResult := do
  match ← asString value with
  | "ready" => return .ready
  | "pending" => return .pending
  | "panicked" => return .panicked
  | _ => none

/-- The fields of a value of this type; undefined where one of them is not of its own type. -/
def asEventOf (type : String) (value : Json.Value) : Option RuntimeEvent := do
  let number name := (field value name).bind asNumber
  let string name := (field value name).bind asString
  match type with
  | "task_spawned" =>
    return .taskSpawned (← number "id") (← asNullable asString (← field value "name"))
      (← asLocation (← field value "location")) (← asNullable asNumber (← field value "parent"))
  | "task_poll_start" =>
    return .taskPollStart (← number "id") (← number "worker") (← number "at_ns")
  | "task_poll_end" =>
    return .taskPollEnd (← number "id") (← number "worker") (← number "duration_ns")
      (← asPollResult (← field value "result"))
  | "task_woken" => return .taskWoken (← number "id") (← asWakeSource (← field value "by"))
  | "task_dropped" =>
    return .taskDropped (← number "id") (← number "total_polls") (← number "total_busy_ns")
      (← number "total_idle_ns")
  | "task_aborted" => return .taskAborted (← number "id")
  | "worker_park" =>
    return .workerPark (← number "worker") (← asNullable asNumber (← field value "timeout_ns"))
  | "worker_unpark" => return .workerUnpark (← number "worker") (← string "reason")
  | "worker_steal" =>
    return .workerSteal (← number "thief") (← number "victim") (← number "count")
  | "queue_depth" =>
    return .queueDepth (← number "worker") (← number "local") (← number "global")
      (← asBool (← field value "lifo"))
  | "io_registered" =>
    return .ioRegistered (← number "fd") (← string "interest") (← number "task")
  | "io_ready" =>
    return .ioReady (← number "fd") (← string "readiness") (← asNumbers (← field value "woke"))
  | "timer_set" =>
    return .timerSet (← number "id") (← number "deadline_ns") (← number "task")
  | "timer_fired" => return .timerFired (← number "id") (← number "lateness_ns")
  | "timer_cancelled" => return .timerCancelled (← number "id")
  | "blocking_detected" =>
    return .blockingDetected (← number "task") (← number "poll_duration_ns")
      (← asLocation (← field value "location"))
  | "budget_exhausted" => return .budgetExhausted (← number "task")
  | "resource_contended" =>
    return .resourceContended (← string "kind") (← number "holder")
      (← asNumbers (← field value "waiters"))
  | _ => none

/-- A value that is cast to `RuntimeEvent`. -/
def asRuntimeEvent (value : Json.Value) : Option RuntimeEvent :=
  ((field value "type").bind asString).bind fun type => asEventOf type value

def eventTypes : List String :=
  ["task_spawned", "task_poll_start", "task_poll_end", "task_woken", "task_dropped",
    "task_aborted", "worker_park", "worker_unpark", "worker_steal", "queue_depth",
    "io_registered", "io_ready", "timer_set", "timer_fired", "timer_cancelled",
    "blocking_detected", "budget_exhausted", "resource_contended"]

/-- `parseRuntimeEvent`, which looks at the type only. -/
def parseRuntimeEvent (value : Json.Value) : Option Json.Value :=
  ((field value "type").bind asString).bind fun type =>
    if type ∈ eventTypes then some value else none

/-- What `onmessage` does to the store at the time `now`; undefined where it ingests a value whose
fields are not of their types. -/
def onmessage (raw : String) (now : ℤ) : Option (List Action) :=
  match Json.parse raw.toList with
  | none => some [.setStatus .error (some "received invalid JSON from bridge")]
  | some value =>
    if (field value "type").bind asString = some "bridge_status" then
      let state := (field value "state").bind asString
      some [.setStatus (if state = some "error" then .error else .disconnected)
        ((field value "reason").bind asString)]
    else
      match parseRuntimeEvent value with
      | some event => (asRuntimeEvent event).map fun event => [.ingest event now]
      | none => some []

/-- The store of a browser that connects and gets these messages. -/
def browser (messages : List String) (now : ℤ) : Option EventStore :=
  (messages.mapM (onmessage · now)).map fun actions =>
    EventStore.run (.setStatus .connecting none :: .setStatus .connected none :: actions.flatten)

theorem asNumber_number (n : ℤ) : asNumber (number n) = some (toDouble n) := by
  simp [asNumber, number]

theorem asNumbers_map (ids : List ℤ) :
    asNumbers (.arr (ids.map number)) = some (ids.map toDouble) := by
  induction ids with
  | nil => rfl
  | cons n ids ih =>
    simp only [asNumbers] at ih
    simp [asNumbers, asNumber_number, ih]

theorem asNullable_number (n : Option ℤ) :
    asNullable asNumber (nullable number n) = some (n.map toDouble) := by
  cases n with
  | none => rfl
  | some n => exact congrArg (Option.map some) (asNumber_number n)

theorem asNullable_string (s : Option String) : asNullable asString (nullable .str s) = some s := by
  cases s <;> rfl

theorem asLocation_members (location : Location) : asLocation (.obj location.members) =
    some { location with line := toDouble location.line } := by
  simp [asLocation, Location.members, field, List.lookup_cons, asString, asNumber_number]

theorem asPollResult_value (result : PollResult) : asPollResult result.value = some result := by
  cases result <;> rfl

theorem field_type (e : RuntimeEvent) : field (.obj e.members) "type" = some (.str e.type) := by
  cases e <;> simp [RuntimeEvent.members, field, List.lookup_cons, RuntimeEvent.type]

theorem asEventOf_members (e : RuntimeEvent) :
    asEventOf e.type (.obj e.members) = some (e.mapNumbers toDouble) := by
  cases e
  all_goals dsimp only [RuntimeEvent.type, asEventOf]
  case taskWoken id source =>
    cases source
    all_goals
      simp [RuntimeEvent.members, field, List.lookup_cons, asWakeSource, WakeSource.members,
        asString, asNumber_number, RuntimeEvent.mapNumbers]
  all_goals
    simp [RuntimeEvent.members, field, List.lookup_cons, asString, asBool, asNumber_number,
      asNumbers_map, asNullable_number, asNullable_string, asLocation_members,
      asPollResult_value, RuntimeEvent.mapNumbers]

theorem asRuntimeEvent_members (e : RuntimeEvent) :
    asRuntimeEvent (.obj e.members) = some (e.mapNumbers toDouble) := by
  rw [asRuntimeEvent, field_type]
  exact asEventOf_members e

theorem type_mem_eventTypes (e : RuntimeEvent) : e.type ∈ eventTypes := by
  cases e <;> simp [RuntimeEvent.type, eventTypes]

theorem onmessage_eventToJson (e : Console.Event) (now : ℤ) :
    onmessage (ConsoleWeb.eventToJson e) now =
      some [.ingest (RuntimeEvent.received e) now] := by
  have hparse := Json.parse_eq_some.mpr (ConsoleWeb.document_eventToJson e)
  have htype : (field (.obj (RuntimeEvent.of e).members) "type").bind asString =
      some (RuntimeEvent.of e).type := by
    rw [field_type]
    rfl
  have hne : (RuntimeEvent.of e).type ≠ "bridge_status" := by
    intro heq
    have hmem := type_mem_eventTypes (RuntimeEvent.of e)
    rw [heq] at hmem
    exact absurd hmem (by decide)
  have hevent : parseRuntimeEvent (.obj (RuntimeEvent.of e).members) =
      some (.obj (RuntimeEvent.of e).members) := by
    rw [parseRuntimeEvent, htype]
    exact if_pos (type_mem_eventTypes _)
  simp only [onmessage, hparse, htype, Option.some.injEq, hne, ↓reduceIte, hevent,
    asRuntimeEvent_members, Option.map_some]
  rfl

def statusObject (state reason : String) : Json.Rendered :=
  .object [("type", .plain "bridge_status"), ("state", ConsoleWeb.string state),
    ("reason", ConsoleWeb.string reason)]

theorem toList_statusJson (state reason : String) :
    (ConsoleWeb.statusJson state reason).toList = (statusObject state reason).text := by
  simp [ConsoleWeb.statusJson, statusObject, ConsoleWeb.toList_jsonString, Json.Rendered.object,
    Json.Rendered.members, Json.Rendered.member, Json.Rendered.plain, -String.reduceToList]
  repeat rw [String.toList_ofList]
  simp only [List.cons_append, List.nil_append]

/-- The store shows a status that the bridge sends. -/
theorem onmessage_statusJson (state reason : String) (now : ℤ) :
    onmessage (ConsoleWeb.statusJson state reason) now =
      some [.setStatus (if state = "error" then .error else .disconnected) (some reason)] := by
  have hparse : Json.parse (ConsoleWeb.statusJson state reason).toList =
      some (statusObject state reason).value := by
    rw [toList_statusJson]
    exact Json.parse_eq_some.mpr (statusObject state reason).derives.document
  simp [onmessage, hparse, statusObject, Json.Rendered.object, Json.Rendered.plain, field,
    List.lookup_cons, asString, ConsoleWeb.value_string]

end Eddy.ConsoleUi

namespace Eddy.Console

theorem push_of_wellFormed {seen chunk : List UInt8} {chunks : List (List UInt8)}
    (h : firstError (seen ++ (chunk :: chunks).flatten) = none) :
    ∃ events, FrameDecoder.push ⟨(split seen).2⟩ chunk =
        (.ok events, ⟨(split (seen ++ chunk)).2⟩) ∧
      eventsOf (seen ++ chunk) = eventsOf seen ++ events ∧
      firstError (seen ++ chunk ++ chunks.flatten) = none := by
  rw [List.flatten_cons, ← List.append_assoc] at h
  have hfirst : ∀ {before more : List UInt8}, firstError (before ++ more) = none →
      firstError before = none := by
    intro before more hwhole
    cases hbefore : firstError before with
    | none => rfl
    | some error => cases (firstError_append hbefore more).symm.trans hwhole
  have hpush := FrameDecoder.push_eq (hfirst (hfirst h)) chunk
  rw [hfirst h] at hpush
  obtain ⟨events, hresult, hevents⟩ := hpush
  exact ⟨events, hresult, hevents, h⟩

theorem eventsOf_nil : eventsOf [] = [] := by
  rw [eventsOf, split_nil]
  rfl

theorem new_eq : FrameDecoder.new = ⟨(split []).2⟩ := by
  rw [split_nil]
  rfl

/-- Why a reader stops at the end of these bytes. -/
def endReasonOf (bytes : List UInt8) : String := FrameDecoder.endReason ⟨(split bytes).2⟩

theorem model_readLoop {seen : List UInt8} {reads : List ReadResult} {writes : ℕ → WriteResult}
    (h : firstError (seen ++ (readLoop ⟨(split seen).2⟩ (some writes) reads).recorded) = none)
    (s : Session) :
    ∃ events, eventsOf (seen ++ (readLoop ⟨(split seen).2⟩ (some writes) reads).recorded) =
        eventsOf seen ++ events ∧
      ((readLoop ⟨(split seen).2⟩ (some writes) reads).messages.foldl Session.receive s).model =
        events.foldl ConsoleModel.apply s.model := by
  induction reads generalizing seen writes s with
  | nil => exact ⟨[], by simp [readLoop], rfl⟩
  | cons result reads ih =>
    rcases result with (_ | ⟨byte, bytes⟩) | error
    · exact ⟨[], by simp [readLoop, Reading.disconnected], rfl⟩
    · cases hwrite : writes 0 with
      | err written error =>
        rw [readLoop, Option.map_some, hwrite]
        exact ⟨[], by simp [Reading.disconnected], rfl⟩
      | ok =>
        cases hpush : FrameDecoder.push ⟨(split seen).2⟩ (byte :: bytes) with
        | mk result decoder =>
          rw [readLoop, Option.map_some, hwrite, hpush] at h ⊢
          simp only [Option.isSome_some, if_true, Option.map_some] at h ⊢
          cases result with
          | error error =>
            have hgood : firstError (seen ++ [byte :: bytes].flatten) = none := by
              simpa using h
            obtain ⟨events, hresult, -⟩ := push_of_wellFormed hgood
            cases hresult.symm.trans hpush
          | ok events =>
            simp only at h ⊢
            have hgood : firstError (seen ++ [byte :: bytes, (readLoop decoder
                (some fun n => writes (n + 1)) reads).recorded].flatten) = none := by
              simpa using h
            obtain ⟨events', hresult, hevents, -⟩ := push_of_wellFormed hgood
            obtain ⟨heq, rfl⟩ := Prod.mk.inj (hresult.symm.trans hpush)
            obtain rfl := Except.ok.inj heq
            rw [← List.append_assoc] at h ⊢
            obtain ⟨more, hmore, hmodel⟩ :=
              ih h { s with model := events'.foldl ConsoleModel.apply s.model }
            refine ⟨events' ++ more, ?_, ?_⟩
            · rw [hmore, hevents, List.append_assoc]
            · rw [List.foldl_append, ← hmodel]
              cases events' <;> rfl
    · exact ⟨[], by simp [readLoop, Reading.disconnected], rfl⟩

/-- Only a write that fails leaves a part of its bytes. -/
theorem cut_readLoop {writes : ℕ → WriteResult} (hwrites : ∀ n, writes n = .ok)
    (decoder : FrameDecoder) (reads : List ReadResult) :
    (readLoop decoder (some writes) reads).cut = [] := by
  induction reads generalizing decoder writes with
  | nil => rfl
  | cons result reads ih =>
    rcases result with (_ | ⟨byte, bytes⟩) | error
    · rfl
    · rw [readLoop, Option.map_some, hwrites 0]
      cases hpush : decoder.push (byte :: bytes) with
      | mk result decoder =>
        cases result with
        | error error => rfl
        | ok events => exact ih (fun n => hwrites (n + 1)) decoder
    · rfl

theorem recorded_readLoop_none (decoder : FrameDecoder) (reads : List ReadResult) :
    (readLoop decoder none reads).recorded = [] := by
  induction reads generalizing decoder with
  | nil => rfl
  | cons result reads ih =>
    rcases result with (_ | ⟨byte, bytes⟩) | error
    · rfl
    · rw [readLoop, Option.map_none]
      cases decoder.push (byte :: bytes) with
      | mk result decoder =>
        cases result with
        | error error => rfl
        | ok events => exact ih decoder
    · rfl

theorem session_readsOf {seen : List UInt8} {chunks : List (List UInt8)}
    (hchunks : ∀ chunk ∈ chunks, chunk ≠ []) (h : firstError (seen ++ chunks.flatten) = none)
    (s : Session) :
    ∃ events, eventsOf (seen ++ chunks.flatten) = eventsOf seen ++ events ∧
      (readLoop ⟨(split seen).2⟩ none (readsOf chunks)).messages.foldl Session.receive s =
        ⟨events.foldl ConsoleModel.apply s.model, some (endReasonOf (seen ++ chunks.flatten))⟩ := by
  induction chunks generalizing seen s with
  | nil =>
    exact ⟨[], by simp, by simp [readsOf, readLoop, Reading.disconnected, endReasonOf,
      Session.receive]⟩
  | cons chunk chunks ih =>
    obtain ⟨hchunk, hlater⟩ := List.forall_mem_cons.mp hchunks
    obtain ⟨byte, bytes, rfl⟩ := List.exists_cons_of_ne_nil hchunk
    obtain ⟨events, hpush, hevents, hrest⟩ := push_of_wellFormed h
    obtain ⟨more, hmore, hsession⟩ :=
      ih hlater hrest { s with model := events.foldl ConsoleModel.apply s.model }
    rw [List.flatten_cons, ← List.append_assoc]
    refine ⟨events ++ more, ?_, ?_⟩
    · rw [hmore, hevents, List.append_assoc]
    · rw [List.foldl_append, ← hsession, readsOf, List.map_cons, List.cons_append, readLoop,
        Option.map_none, hpush, ← readsOf]
      cases events <;> rfl

theorem stream_of_frames {events : List Event}
    (hlen : ∀ e ∈ events, e.payload.length ≤ maxFrameSize) :
    ¬ Malformed (events.map fun e => frame e.payload).flatten ∧
      eventsOf (events.map fun e => frame e.payload).flatten = events ∧
      endReasonOf (events.map fun e => frame e.payload).flatten = "runtime disconnected" := by
  have hsplit : split (events.map fun e => frame e.payload).flatten =
      (events.map Event.payload, []) := by
    rw [← split_frames (by simpa using hlen), List.map_map]
    rfl
  have hall : decodeAll (events.map Event.payload) = (events, none) :=
    decodeAll_payloads fun e he => Nat.lt_of_le_of_lt (hlen e he) (by decide)
  refine ⟨?_, ?_, ?_⟩
  · rw [← firstError_eq_none, firstError, hsplit, hall]
    rfl
  · rw [eventsOf, hsplit, hall]
  · rw [endReasonOf, hsplit]
    rfl

/-- A session that records has read to its end, unless it could not create its file. -/
theorem recording_of_run {options : ConsoleOptions} {path : String} {disk : Disk}
    {reading : Reading} (hrecord : options.record = some path)
    (hrun : run options disk = .ok reading) :
    (∃ reads, reading = readLoop .new (some disk.writes) reads) ∨
      ∃ reason, reading = .disconnected reason := by
  unfold run at hrun
  split_ifs at hrun
  split at hrun
  · cases hrun
  · cases hrun
  · rw [hrecord, readStream] at hrun
    split at hrun
    · exact .inr ⟨_, (Except.ok.inj hrun).symm⟩
    · exact .inl ⟨_, (Except.ok.inj hrun).symm⟩

/-- The recording of a session shows what the session showed, however it is read again, and however
the session came to its end. Only a write that fails leaves more in the file than its completed
writes. -/
theorem replay_shows_recording {options : ConsoleOptions} {path : String} {disk disk' : Disk}
    {reading : Reading} {chunks : List (List UInt8)} (hrecord : options.record = some path)
    (hrun : run options disk = .ok reading) (hgood : ¬ Malformed reading.recorded)
    (hchunks : ∀ chunk ∈ chunks, chunk ≠ []) (hrecorded : chunks.flatten = reading.recorded)
    (hsource : disk'.source = .ok (readsOf chunks)) :
    ((∀ n, disk.writes n = .ok) → reading.cut = []) ∧
      ∃ replayed, run { options with record := none, replay := some path } disk' = .ok replayed ∧
        replayed.session.model = reading.session.model ∧ replayed.recorded = [] ∧
        replayed.session.reason = some (endReasonOf reading.recorded) := by
  have hreplay : run { options with record := none, replay := some path } disk' =
      .ok (readLoop .new none (readsOf chunks)) := by
    simp [run, hsource, readStream]
  have hfirst : firstError ([] ++ reading.recorded) = none := firstError_eq_none.mpr hgood
  obtain ⟨events, hevents, hsession⟩ := session_readsOf hchunks (hrecorded ▸ hfirst) .new
  rw [← new_eq, hrecorded, List.nil_append] at hsession
  rw [hrecorded, eventsOf_nil, List.nil_append, List.nil_append] at hevents
  have hmodel : reading.session.model = events.foldl ConsoleModel.apply .new := by
    rw [← hevents]
    obtain ⟨reads, rfl⟩ | ⟨reason, rfl⟩ := recording_of_run hrecord hrun
    · rw [new_eq] at hfirst ⊢
      obtain ⟨applied, happlied, hmodel⟩ := model_readLoop hfirst .new
      rw [eventsOf_nil, List.nil_append, List.nil_append] at happlied
      rw [happlied]
      exact hmodel
    · exact (congrArg (List.foldl _ _) eventsOf_nil).symm
  refine ⟨fun hwrites => ?_, _, hreplay, ?_, recorded_readLoop_none _ _, ?_⟩
  · obtain ⟨reads, rfl⟩ | ⟨reason, rfl⟩ := recording_of_run hrecord hrun
    · exact cut_readLoop hwrites .new reads
    · rfl
  · rw [hmodel, Reading.session, hsession]
    rfl
  · rw [Reading.session, hsession]

/-- The third write of a session stops after four bytes, and the second read has brought the rest of a
frame. -/
theorem replay_shows_recording_failed :
    let events := [Event.taskWoken 7 (.io 3), .workerSteal 1 0 3]
    let bytes := (events.map fun e => frame e.payload).flatten
    let options : ConsoleOptions := ⟨"socket", some "session", none⟩
    let disk : Disk := ⟨.ok [.ok (bytes.take 9), .ok (bytes.drop 9),
      .ok (frame (Event.taskAborted 7).payload)], none,
      fun n => if n < 2 then .ok else .err 4 "no space left"⟩
    let disk' : Disk := ⟨.ok (readsOf [bytes.take 30, bytes.drop 30]), none, fun _ => .ok⟩
    ∃ reading, run options disk = .ok reading ∧
      reading.cut = (frame (Event.taskAborted 7).payload).take 4 ∧
      ∃ replayed, run ⟨"socket", none, some "session"⟩ disk' = .ok replayed ∧
        replayed.session.model = reading.session.model ∧ replayed.recorded = [] ∧
        replayed.session.reason = some (endReasonOf reading.recorded) := by
  intro events bytes options disk disk'
  obtain ⟨reading, hrun⟩ : ∃ reading, run options disk = .ok reading := ⟨_, rfl⟩
  have hread := Except.ok.inj hrun
  have hrecorded : reading.recorded = bytes := by
    rw [← hread]
    decide +kernel
  refine ⟨reading, hrun, ?_, ?_⟩
  · rw [← hread]
    decide +kernel
  · refine (@replay_shows_recording options "session" disk disk' reading _ rfl hrun ?_ ?_ ?_ rfl).2
    · rw [hrecorded]
      exact (stream_of_frames (by decide)).1
    · decide
    · rw [hrecorded]
      decide

end Eddy.Console

namespace Eddy.ConsoleWeb
open Console

theorem serveLoop_eq {seen : List UInt8} {chunks : List (List UInt8)}
    (hchunks : ∀ chunk ∈ chunks, chunk ≠ []) (h : firstError (seen ++ chunks.flatten) = none) :
    ∃ events, eventsOf (seen ++ chunks.flatten) = eventsOf seen ++ events ∧
      serveLoop ⟨(split seen).2⟩ (readsOf chunks) = events.map eventToJson ++
        [statusJson "disconnected" (endReasonOf (seen ++ chunks.flatten))] := by
  induction chunks generalizing seen with
  | nil => exact ⟨[], by simp, by simp [readsOf, serveLoop, endReasonOf]⟩
  | cons chunk chunks ih =>
    obtain ⟨hchunk, hlater⟩ := List.forall_mem_cons.mp hchunks
    obtain ⟨byte, bytes, rfl⟩ := List.exists_cons_of_ne_nil hchunk
    obtain ⟨events, hpush, hevents, hrest⟩ := push_of_wellFormed h
    obtain ⟨more, hmore, hserve⟩ := ih hlater hrest
    rw [List.flatten_cons, ← List.append_assoc]
    refine ⟨events ++ more, ?_, ?_⟩
    · rw [hmore, hevents, List.append_assoc]
    · rw [readsOf, List.map_cons, List.cons_append, serveLoop, hpush, ← readsOf]
      simp [hserve]

end Eddy.ConsoleWeb

namespace Eddy.ConsoleUi
open KeyedMaps
open Console (readsOf terminal eventsOf firstError endReasonOf)
open ConsoleWeb (eventToJson serveClient statusJson)

theorem foldl_ingest {s : EventStore} {events : List RuntimeEvent} (now : ℤ)
    (hstart : s.toProjection = initialProjection) (hlive : s.paused = false)
    (hlength : events.length < exactBound) :
    ((events.map (Action.ingest · now)).foldl EventStore.act s).toProjection =
        projectEvents events ∧
      ((events.map (Action.ingest · now)).foldl EventStore.act s).paused = false := by
  induction events using List.reverseRecOn with
  | nil => exact ⟨hstart, hlive⟩
  | append_singleton events event ih =>
    rw [List.length_append, List.length_singleton] at hlength
    obtain ⟨hprojection, hpaused⟩ := ih (by omega)
    rw [List.map_append, List.foldl_append, List.map_singleton, List.foldl_cons, List.foldl_nil,
      EventStore.act, EventStore.ingest, if_neg (by simp [hpaused])]
    refine ⟨?_, hpaused⟩
    have hsequence : add (projectEvents events).sequence 1 = events.length + 1 := by
      rw [add, sequence_projectEvents]
      apply toDouble_eq_self
      omega
    rw [projectEvents_append, ← hsequence, ← hprojection]

theorem mapM_onmessage (events : List Console.Event) (state reason : String) (now : ℤ) :
    (events.map eventToJson ++ [statusJson state reason]).mapM (onmessage · now) =
      some (events.map (fun e => [Action.ingest (RuntimeEvent.received e) now]) ++
        [[.setStatus (if state = "error" then .error else .disconnected) (some reason)]]) := by
  induction events with
  | nil => simp [onmessage_statusJson]
  | cons e events ih =>
    rw [List.map_cons, List.cons_append, List.mapM_cons, onmessage_eventToJson, ih]
    rfl

theorem flatten_ingests (events : List Console.Event) (now : ℤ) :
    (events.map fun e => [Action.ingest (RuntimeEvent.received e) now]).flatten =
      (events.map RuntimeEvent.received).map (Action.ingest · now) := by
  induction events with
  | nil => rfl
  | cons e events ih => simp [ih]

theorem browser_messages {events : List Console.Event} (reason : String) (now : ℤ)
    (hlength : events.length < exactBound) :
    ∃ store, browser (events.map eventToJson ++ [statusJson "disconnected" reason]) now =
        some store ∧ store.toProjection = projectEvents (events.map RuntimeEvent.received) ∧
      store.status = .disconnected ∧ store.error = some reason := by
  let connected := EventStore.run [.setStatus .connecting none, .setStatus .connected none]
  obtain ⟨hprojection, -⟩ := foldl_ingest (s := connected) now rfl rfl
    (show (events.map RuntimeEvent.received).length < exactBound by simpa using hlength)
  rw [browser, mapM_onmessage, Option.map_some, List.flatten_append, flatten_ingests]
  refine ⟨_, rfl, ?_, ?_, ?_⟩
  all_goals
    rw [EventStore.run, List.foldl_cons, List.foldl_cons, List.foldl_append]
  · exact hprojection
  · rfl
  · rfl

/-- Two consoles that read these bytes to the end, in chunks of their own, have applied these
events, once each and in this order, and say this about the end. -/
def BothShow (bytes : List UInt8) (events : List Console.Event) (reason : String) : Prop :=
  ∀ chunks chunks' : List (List UInt8), (∀ chunk ∈ chunks, chunk ≠ []) →
    (∀ chunk ∈ chunks', chunk ≠ []) → chunks.flatten = bytes → chunks'.flatten = bytes → ∀ now,
      (terminal (readsOf chunks)).model = events.foldl Console.ConsoleModel.apply .new ∧
        (terminal (readsOf chunks)).reason = some reason ∧
        ∃ store, browser (serveClient none (readsOf chunks')) now = some store ∧
          store.toProjection = projectEvents (events.map RuntimeEvent.received) ∧
          store.status = .disconnected ∧ store.error = some reason

theorem bothShow_of_stream {bytes : List UInt8} (hgood : ¬ Console.Malformed bytes)
    (hlength : (eventsOf bytes).length < exactBound) :
    BothShow bytes (eventsOf bytes) (endReasonOf bytes) := by
  intro chunks chunks' hchunks hchunks' hflat hflat' now
  have hfirst : firstError ([] ++ chunks.flatten) = none := by
    rw [hflat]
    exact Console.firstError_eq_none.mpr hgood
  have hfirst' : firstError ([] ++ chunks'.flatten) = none := by
    rw [hflat']
    exact Console.firstError_eq_none.mpr hgood
  obtain ⟨events, hevents, hsession⟩ := Console.session_readsOf hchunks hfirst .new
  rw [hflat, Console.eventsOf_nil, List.nil_append, List.nil_append] at hevents
  rw [hflat, List.nil_append] at hsession
  obtain ⟨events', hevents', hserve⟩ := ConsoleWeb.serveLoop_eq hchunks' hfirst'
  rw [hflat', Console.eventsOf_nil, List.nil_append, List.nil_append] at hevents'
  rw [hflat', List.nil_append] at hserve
  subst hevents hevents'
  rw [terminal, Console.Reading.session, serveClient, Console.new_eq, hsession, hserve]
  exact ⟨rfl, rfl, browser_messages _ now hlength⟩

/-- Two consoles read one stream to its end, in chunks of their own, and the terminal is never paused.
They hold the same workers, the browser holds every task of the terminal and perhaps others that are
as it created them, and both say the same about the end. -/
theorem consoles_agree {bytes : List UInt8} {chunks chunks' : List (List UInt8)}
    (hgood : ¬ Console.Malformed bytes) (hlength : (eventsOf bytes).length < exactBound)
    (hnumbers : ∀ e ∈ eventsOf bytes, ∀ n ∈ (RuntimeEvent.of e).numbers, n < exactBound)
    (hexact : ∀ before, before <+: eventsOf bytes →
      ModelTotalsExact (before.foldl Console.ConsoleModel.apply .new))
    (hchunks : ∀ chunk ∈ chunks, chunk ≠ []) (hchunks' : ∀ chunk ∈ chunks', chunk ≠ [])
    (hflat : chunks.flatten = bytes) (hflat' : chunks'.flatten = bytes) (now : ℤ) :
    ∃ store, browser (serveClient none (readsOf chunks')) now = some store ∧
      Covers workerKey WorkerAgrees (fun _ _ => False) (terminal (readsOf chunks)).model.workers
        store.workers ∧
      Covers taskKey TaskAgrees Fresh (terminal (readsOf chunks)).model.tasks store.tasks ∧
      store.status = .disconnected ∧ store.error = (terminal (readsOf chunks)).reason := by
  obtain ⟨hmodel, hreason, store, hstore, hprojection, hstatus, herror⟩ :=
    bothShow_of_stream hgood hlength chunks chunks' hchunks hchunks' hflat hflat' now
  have h := simulates_fold hnumbers hexact
  rw [← hmodel, ← hprojection] at h
  exact ⟨store, hstore, h.workers.mono WorkerTracks.agrees, h.tasks.mono TaskTracks.agrees, hstatus,
    herror.trans hreason.symm⟩

/-- Either console gets one of the frames in two parts. -/
theorem consoles_agree_parts :
    let events := [Console.Event.taskSpawned 7 (some "accept") ⟨"main.rs", 12⟩ none,
      .ioRegistered 3 "readable" 9, .taskPollEnd 7 1 100 .pending]
    let bytes := (events.map fun e => Console.frame e.payload).flatten
    let chunks := [bytes.take 9, bytes.drop 9]
    let chunks' := [bytes.take 70, bytes.drop 70]
    ∃ store, browser (serveClient none (readsOf chunks')) 0 = some store ∧
      Covers workerKey WorkerAgrees (fun _ _ => False) (terminal (readsOf chunks)).model.workers
        store.workers ∧
      Covers taskKey TaskAgrees Fresh (terminal (readsOf chunks)).model.tasks store.tasks ∧
      store.status = .disconnected ∧ store.error = (terminal (readsOf chunks)).reason := by
  intro events bytes chunks chunks'
  obtain ⟨hgood, hevents, -⟩ := @Console.stream_of_frames events (by decide)
  apply @consoles_agree bytes _ _ hgood
  · rw [hevents]
    decide
  · rw [hevents]
    decide
  · intro before hbefore
    rw [hevents] at hbefore
    have hexact : ∀ before ∈ events.inits,
        ModelTotalsExact (before.foldl Console.ConsoleModel.apply .new) := by decide
    exact hexact before ((List.mem_inits _ _).mpr hbefore)
  · decide
  · decide
  · decide
  · decide

/-- Every event that the runtime emits reaches both consoles once, in its order, and the end of the
stream is no error. -/
theorem events_reach_consoles (origin : Option ℤ) (emitted : List Instrument.RuntimeEvent)
    (hlen : ∀ event ∈ emitted,
      (Console.Event.of origin event).payload.length ≤ Console.maxFrameSize)
    (hlength : emitted.length < exactBound) :
    ∃ frames, emitted.mapM (Instrument.encodeFrame origin) = some frames ∧
      BothShow frames.flatten (emitted.map (Console.Event.of origin)) "runtime disconnected" := by
  have hlt : ∀ event ∈ emitted, (Console.Event.of origin event).payload.length < 2 ^ 32 :=
    fun event h => Nat.lt_of_le_of_lt (hlen event h) (by decide)
  have hencode : ∀ event ∈ emitted, Instrument.encodeFrame origin event =
      some (Console.frame (Console.Event.of origin event).payload) := fun event h =>
    Console.encodeFrame_eq origin event (Console.fits_of_payload_length (hlt event h)) (hlt event h)
  have hframes : (emitted.map fun event =>
      Console.frame (Console.Event.of origin event).payload).flatten =
      ((emitted.map (Console.Event.of origin)).map fun e => Console.frame e.payload).flatten := by
    rw [List.map_map]
    rfl
  have hpayloads : ∀ e ∈ emitted.map (Console.Event.of origin),
      e.payload.length ≤ Console.maxFrameSize := by simpa using hlen
  obtain ⟨hgood, hevents, hreason⟩ := Console.stream_of_frames hpayloads
  refine ⟨_, Console.mapM_eq_map hencode, ?_⟩
  rw [hframes]
  have hshow := bothShow_of_stream hgood (by rw [hevents]; simpa using hlength)
  rw [hevents, hreason] at hshow
  exact hshow

theorem events_reach_consoles_steal :
    let emitted := [.workerSteal 1 0 3, .workerPark 0 (some 5), .taskAborted ⟨7⟩]
    ∃ frames, emitted.mapM (Instrument.encodeFrame none) = some frames ∧
      BothShow frames.flatten [.workerSteal 1 0 3, .workerPark 0 (some 5), .taskAborted 7]
        "runtime disconnected" := by
  intro emitted
  exact events_reach_consoles none emitted (by decide) (by decide)

end Eddy.ConsoleUi
