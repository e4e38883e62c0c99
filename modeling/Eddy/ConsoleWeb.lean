import Eddy.ConsoleEvents

/-!
# The browser bridge

`event_to_json` of `eddy-console-web` and the functions it writes with. Each takes the text
written so far, as the source's `&mut String`.
-/

namespace Eddy.ConsoleWeb
open Console

/-- `char::is_control`. -/
def isControl (c : Char) : Bool := c.toNat < 0x20 || 0x7f ≤ c.toNat && c.toNat < 0xa0

/-- The format `{:04x}`. -/
def lowerHex4 (n : ℕ) : String := .ofList ((Nat.toDigits 16 n).leftpad 4 '0')

def jsonChar (output : String) : Char → String
  | '"' => output ++ "\\\""
  | '\\' => output ++ "\\\\"
  | '\n' => output ++ "\\n"
  | '\r' => output ++ "\\r"
  | '\t' => output ++ "\\t"
  | character =>
    if isControl character then output ++ s!"\\u{lowerHex4 character.toNat}"
    else output.push character

def jsonString (output value : String) : String :=
  value.toList.foldl jsonChar (output.push '"') |>.push '"'

def optionalString (output : String) : Option String → String
  | some value => jsonString output value
  | none => output ++ "null"

def optionalU64 (output : String) : Option UInt64 → String
  | some value => output ++ s!"{value}"
  | none => output ++ "null"

def locationJson (output file : String) (line : UInt32) : String :=
  let output := output ++ "\x7b\"file\":"
  let output := jsonString output file
  output ++ s!",\"line\":{line}\x7d"

/-- The loop over `iter().enumerate()`. -/
def idsJson (output : String) (ids : List UInt64) : String :=
  ids.zipIdx.foldl (fun output (id, index) =>
    let output := if index > 0 then output.push ',' else output
    output ++ s!"{id}") output

def wakeSourceJson (output : String) : WakeSource → String
  | .io fd => output ++ s!"\x7b\"kind\":\"io\",\"fd\":{fd}\x7d"
  | .timer id => output ++ s!"\x7b\"kind\":\"timer\",\"id\":{id}\x7d"
  | .task id => output ++ s!"\x7b\"kind\":\"task\",\"id\":{id}\x7d"
  | .channel kind =>
    let output := output ++ "\x7b\"kind\":\"channel\",\"channel\":"
    let output := jsonString output kind
    output.push '\x7d'
  | .external => output ++ "\x7b\"kind\":\"external\"\x7d"

def unparkReasonName : UnparkReason → String
  | .task => "task"
  | .shutdown => "shutdown"
  | .steal => "steal"
  | .event => "event"

def pollResultName : PollResult → String
  | .ready => "ready"
  | .pending => "pending"
  | .panicked => "panicked"

def eventToJson : Event → String
  | .taskSpawned id name location parent =>
    let output := s!"\x7b\"type\":\"task_spawned\",\"id\":{id},\"name\":"
    let output := optionalString output name
    let output := output ++ ",\"location\":"
    let output := locationJson output location.file location.line
    let output := output ++ ",\"parent\":"
    let output := optionalU64 output parent
    output.push '\x7d'
  | .taskPollStart id worker atNs =>
    s!"\x7b\"type\":\"task_poll_start\",\"id\":{id},\"worker\":{worker},\"at_ns\":{atNs}\x7d"
  | .taskPollEnd id worker durationNs result =>
    s!"\x7b\"type\":\"task_poll_end\",\"id\":{id},\"worker\":{worker},\"duration_ns\":{durationNs},\"result\":\"{pollResultName result}\"\x7d"
  | .taskWoken id source =>
    let output := s!"\x7b\"type\":\"task_woken\",\"id\":{id},\"by\":"
    let output := wakeSourceJson output source
    output.push '\x7d'
  | .taskDropped id totalPolls totalBusyNs totalIdleNs =>
    s!"\x7b\"type\":\"task_dropped\",\"id\":{id},\"total_polls\":{totalPolls},\"total_busy_ns\":{totalBusyNs},\"total_idle_ns\":{totalIdleNs}\x7d"
  | .taskAborted id => s!"\x7b\"type\":\"task_aborted\",\"id\":{id}\x7d"
  | .workerPark worker timeoutNs =>
    let output := s!"\x7b\"type\":\"worker_park\",\"worker\":{worker},\"timeout_ns\":"
    let output := optionalU64 output timeoutNs
    output.push '\x7d'
  | .workerUnpark worker reason =>
    let output := s!"\x7b\"type\":\"worker_unpark\",\"worker\":{worker},\"reason\":"
    let output := jsonString output (unparkReasonName reason)
    output.push '\x7d'
  | .workerSteal thief victim count =>
    s!"\x7b\"type\":\"worker_steal\",\"thief\":{thief},\"victim\":{victim},\"count\":{count}\x7d"
  | .queueDepth worker localDepth globalDepth lifo =>
    s!"\x7b\"type\":\"queue_depth\",\"worker\":{worker},\"local\":{localDepth},\"global\":{globalDepth},\"lifo\":{lifo}\x7d"
  | .ioRegistered fd interest task =>
    let output := s!"\x7b\"type\":\"io_registered\",\"fd\":{fd},\"interest\":"
    let output := jsonString output interest
    output ++ s!",\"task\":{task}\x7d"
  | .ioReady fd readiness woke =>
    let output := s!"\x7b\"type\":\"io_ready\",\"fd\":{fd},\"readiness\":"
    let output := jsonString output readiness
    let output := output ++ ",\"woke\":["
    let output := idsJson output woke
    output ++ "]\x7d"
  | .timerSet id deadlineNs task =>
    s!"\x7b\"type\":\"timer_set\",\"id\":{id},\"deadline_ns\":{deadlineNs},\"task\":{task}\x7d"
  | .timerFired id latenessNs =>
    s!"\x7b\"type\":\"timer_fired\",\"id\":{id},\"lateness_ns\":{latenessNs}\x7d"
  | .timerCancelled id => s!"\x7b\"type\":\"timer_cancelled\",\"id\":{id}\x7d"
  | .blockingDetected task pollDurationNs location =>
    let output := s!"\x7b\"type\":\"blocking_detected\",\"task\":{task},\"poll_duration_ns\":{pollDurationNs},\"location\":"
    let output := locationJson output location.file location.line
    output.push '\x7d'
  | .budgetExhausted task => s!"\x7b\"type\":\"budget_exhausted\",\"task\":{task}\x7d"
  | .resourceContended kind holder waiters =>
    let output := "\x7b\"type\":\"resource_contended\",\"kind\":"
    let output := jsonString output kind
    let output := output ++ s!",\"holder\":{holder},\"waiters\":["
    let output := idsJson output waiters
    output ++ "]\x7d"

end Eddy.ConsoleWeb
