import Eddy.BrowserEvents
import Eddy.ConsoleWeb
import Eddy.JsonParser

/-!
# The bridge writes JSON

Each writer appends a text of the value it is given, so the browser's parser gets back the object
of the browser event with the fields of the console's.
-/

namespace Eddy.ConsoleWeb
open Console ConsoleUi

theorem toString_string (s : String) : toString s = s := rfl

def escaped (c : Char) : List Char := (jsonChar "" c).toList

theorem toList_jsonChar (output : String) (c : Char) :
    (jsonChar output c).toList = output.toList ++ escaped c := by
  unfold escaped jsonChar
  split
  case h_6 => split <;> simp
  all_goals simp

theorem hexDigit?_digitChar {d : ℕ} (hd : d < 16) : Json.hexDigit? d.digitChar = some d := by
  interval_cases d <;> rfl

theorem toList_lowerHex4 {n : ℕ} (hn : n < 0x100) :
    (lowerHex4 n).toList = ['0', '0', (n / 16).digitChar, (n % 16).digitChar] := by
  rw [lowerHex4, String.toList_ofList]
  by_cases hlt : n < 16
  · rw [Nat.toDigits_of_lt_base hlt, Nat.div_eq_of_lt hlt, Nat.mod_eq_of_lt hlt]
    rfl
  · rw [Nat.toDigits_of_base_le (by decide) (by omega), Nat.toDigits_of_lt_base (by omega)]
    rfl

theorem hex4?_lowerHex4 {n : ℕ} (hn : n < 0x100) :
    Json.hex4? '0' '0' (n / 16).digitChar (n % 16).digitChar = some n := by
  have hzero : Json.hexDigit? '0' = some 0 := rfl
  simp only [Json.hex4?, hzero, hexDigit?_digitChar (show n / 16 < 16 by omega),
    hexDigit?_digitChar (show n % 16 < 16 by omega), Option.pure_def, Option.bind_eq_bind,
    Option.bind_some, Option.some.injEq]
  omega

theorem character_escaped (c : Char) : Json.Character (escaped c) c := by
  unfold escaped jsonChar
  split
  case h_6 hquote hbackslash _ _ _ =>
    split
    case isTrue hcontrol =>
      have hlt : c.toNat < 0xa0 := by
        simp only [isControl, Bool.or_eq_true, Bool.and_eq_true, decide_eq_true_eq] at hcontrol
        omega
      have hhigh : Json.isHighSurrogate c.toNat = false := by
        simp [Json.isHighSurrogate]
        omega
      have hlow : Json.isLowSurrogate c.toNat = false := by
        simp [Json.isLowSurrogate]
        omega
      have h := Json.Character.unicode (hex4?_lowerHex4 (n := c.toNat) (by omega)) hhigh hlow
      rw [Char.ofNat_toNat] at h
      simpa [toString_string, toList_lowerHex4 (show c.toNat < 0x100 by omega)] using h
    case isFalse hcontrol =>
      have hplain : Json.isUnescaped c := by
        simp only [isControl, Bool.or_eq_true, Bool.and_eq_true, decide_eq_true_eq, not_or] at hcontrol
        simp only [Json.isUnescaped, Bool.and_eq_true, decide_eq_true_eq, bne_iff_ne]
        exact ⟨⟨by omega, hquote⟩, hbackslash⟩
      simpa using Json.Character.unescaped hplain
  all_goals
    simp only [String.empty_append]
    exact .escaped rfl

theorem toList_foldl_jsonChar (output : String) (chars : List Char) :
    (chars.foldl jsonChar output).toList = output.toList ++ chars.flatMap escaped := by
  induction chars generalizing output with
  | nil => simp
  | cons c chars ih =>
    rw [List.foldl_cons, ih, toList_jsonChar, List.flatMap_cons, List.append_assoc]

theorem chars_escaped (chars : List Char) : Json.Chars (chars.flatMap escaped) chars := by
  induction chars with
  | nil => exact .nil
  | cons c chars ih =>
    rw [List.flatMap_cons]
    exact .cons (character_escaped c) ih

def string (value : String) : Json.Rendered where
  value := .str value
  text := '"' :: (value.toList.flatMap escaped ++ ['"'])
  derives := .str ⟨_, rfl, chars_escaped value.toList⟩

theorem toList_jsonString (output value : String) :
    (jsonString output value).toList = output.toList ++ (string value).text := by
  simp [jsonString, string, toList_foldl_jsonChar]

def optional {α : Type} (item : α → Json.Rendered) : Option α → Json.Rendered
  | some x => item x
  | none => .null

def u64 (n : UInt64) : Json.Rendered := .natural n.toNat

def u32 (n : UInt32) : Json.Rendered := .natural n.toNat

theorem toList_toString_u64 (n : UInt64) : (toString n).toList = (u64 n).text := Nat.toList_repr

theorem toList_toString_u32 (n : UInt32) : (toString n).toList = (u32 n).text := Nat.toList_repr

theorem toList_toString_bool (b : Bool) : (toString b).toList = (Json.Rendered.bool b).text := by
  cases b <;> rfl

theorem toList_toString_i32 (n : Int32) :
    (toString n).toList = (Json.Rendered.integer n.toInt).text := by
  change n.toInt.repr.toList = _
  cases n.toInt with
  | ofNat n => exact Nat.toList_repr
  | negSucc n => simp [Int.repr, Json.Rendered.integer]

theorem toList_optionalString (output : String) (value : Option String) :
    (optionalString output value).toList = output.toList ++ (optional string value).text := by
  cases value with
  | some value => exact toList_jsonString output value
  | none => simp [optionalString, optional, Json.Rendered.null]

theorem toList_optionalU64 (output : String) (value : Option UInt64) :
    (optionalU64 output value).toList = output.toList ++ (optional u64 value).text := by
  cases value with
  | some value => simp [optionalU64, optional, ← toList_toString_u64]
  | none => simp [optionalU64, optional, Json.Rendered.null]

def locationObject (file : String) (line : UInt32) : Json.Rendered :=
  .object [("file", string file), ("line", u32 line)]

theorem toList_locationJson (output file : String) (line : UInt32) :
    (locationJson output file line).toList = output.toList ++ (locationObject file line).text := by
  simp [locationJson, locationObject, toList_jsonString, toString_string, toList_toString_u32,
    Json.Rendered.object, Json.Rendered.members, Json.Rendered.member]

def wakeSourceObject : Console.WakeSource → Json.Rendered
  | .io fd => .object [("kind", .plain "io"), ("fd", .integer fd.toInt)]
  | .timer id => .object [("kind", .plain "timer"), ("id", u64 id)]
  | .task id => .object [("kind", .plain "task"), ("id", u64 id)]
  | .channel kind => .object [("kind", .plain "channel"), ("channel", string kind)]
  | .external => .object [("kind", .plain "external")]

theorem toList_wakeSourceJson (output : String) (source : Console.WakeSource) :
    (wakeSourceJson output source).toList = output.toList ++ (wakeSourceObject source).text := by
  cases source
  all_goals
    simp [wakeSourceJson, wakeSourceObject, toList_jsonString, toString_string,
      toList_toString_i32, toList_toString_u64, Json.Rendered.object, Json.Rendered.members,
      Json.Rendered.member, Json.Rendered.plain, -String.reduceToList]
    repeat rw [String.toList_ofList]
    simp only [List.cons_append, List.nil_append]

def idText (output : String) (id : UInt64 × ℕ) : String :=
  (if id.2 > 0 then output.push ',' else output) ++ s!"{id.1}"

theorem toList_foldl_idText (output : String) (ids : List UInt64) {index : ℕ} (h : 0 < index) :
    ((ids.zipIdx index).foldl idText output).toList =
      output.toList ++ ids.flatMap fun id => ',' :: (u64 id).text := by
  induction ids generalizing output index with
  | nil => simp
  | cons id ids ih =>
    rw [List.zipIdx_cons, List.foldl_cons, ih _ (Nat.succ_pos index), List.flatMap_cons]
    simp [idText, h, toList_toString_u64]

theorem elements_cons (item : Json.Rendered) (items : List Json.Rendered) :
    Json.Rendered.elements (item :: items) =
      item.text ++ items.flatMap fun item => ',' :: item.text := by
  induction items generalizing item with
  | nil => simp [Json.Rendered.elements]
  | cons item' items ih =>
    rw [List.flatMap_cons, Json.Rendered.elements, ih item', List.cons_append]
    simp

theorem toList_idsJson (output : String) (ids : List UInt64) :
    (idsJson output ids).toList = output.toList ++ Json.Rendered.elements (ids.map u64) := by
  change (ids.zipIdx.foldl idText output).toList = _
  cases ids with
  | nil => simp [Json.Rendered.elements]
  | cons id ids =>
    rw [List.zipIdx_cons, List.foldl_cons, toList_foldl_idText _ _ (Nat.succ_pos 0),
      List.map_cons, elements_cons, List.flatMap_map]
    simp [idText, toList_toString_u64]

def pollResult (result : Console.PollResult) : Json.Rendered :=
  match result with
  | .ready => .plain "ready"
  | .pending => .plain "pending"
  | .panicked => .plain "panicked"

theorem toList_pollResultName (result : Console.PollResult) :
    '"' :: ((pollResultName result).toList ++ ['"']) = (pollResult result).text := by
  cases result <;> rfl

def eventObject : Event → Json.Rendered
  | .taskSpawned id name location parent =>
    .object [("type", .plain "task_spawned"), ("id", u64 id), ("name", optional string name),
      ("location", locationObject location.file location.line), ("parent", optional u64 parent)]
  | .taskPollStart id worker atNs =>
    .object [("type", .plain "task_poll_start"), ("id", u64 id), ("worker", u32 worker),
      ("at_ns", u64 atNs)]
  | .taskPollEnd id worker durationNs result =>
    .object [("type", .plain "task_poll_end"), ("id", u64 id), ("worker", u32 worker),
      ("duration_ns", u64 durationNs), ("result", pollResult result)]
  | .taskWoken id source =>
    .object [("type", .plain "task_woken"), ("id", u64 id), ("by", wakeSourceObject source)]
  | .taskDropped id totalPolls totalBusyNs totalIdleNs =>
    .object [("type", .plain "task_dropped"), ("id", u64 id), ("total_polls", u64 totalPolls),
      ("total_busy_ns", u64 totalBusyNs), ("total_idle_ns", u64 totalIdleNs)]
  | .taskAborted id => .object [("type", .plain "task_aborted"), ("id", u64 id)]
  | .workerPark worker timeoutNs =>
    .object [("type", .plain "worker_park"), ("worker", u32 worker),
      ("timeout_ns", optional u64 timeoutNs)]
  | .workerUnpark worker reason =>
    .object [("type", .plain "worker_unpark"), ("worker", u32 worker),
      ("reason", string (unparkReasonName reason))]
  | .workerSteal thief victim count =>
    .object [("type", .plain "worker_steal"), ("thief", u32 thief), ("victim", u32 victim),
      ("count", u64 count)]
  | .queueDepth worker localDepth globalDepth lifo =>
    .object [("type", .plain "queue_depth"), ("worker", u32 worker), ("local", u64 localDepth),
      ("global", u64 globalDepth), ("lifo", .bool lifo)]
  | .ioRegistered fd interest task =>
    .object [("type", .plain "io_registered"), ("fd", .integer fd.toInt),
      ("interest", string interest), ("task", u64 task)]
  | .ioReady fd readiness woke =>
    .object [("type", .plain "io_ready"), ("fd", .integer fd.toInt),
      ("readiness", string readiness), ("woke", .array (woke.map u64))]
  | .timerSet id deadlineNs task =>
    .object [("type", .plain "timer_set"), ("id", u64 id), ("deadline_ns", u64 deadlineNs),
      ("task", u64 task)]
  | .timerFired id latenessNs =>
    .object [("type", .plain "timer_fired"), ("id", u64 id), ("lateness_ns", u64 latenessNs)]
  | .timerCancelled id => .object [("type", .plain "timer_cancelled"), ("id", u64 id)]
  | .blockingDetected task pollDurationNs location =>
    .object [("type", .plain "blocking_detected"), ("task", u64 task),
      ("poll_duration_ns", u64 pollDurationNs),
      ("location", locationObject location.file location.line)]
  | .budgetExhausted task => .object [("type", .plain "budget_exhausted"), ("task", u64 task)]
  | .resourceContended kind holder waiters =>
    .object [("type", .plain "resource_contended"), ("kind", string kind), ("holder", u64 holder),
      ("waiters", .array (waiters.map u64))]

theorem toList_eventToJson (e : Event) : (eventToJson e).toList = (eventObject e).text := by
  cases e
  case taskPollEnd =>
    dsimp only [eventToJson, eventObject, Json.Rendered.object]
    simp [toString_string, toList_toString_u64, toList_toString_u32, ← toList_pollResultName,
      Json.Rendered.members, Json.Rendered.member, Json.Rendered.plain, -String.reduceToList]
    repeat rw [String.toList_ofList]
    simp only [List.cons_append, List.nil_append]
  all_goals
    dsimp only [eventToJson, eventObject, Json.Rendered.object]
    simp [toString_string, toList_toString_u64, toList_toString_u32, toList_toString_i32,
      toList_toString_bool, toList_jsonString, toList_optionalString, toList_optionalU64,
      toList_locationJson, toList_wakeSourceJson, toList_idsJson, Json.Rendered.array,
      Json.Rendered.members, Json.Rendered.member, Json.Rendered.plain, -String.reduceToList]
    repeat rw [String.toList_ofList]
    simp only [List.cons_append, List.nil_append]

theorem value_integer (n : ℤ) : (Json.Rendered.integer n).value = number n := by
  cases n with
  | ofNat n => rfl
  | negSucc n => simp [Json.Rendered.integer, number]

theorem value_u64 (n : UInt64) : (u64 n).value = number (ofU64 n) := rfl

theorem value_u32 (n : UInt32) : (u32 n).value = number (ofU32 n) := rfl

theorem value_string (s : String) : (string s).value = .str s := rfl

theorem value_bool (b : Bool) : (Json.Rendered.bool b).value = .bool b := by
  cases b <;> rfl

theorem value_optional_string (value : Option String) :
    (optional string value).value = nullable .str value := by
  cases value <;> rfl

theorem value_optional_u64 (value : Option UInt64) :
    (optional u64 value).value = nullable number (value.map ofU64) := by
  cases value <;> rfl

theorem value_ids (ids : List UInt64) :
    (Json.Rendered.array (ids.map u64)).value = .arr ((ids.map ofU64).map number) := by
  simp [Json.Rendered.array, value_u64]

theorem value_locationObject (location : Console.Location) :
    (locationObject location.file location.line).value = .obj (Location.of location).members :=
  rfl

theorem value_wakeSourceObject (source : Console.WakeSource) :
    (wakeSourceObject source).value = .obj (WakeSource.of source).members := by
  cases source with
  | io fd => simp [wakeSourceObject, Json.Rendered.object, Json.Rendered.plain, value_integer,
      WakeSource.of, WakeSource.members]
  | _ => rfl

theorem value_pollResult (result : Console.PollResult) :
    (pollResult result).value = (PollResult.of result).value := by
  cases result <;> rfl

theorem unparkReasonName_eq (reason : UnparkReason) :
    unparkReasonName reason = reasonOf reason := by
  cases reason <;> rfl

theorem value_eventObject (e : Event) :
    (eventObject e).value = .obj (RuntimeEvent.of e).members := by
  cases e
  all_goals
    simp [eventObject, Json.Rendered.object, Json.Rendered.plain, RuntimeEvent.of,
      RuntimeEvent.members, value_integer, value_u64, value_u32, value_string, value_bool,
      value_optional_string, value_optional_u64, value_ids, value_locationObject,
      value_wakeSourceObject, value_pollResult, unparkReasonName_eq]

theorem document_eventToJson (e : Event) :
    Json.Document (eventToJson e).toList (.obj (RuntimeEvent.of e).members) := by
  rw [toList_eventToJson, ← value_eventObject]
  exact (eventObject e).derives.document

theorem document_jsonString (s : String) : Json.Document (jsonString "" s).toList (.str s) := by
  rw [toList_jsonString, String.toList_empty, List.nil_append]
  exact (string s).derives.document

theorem eventToJson_injective : Function.Injective eventToJson := by
  intro e e' h
  apply RuntimeEvent.of_injective
  apply RuntimeEvent.members_injective
  apply Json.Value.obj.inj
  apply (document_eventToJson e).unique
  rw [h]
  exact document_eventToJson e'

/-- The text of an event is JSON and parses to the browser's object with the event's fields; a
string is read back as written; no two events share a text. -/
theorem event_text_parses_to_browser_object :
    (∀ e, Json.Document (eventToJson e).toList (.obj (RuntimeEvent.of e).members) ∧
      Json.parse (eventToJson e).toList = some (.obj (RuntimeEvent.of e).members)) ∧
      (∀ s, Json.parse (jsonString "" s).toList = some (.str s)) ∧
        Function.Injective eventToJson := by
  refine ⟨fun e => ⟨document_eventToJson e, ?_⟩, fun s => ?_, eventToJson_injective⟩
  · exact Json.parse_eq_some.mpr (document_eventToJson e)
  · exact Json.parse_eq_some.mpr (document_jsonString s)

end Eddy.ConsoleWeb
