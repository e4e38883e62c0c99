import Eddy.ConsoleEvents

/-!
# The event wire format

The layout of an event's payload, a tag and the event's fields, and the console's decoder, which
accepts the layouts of events and nothing else.
-/

namespace Eddy.Console
open ByteReaders

def utf8 (s : String) : List UInt8 := s.toByteArray.data.toList

namespace Layout

def u32 (value : UInt32) : List UInt8 := leBytes 4 value.toNat

def u64 (value : UInt64) : List UInt8 := leBytes 8 value.toNat

def string (value : String) : List UInt8 := leBytes 4 (utf8 value).length ++ utf8 value

def option {α : Type} (write : α → List UInt8) : Option α → List UInt8
  | none => [0]
  | some value => 1 :: write value

def location (value : Location) : List UInt8 := string value.file ++ u32 value.line

def idList (value : List UInt64) : List UInt8 := leBytes 4 value.length ++ value.flatMap u64

def pollResult : PollResult → UInt8
  | .ready => 0
  | .pending => 1
  | .panicked => 2

def wakeSource : WakeSource → List UInt8
  | .io fd => 0 :: u32 fd.toUInt32
  | .timer id => 1 :: u64 id
  | .task id => 2 :: u64 id
  | .channel kind => 3 :: string kind
  | .external => [4]

def unparkReason : UnparkReason → UInt8
  | .task => 0
  | .shutdown => 1
  | .steal => 2
  | .event => 3

end Layout

open Layout

namespace Event

def tag : Event → UInt8
  | taskSpawned .. => 0
  | taskPollStart .. => 1
  | taskPollEnd .. => 2
  | taskWoken .. => 3
  | taskDropped .. => 4
  | taskAborted .. => 5
  | workerPark .. => 6
  | workerUnpark .. => 7
  | workerSteal .. => 8
  | queueDepth .. => 9
  | ioRegistered .. => 10
  | ioReady .. => 11
  | timerSet .. => 12
  | timerFired .. => 13
  | timerCancelled .. => 14
  | blockingDetected .. => 15
  | budgetExhausted .. => 16
  | resourceContended .. => 17

def fields : Event → List UInt8
  | taskSpawned id name loc parent => u64 id ++ option string name ++ location loc ++ option u64 parent
  | taskPollStart id worker atNs => u64 id ++ u32 worker ++ u64 atNs
  | taskPollEnd id worker durationNs result =>
    u64 id ++ u32 worker ++ u64 durationNs ++ [pollResult result]
  | taskWoken id source => u64 id ++ wakeSource source
  | taskDropped id totalPolls totalBusyNs totalIdleNs =>
    u64 id ++ u64 totalPolls ++ u64 totalBusyNs ++ u64 totalIdleNs
  | taskAborted id => u64 id
  | workerPark worker timeoutNs => u32 worker ++ option u64 timeoutNs
  | workerUnpark worker reason => u32 worker ++ [unparkReason reason]
  | workerSteal thief victim count => u32 thief ++ u32 victim ++ u64 count
  | queueDepth worker localDepth globalDepth lifo =>
    u32 worker ++ u64 localDepth ++ u64 globalDepth ++ [if lifo then 1 else 0]
  | ioRegistered fd interest task => u32 fd.toUInt32 ++ string interest ++ u64 task
  | ioReady fd readiness woke => u32 fd.toUInt32 ++ string readiness ++ idList woke
  | timerSet id deadlineNs task => u64 id ++ u64 deadlineNs ++ u64 task
  | timerFired id latenessNs => u64 id ++ u64 latenessNs
  | timerCancelled id => u64 id
  | blockingDetected task pollDurationNs loc => u64 task ++ u64 pollDurationNs ++ location loc
  | budgetExhausted task => u64 task
  | resourceContended kind holder waiters => string kind ++ u64 holder ++ idList waiters

def payload (e : Event) : List UInt8 := e.tag :: e.fields

end Event

/-- The length of a string or of a list of ids is written as a `u32`. -/
def StringFits (s : String) : Prop := (utf8 s).length < 2 ^ 32

def ListFits (ids : List UInt64) : Prop := ids.length < 2 ^ 32

def WakeSource.Fits : WakeSource → Prop
  | channel kind => StringFits kind
  | _ => True

def Event.Fits : Event → Prop
  | taskSpawned _ name loc _ => (∀ s ∈ name, StringFits s) ∧ StringFits loc.file
  | taskWoken _ source => source.Fits
  | ioRegistered _ interest _ => StringFits interest
  | ioReady _ readiness woke => StringFits readiness ∧ ListFits woke
  | blockingDetected _ _ loc => StringFits loc.file
  | resourceContended kind _ waiters => StringFits kind ∧ ListFits waiters
  | _ => True

theorem toByteArray_utf8 (s : String) : (utf8 s).toByteArray = s.toByteArray := by
  simp [utf8, ByteArray.ext_iff]

theorem fromUTF8?_eq_some {bytes : List UInt8} {s : String} :
    String.fromUTF8? bytes.toByteArray = some s ↔ bytes = utf8 s := by
  constructor
  · intro h
    unfold String.fromUTF8? at h
    split at h
    · obtain rfl := Option.some.inj h
      simp [String.fromUTF8, utf8]
    · cases h
  · rintro rfl
    rw [toByteArray_utf8]
    unfold String.fromUTF8?
    exact dif_pos s.isValidUTF8

namespace Payload

theorem get_eq_ok {bytes rest a : List UInt8} :
    (get : Payload (List UInt8)) bytes = .ok (a, rest) ↔ a = bytes ∧ bytes = rest := by
  simp [get, getThe, MonadStateOf.get, StateT.get, pure, Except.pure, eq_comm]

theorem take_eq_ok {count : ℕ} {bytes rest value : List UInt8} :
    take count bytes = .ok (value, rest) ↔ value.length = count ∧ bytes = value ++ rest := by
  have htake : take count bytes =
      if bytes.length < count then .error .truncated
      else .ok (bytes.take count, bytes.drop count) := by
    simp only [take, bind, StateT.bind, get, getThe, MonadStateOf.get, StateT.get, Except.bind,
      pure, Except.pure]
    split <;> rfl
  rw [htake]
  split
  · rename_i hlt
    simp only [reduceCtorEq, false_iff]
    rintro ⟨rfl, rfl⟩
    simp at hlt
  · rename_i hge
    simp only [Except.ok.injEq, Prod.mk.injEq]
    constructor
    · rintro ⟨rfl, rfl⟩
      simp
      omega
    · rintro ⟨rfl, rfl⟩
      simp

/-- A little-endian word of `width` bytes. -/
theorem word_exact {α : Type} {width : ℕ} {ofNat : ℕ → α} {toNat : α → ℕ}
    (hof : ∀ value, ofNat (toNat value) = value) (hlt : ∀ value, toNat value < 256 ^ width)
    (hto : ∀ n < 256 ^ width, toNat (ofNat n) = n) :
    Exact (do return ofNat (ofLeBytes (← take width)) : Payload α)
      (fun value => leBytes width (toNat value)) fun _ => True := by
  intro bytes value rest
  simp only [bind_eq_ok, pure_eq_ok, take_eq_ok, true_and]
  constructor
  · rintro ⟨word, mid, ⟨rfl, rfl⟩, rfl, rfl⟩
    rw [hto _ (ofLeBytes_lt word), leBytes_ofLeBytes]
  · rintro rfl
    exact ⟨_, _, ⟨leBytes_length .., rfl⟩, by rw [ofLeBytes_leBytes (hlt value), hof], rfl⟩

theorem u8_exact : Exact u8 (fun value => [value]) fun _ => True := by
  have hwrite : (fun value : UInt8 => leBytes 1 value.toNat) = fun value => [value] := by
    funext value
    simp [leBytes]
  exact hwrite ▸ word_exact (fun _ => UInt8.ofNat_toNat) (fun value => value.toNat_lt) fun _ h =>
    UInt8.toNat_ofNat_of_lt' h

theorem u32_exact : Exact u32 Layout.u32 fun _ => True :=
  word_exact (fun _ => UInt32.ofNat_toNat) (fun value => value.toNat_lt) fun _ h =>
    UInt32.toNat_ofNat_of_lt' h

theorem u64_exact : Exact u64 Layout.u64 fun _ => True :=
  word_exact (fun _ => UInt64.ofNat_toNat) (fun value => value.toNat_lt) fun _ h =>
    UInt64.toNat_ofNat_of_lt' h

theorem string_exact : Exact string Layout.string StringFits := by
  intro bytes value rest
  simp only [string, bind_eq_ok, u32_exact _ _ _, take_eq_ok, true_and, Layout.string, Layout.u32]
  constructor
  · rintro ⟨len, _, rfl, text, _, ⟨hlen, rfl⟩, hvalue⟩
    cases htext : String.fromUTF8? text.toByteArray with
    | none =>
      rw [htext] at hvalue
      exact (throw_eq_ok.mp hvalue).elim
    | some s =>
      rw [htext] at hvalue
      obtain ⟨rfl, rfl⟩ := pure_eq_ok.mp hvalue
      obtain rfl := fromUTF8?_eq_some.mp htext
      have hfits : (utf8 s).length < 2 ^ 32 := hlen ▸ len.toNat_lt
      exact ⟨hfits, by rw [hlen, List.append_assoc]⟩
  · rintro ⟨hfits, rfl⟩
    have hlen : (UInt32.ofNat (utf8 value).length).toNat = (utf8 value).length :=
      UInt32.toNat_ofNat_of_lt' hfits
    refine ⟨.ofNat (utf8 value).length, utf8 value ++ rest, by rw [hlen, List.append_assoc],
      utf8 value, rest, ⟨hlen.symm, rfl⟩, ?_⟩
    rw [fromUTF8?_eq_some.mpr rfl]
    rfl

/-- A marker of zero or one, and a value after a one. -/
theorem option_eq_ok {α : Type} {read : Payload α} {write : α → List UInt8} {fits : α → Prop}
    (h : Exact read write fits) {message : String} {bytes rest : List UInt8} {value : Option α} :
    (do match ← u8 with
      | 0 => return none
      | 1 => return some (← read)
      | _ => throw (.invalidValue message) : Payload (Option α)) bytes = .ok (value, rest) ↔
      (∀ a ∈ value, fits a) ∧ bytes = Layout.option write value ++ rest := by
  simp only [bind_eq_ok, u8_exact _ _ _, true_and]
  constructor
  · rintro ⟨marker, mid, rfl, hvalue⟩
    split at hvalue
    · obtain ⟨rfl, rfl⟩ := pure_eq_ok.mp hvalue
      simp [Layout.option]
    · obtain ⟨a, _, ha, hsome⟩ := bind_eq_ok.mp hvalue
      obtain ⟨rfl, rfl⟩ := pure_eq_ok.mp hsome
      obtain ⟨hfits, rfl⟩ := (h _ _ _).mp ha
      simpa [Layout.option] using hfits
    · exact (throw_eq_ok.mp hvalue).elim
  · rintro ⟨hfits, rfl⟩
    cases value with
    | none => exact ⟨0, rest, rfl, rfl⟩
    | some a =>
      refine ⟨1, write a ++ rest, rfl, ?_⟩
      show (do return some (← read) : Payload (Option α)) (write a ++ rest) = _
      rw [h.bind (hfits a rfl)]
      rfl

theorem optionalString_exact :
    Exact optionalString (Layout.option Layout.string) fun value => ∀ s ∈ value, StringFits s :=
  fun _ _ _ => option_eq_ok string_exact

theorem optionalU64_exact : Exact optionalU64 (Layout.option Layout.u64) fun _ => True := by
  intro bytes value rest
  refine (option_eq_ok u64_exact).trans ?_
  simp

theorem location_exact : Exact location Layout.location fun value => StringFits value.file := by
  intro bytes value rest
  simp only [location, bind_eq_ok, pure_eq_ok, string_exact _ _ _, u32_exact _ _ _, true_and,
    Layout.location]
  constructor
  · rintro ⟨file, _, ⟨hfile, rfl⟩, line, _, rfl, rfl, rfl⟩
    exact ⟨hfile, by simp⟩
  · rintro ⟨hfile, rfl⟩
    exact ⟨value.file, _, ⟨hfile, by rw [List.append_assoc]⟩, value.line, rest, rfl, rfl, rfl⟩

theorem flatMap_u64_length (ids : List UInt64) :
    (ids.flatMap Layout.u64).length = 8 * ids.length := by
  induction ids with
  | nil => rfl
  | cons id ids ih =>
    rw [List.flatMap_cons, List.length_append, ih, Layout.u64, leBytes_length, List.length_cons]
    omega

theorem idList_exact : Exact idList Layout.idList ListFits := by
  intro bytes value rest
  simp only [idList, bind_eq_ok, u32_exact _ _ _, true_and, Layout.idList, Layout.u32]
  constructor
  · rintro ⟨count, mid, rfl, hvalue⟩
    obtain ⟨_, _, hget, hvalue⟩ := hvalue
    obtain ⟨rfl, rfl⟩ := get_eq_ok.mp hget
    split at hvalue
    · obtain ⟨_, _, hthrow, -⟩ := bind_eq_ok.mp hvalue
      exact (throw_eq_ok.mp hthrow).elim
    · obtain ⟨hlen, -, rfl⟩ := (readMany_eq_ok u64_exact).mp hvalue
      have hfits : value.length < 2 ^ 32 := hlen ▸ count.toNat_lt
      exact ⟨hfits, by rw [hlen, List.append_assoc]⟩
  · rintro ⟨hfits, rfl⟩
    have hlen : (UInt32.ofNat value.length).toNat = value.length :=
      UInt32.toNat_ofNat_of_lt' hfits
    refine ⟨.ofNat value.length, value.flatMap Layout.u64 ++ rest,
      by rw [hlen, List.append_assoc], _, _, get_eq_ok.mpr ⟨rfl, rfl⟩, ?_⟩
    rw [if_neg (by rw [hlen, List.length_append, flatMap_u64_length]; omega), hlen]
    exact (readMany_eq_ok u64_exact).mpr ⟨rfl, fun _ _ => trivial, rfl⟩

end Payload

open Payload

/-- A byte that stands for one of a few values. -/
theorem code_exact {α : Type} {read : UInt8 → Payload α} {code : α → UInt8}
    (hcode : ∀ value bytes, read (code value) bytes = .ok (value, bytes))
    (hread : ∀ byte bytes value rest, read byte bytes = .ok (value, rest) → byte = code value) :
    Exact (u8 >>= read) (fun value => [code value]) fun _ => True := by
  intro bytes value rest
  simp only [bind_eq_ok, u8_exact _ _ _, true_and]
  constructor
  · rintro ⟨byte, mid, rfl, h⟩
    obtain rfl := hread _ _ _ _ h
    rw [hcode] at h
    cases h
    rfl
  · rintro rfl
    exact ⟨_, _, rfl, hcode value rest⟩

theorem pollResult_exact :
    Exact decodePollResult (fun value => [pollResult value]) fun _ => True := by
  refine code_exact (fun value bytes => by cases value <;> rfl) fun byte bytes value rest h => ?_
  split at h
  all_goals simp only [pure_eq_ok, throw_eq_ok] at h
  all_goals
    obtain ⟨rfl, -⟩ := h
    rfl

theorem lifo_exact : Exact decodeLifo (fun value => [if value then 1 else 0]) fun _ => True := by
  refine code_exact (fun value bytes => by cases value <;> rfl) fun byte bytes value rest h => ?_
  split at h
  all_goals simp only [pure_eq_ok, throw_eq_ok] at h
  all_goals
    obtain ⟨rfl, -⟩ := h
    rfl

theorem unparkReason_exact :
    Exact decodeUnparkReason (fun value => [unparkReason value]) fun _ => True := by
  refine code_exact (fun value bytes => by cases value <;> rfl) fun byte bytes value rest h => ?_
  split at h
  all_goals simp only [pure_eq_ok, throw_eq_ok] at h
  all_goals
    obtain ⟨rfl, -⟩ := h
    rfl

theorem wakeSource_exact : Exact decodeWakeSource wakeSource WakeSource.Fits := by
  intro bytes value rest
  simp only [decodeWakeSource, bind_eq_ok, u8_exact _ _ _, true_and]
  constructor
  · rintro ⟨marker, _, rfl, hvalue⟩
    split at hvalue
    all_goals simp only [bind_eq_ok, pure_eq_ok, throw_eq_ok, u32_exact _ _ _, u64_exact _ _ _,
      string_exact _ _ _, true_and] at hvalue
    case h_1 =>
      obtain ⟨fd, _, rfl, rfl, rfl⟩ := hvalue
      exact ⟨trivial, rfl⟩
    case h_2 =>
      obtain ⟨id, _, rfl, rfl, rfl⟩ := hvalue
      exact ⟨trivial, rfl⟩
    case h_3 =>
      obtain ⟨id, _, rfl, rfl, rfl⟩ := hvalue
      exact ⟨trivial, rfl⟩
    case h_4 =>
      obtain ⟨kind, _, ⟨hkind, rfl⟩, rfl, rfl⟩ := hvalue
      exact ⟨hkind, rfl⟩
    case h_5 =>
      obtain ⟨rfl, rfl⟩ := hvalue
      exact ⟨trivial, rfl⟩
  · rintro ⟨hfits, rfl⟩
    cases value with
    | io fd => exact ⟨0, u32 fd.toUInt32 ++ rest, rfl, u32_exact.bind trivial rest⟩
    | timer id => exact ⟨1, u64 id ++ rest, rfl, u64_exact.bind trivial rest⟩
    | task id => exact ⟨2, u64 id ++ rest, rfl, u64_exact.bind trivial rest⟩
    | channel kind => exact ⟨3, string kind ++ rest, rfl, string_exact.bind hfits rest⟩
    | external => exact ⟨4, rest, rfl, rfl⟩

theorem decodeFields_read {e : Event} (h : e.Fits) (rest : List UInt8) :
    decodeFields e.tag (e.fields ++ rest) = .ok (e, rest) := by
  cases e
  all_goals simp only [Event.fields, List.append_assoc, Event.tag, decodeFields]
  case taskSpawned =>
    rw [u64_exact.bind trivial, optionalString_exact.bind h.1, location_exact.bind h.2,
      optionalU64_exact.bind trivial]
    rfl
  case taskPollStart =>
    rw [u64_exact.bind trivial, u32_exact.bind trivial, u64_exact.bind trivial]
    rfl
  case taskPollEnd =>
    rw [u64_exact.bind trivial, u32_exact.bind trivial, u64_exact.bind trivial,
      pollResult_exact.bind trivial]
    rfl
  case taskWoken =>
    rw [u64_exact.bind trivial, wakeSource_exact.bind h]
    rfl
  case taskDropped =>
    rw [u64_exact.bind trivial, u64_exact.bind trivial, u64_exact.bind trivial,
      u64_exact.bind trivial]
    rfl
  case taskAborted =>
    rw [u64_exact.bind trivial]
    rfl
  case workerPark =>
    rw [u32_exact.bind trivial, optionalU64_exact.bind trivial]
    rfl
  case workerUnpark =>
    rw [u32_exact.bind trivial, unparkReason_exact.bind trivial]
    rfl
  case workerSteal =>
    rw [u32_exact.bind trivial, u32_exact.bind trivial, u64_exact.bind trivial]
    rfl
  case queueDepth =>
    rw [u32_exact.bind trivial, u64_exact.bind trivial, u64_exact.bind trivial,
      lifo_exact.bind trivial]
    rfl
  case ioRegistered =>
    rw [u32_exact.bind trivial, string_exact.bind h, u64_exact.bind trivial]
    rfl
  case ioReady =>
    rw [u32_exact.bind trivial, string_exact.bind h.1, idList_exact.bind h.2]
    rfl
  case timerSet =>
    rw [u64_exact.bind trivial, u64_exact.bind trivial, u64_exact.bind trivial]
    rfl
  case timerFired =>
    rw [u64_exact.bind trivial, u64_exact.bind trivial]
    rfl
  case timerCancelled =>
    rw [u64_exact.bind trivial]
    rfl
  case blockingDetected =>
    rw [u64_exact.bind trivial, u64_exact.bind trivial, location_exact.bind h]
    rfl
  case budgetExhausted =>
    rw [u64_exact.bind trivial]
    rfl
  case resourceContended =>
    rw [string_exact.bind h.1, u64_exact.bind trivial, idList_exact.bind h.2]
    rfl

theorem decodeFields_exact (tag : UInt8) :
    Exact (decodeFields tag) Event.fields fun e => e.tag = tag ∧ e.Fits := by
  intro bytes e rest
  constructor
  · intro h
    unfold decodeFields at h
    split at h
    all_goals simp only [bind_eq_ok, pure_eq_ok, throw_eq_ok, u64_exact _ _ _, u32_exact _ _ _,
      string_exact _ _ _, optionalString_exact _ _ _, optionalU64_exact _ _ _,
      location_exact _ _ _, idList_exact _ _ _, pollResult_exact _ _ _, lifo_exact _ _ _,
      wakeSource_exact _ _ _, unparkReason_exact _ _ _, true_and] at h
    case h_1 =>
      obtain ⟨id, _, rfl, name, _, ⟨hname, rfl⟩, loc, _, ⟨hloc, rfl⟩, parent, _, rfl, rfl, rfl⟩ := h
      exact ⟨⟨rfl, hname, hloc⟩, by simp [Event.fields]⟩
    case h_2 =>
      obtain ⟨id, _, rfl, worker, _, rfl, atNs, _, rfl, rfl, rfl⟩ := h
      exact ⟨⟨rfl, trivial⟩, by simp [Event.fields]⟩
    case h_3 =>
      obtain ⟨id, _, rfl, worker, _, rfl, durationNs, _, rfl, result, _, rfl, rfl, rfl⟩ := h
      exact ⟨⟨rfl, trivial⟩, by simp [Event.fields]⟩
    case h_4 =>
      obtain ⟨id, _, rfl, source, _, ⟨hsource, rfl⟩, rfl, rfl⟩ := h
      exact ⟨⟨rfl, hsource⟩, by simp [Event.fields]⟩
    case h_5 =>
      obtain ⟨id, _, rfl, polls, _, rfl, busy, _, rfl, idle, _, rfl, rfl, rfl⟩ := h
      exact ⟨⟨rfl, trivial⟩, by simp [Event.fields]⟩
    case h_6 =>
      obtain ⟨id, _, rfl, rfl, rfl⟩ := h
      exact ⟨⟨rfl, trivial⟩, by simp [Event.fields]⟩
    case h_7 =>
      obtain ⟨worker, _, rfl, timeoutNs, _, rfl, rfl, rfl⟩ := h
      exact ⟨⟨rfl, trivial⟩, by simp [Event.fields]⟩
    case h_8 =>
      obtain ⟨worker, _, rfl, reason, _, rfl, rfl, rfl⟩ := h
      exact ⟨⟨rfl, trivial⟩, by simp [Event.fields]⟩
    case h_9 =>
      obtain ⟨thief, _, rfl, victim, _, rfl, count, _, rfl, rfl, rfl⟩ := h
      exact ⟨⟨rfl, trivial⟩, by simp [Event.fields]⟩
    case h_10 =>
      obtain ⟨worker, _, rfl, local', _, rfl, global', _, rfl, lifo, _, rfl, rfl, rfl⟩ := h
      exact ⟨⟨rfl, trivial⟩, by simp [Event.fields]⟩
    case h_11 =>
      obtain ⟨fd, _, rfl, interest, _, ⟨hinterest, rfl⟩, task, _, rfl, rfl, rfl⟩ := h
      exact ⟨⟨rfl, hinterest⟩, by simp [Event.fields]⟩
    case h_12 =>
      obtain ⟨fd, _, rfl, readiness, _, ⟨hreadiness, rfl⟩, woke, _, ⟨hwoke, rfl⟩, rfl, rfl⟩ := h
      exact ⟨⟨rfl, hreadiness, hwoke⟩, by simp [Event.fields]⟩
    case h_13 =>
      obtain ⟨id, _, rfl, deadlineNs, _, rfl, task, _, rfl, rfl, rfl⟩ := h
      exact ⟨⟨rfl, trivial⟩, by simp [Event.fields]⟩
    case h_14 =>
      obtain ⟨id, _, rfl, latenessNs, _, rfl, rfl, rfl⟩ := h
      exact ⟨⟨rfl, trivial⟩, by simp [Event.fields]⟩
    case h_15 =>
      obtain ⟨id, _, rfl, rfl, rfl⟩ := h
      exact ⟨⟨rfl, trivial⟩, by simp [Event.fields]⟩
    case h_16 =>
      obtain ⟨task, _, rfl, pollDurationNs, _, rfl, loc, _, ⟨hloc, rfl⟩, rfl, rfl⟩ := h
      exact ⟨⟨rfl, hloc⟩, by simp [Event.fields]⟩
    case h_17 =>
      obtain ⟨task, _, rfl, rfl, rfl⟩ := h
      exact ⟨⟨rfl, trivial⟩, by simp [Event.fields]⟩
    case h_18 =>
      obtain ⟨kind, _, ⟨hkind, rfl⟩, holder, _, rfl, waiters, _, ⟨hwaiters, rfl⟩, rfl, rfl⟩ := h
      exact ⟨⟨rfl, hkind, hwaiters⟩, by simp [Event.fields]⟩
  · rintro ⟨⟨rfl, hfits⟩, rfl⟩
    exact decodeFields_read hfits rest

theorem done_eq_ok {tag : UInt8} {bytes rest : List UInt8} {u : Unit} :
    done tag bytes = .ok (u, rest) ↔ bytes = [] ∧ rest = [] := by
  simp only [done, bind_eq_ok, get_eq_ok]
  constructor
  · rintro ⟨_, _, ⟨rfl, rfl⟩, h⟩
    split at h
    · exact (throw_eq_ok.mp h).elim
    · rename_i hempty
      obtain ⟨-, rfl⟩ := pure_eq_ok.mp h
      simpa using hempty
  · rintro ⟨rfl, rfl⟩
    exact ⟨[], [], ⟨rfl, rfl⟩, rfl⟩

theorem decodePayload_eq_ok {bytes : List UInt8} {e : Event} :
    decodePayload bytes = .ok e ↔ e.Fits ∧ bytes = e.payload := by
  have hevent : decodePayload bytes = .ok e ↔ ∃ rest, decodeEvent bytes = .ok (e, rest) := by
    unfold decodePayload
    cases decodeEvent bytes with
    | error error => simp [bind, Except.bind]
    | ok result =>
      obtain ⟨e', rest⟩ := result
      simp [bind, Except.bind, pure, Except.pure]
  rw [hevent]
  simp only [decodeEvent, bind_eq_ok, u8_exact _ _ _, decodeFields_exact _ _ _ _, pure_eq_ok,
    done_eq_ok, true_and]
  constructor
  · rintro ⟨_, _, _, rfl, _, _, ⟨⟨rfl, hfits⟩, rfl⟩, _, _, ⟨rfl, rfl⟩, rfl, rfl⟩
    exact ⟨hfits, by simp [Event.payload]⟩
  · rintro ⟨hfits, rfl⟩
    exact ⟨[], e.tag, e.fields, rfl, e, [], ⟨⟨rfl, hfits⟩, (List.append_nil _).symm⟩, (), [],
      ⟨rfl, rfl⟩, rfl, rfl⟩

end Eddy.Console
