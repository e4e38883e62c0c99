import Eddy.ByteReaders

/-!
# The console's decoder

`Event`, `Payload`, `decode_payload` and `FrameDecoder` of `eddy-console`. The state of a reader is
what is left of the payload from its offset on.
-/

namespace Eddy.Console
open ByteReaders

structure Location where
  file : String
  line : UInt32
  deriving DecidableEq

inductive WakeSource where
  | io (fd : Int32)
  | timer (id : UInt64)
  | task (id : UInt64)
  | channel (kind : String)
  | external
  deriving DecidableEq

inductive PollResult where
  | ready
  | pending
  | panicked
  deriving DecidableEq

inductive UnparkReason where
  | task
  | shutdown
  | steal
  | event
  deriving DecidableEq

/-- Durations and timestamps are nanoseconds. -/
inductive Event where
  | taskSpawned (id : UInt64) (name : Option String) (location : Location) (parent : Option UInt64)
  | taskPollStart (id : UInt64) (worker : UInt32) (atNs : UInt64)
  | taskPollEnd (id : UInt64) (worker : UInt32) (durationNs : UInt64) (result : PollResult)
  | taskWoken (id : UInt64) (source : WakeSource)
  | taskDropped (id totalPolls totalBusyNs totalIdleNs : UInt64)
  | taskAborted (id : UInt64)
  | workerPark (worker : UInt32) (timeoutNs : Option UInt64)
  | workerUnpark (worker : UInt32) (reason : UnparkReason)
  | workerSteal (thief victim : UInt32) (count : UInt64)
  | queueDepth (worker : UInt32) (localDepth globalDepth : UInt64) (lifo : Bool)
  | ioRegistered (fd : Int32) (interest : String) (task : UInt64)
  | ioReady (fd : Int32) (readiness : String) (woke : List UInt64)
  | timerSet (id deadlineNs task : UInt64)
  | timerFired (id latenessNs : UInt64)
  | timerCancelled (id : UInt64)
  | blockingDetected (task pollDurationNs : UInt64) (location : Location)
  | budgetExhausted (task : UInt64)
  | resourceContended (kind : String) (holder : UInt64) (waiters : List UInt64)
  deriving DecidableEq

inductive DecodeError where
  | frameTooLarge (size : UInt32)
  | unknownTag (tag : UInt8)
  | truncated
  | invalidUtf8
  | invalidValue (value : String)
  | trailingBytes (tag : UInt8) (remaining : ℕ)
  deriving DecidableEq

abbrev Payload := Reader DecodeError

namespace Payload

def take (count : ℕ) : Payload (List UInt8) := do
  let bytes ← get
  if bytes.length < count then throw .truncated
  set (bytes.drop count)
  return bytes.take count

def u8 : Payload UInt8 := return UInt8.ofNat (ofLeBytes (← take 1))

def u32 : Payload UInt32 := return UInt32.ofNat (ofLeBytes (← take 4))

def u64 : Payload UInt64 := return UInt64.ofNat (ofLeBytes (← take 8))

def string : Payload String := do
  let len ← u32
  match String.fromUTF8? (← take len.toNat).toByteArray with
  | some value => return value
  | none => throw .invalidUtf8

def optionalString : Payload (Option String) := do
  match ← u8 with
  | 0 => return none
  | 1 => return some (← string)
  | _ => throw (.invalidValue "optional string marker")

def optionalU64 : Payload (Option UInt64) := do
  match ← u8 with
  | 0 => return none
  | 1 => return some (← u64)
  | _ => throw (.invalidValue "optional integer marker")

def location : Payload Location := do
  let file ← string
  let line ← u32
  return { file, line }

def idList : Payload (List UInt64) := do
  let count ← u32
  if (← get).length / 8 < count.toNat then throw .truncated
  readMany u64 count.toNat

def done (tag : UInt8) : Payload Unit := do
  let bytes ← get
  if bytes ≠ [] then throw (.trailingBytes tag bytes.length)

end Payload

open Payload

def decodePollResult : Payload PollResult := do
  match ← u8 with
  | 0 => return .ready
  | 1 => return .pending
  | 2 => return .panicked
  | _ => throw (.invalidValue "poll result")

def decodeLifo : Payload Bool := do
  match ← u8 with
  | 0 => return false
  | 1 => return true
  | _ => throw (.invalidValue "lifo marker")

def decodeWakeSource : Payload WakeSource := do
  match ← u8 with
  | 0 => return .io (← u32).toInt32
  | 1 => return .timer (← u64)
  | 2 => return .task (← u64)
  | 3 => return .channel (← string)
  | 4 => return .external
  | _ => throw (.invalidValue "wake source")

def decodeUnparkReason : Payload UnparkReason := do
  match ← u8 with
  | 0 => return .task
  | 1 => return .shutdown
  | 2 => return .steal
  | 3 => return .event
  | _ => throw (.invalidValue "unpark reason")

def decodeFields (tag : UInt8) : Payload Event :=
  match tag with
  | 0 => return .taskSpawned (← u64) (← optionalString) (← location) (← optionalU64)
  | 1 => return .taskPollStart (← u64) (← u32) (← u64)
  | 2 => return .taskPollEnd (← u64) (← u32) (← u64) (← decodePollResult)
  | 3 => return .taskWoken (← u64) (← decodeWakeSource)
  | 4 => return .taskDropped (← u64) (← u64) (← u64) (← u64)
  | 5 => return .taskAborted (← u64)
  | 6 => return .workerPark (← u32) (← optionalU64)
  | 7 => return .workerUnpark (← u32) (← decodeUnparkReason)
  | 8 => return .workerSteal (← u32) (← u32) (← u64)
  | 9 => return .queueDepth (← u32) (← u64) (← u64) (← decodeLifo)
  | 10 => return .ioRegistered (← u32).toInt32 (← string) (← u64)
  | 11 => return .ioReady (← u32).toInt32 (← string) (← idList)
  | 12 => return .timerSet (← u64) (← u64) (← u64)
  | 13 => return .timerFired (← u64) (← u64)
  | 14 => return .timerCancelled (← u64)
  | 15 => return .blockingDetected (← u64) (← u64) (← location)
  | 16 => return .budgetExhausted (← u64)
  | 17 => return .resourceContended (← string) (← u64) (← idList)
  | _ => throw (.unknownTag tag)

def decodeEvent : Payload Event := do
  let tag ← u8
  let event ← decodeFields tag
  done tag
  return event

def decodePayload (bytes : List UInt8) : Except DecodeError Event := do
  let (event, _) ← decodeEvent bytes
  return event

def maxFrameSize : ℕ := 16 * 1024 * 1024

structure FrameDecoder where
  buffer : List UInt8

namespace FrameDecoder

def new : FrameDecoder := ⟨[]⟩

/-- At most `frames` iterations of the loop of `push`. -/
def pushLoop : ℕ → FrameDecoder → List Event → Except DecodeError (List Event) × FrameDecoder
  | 0, decoder, events => (.ok events, decoder)
  | frames + 1, decoder, events =>
    if decoder.buffer.length < 4 then (.ok events, decoder)
    else
      let size := UInt32.ofNat (ofLeBytes (decoder.buffer.take 4))
      if maxFrameSize < size.toNat then (.error (.frameTooLarge size), decoder)
      else
        let frameSize := 4 + size.toNat
        if decoder.buffer.length < frameSize then (.ok events, decoder)
        else
          let payload := (decoder.buffer.take frameSize).drop 4
          let decoder : FrameDecoder := ⟨decoder.buffer.drop frameSize⟩
          match decodePayload payload with
          | .ok event => pushLoop frames decoder (events ++ [event])
          | .error error => (.error error, decoder)

/-- Every frame takes four bytes or more from the buffer. -/
def push (decoder : FrameDecoder) (bytes : List UInt8) :
    Except DecodeError (List Event) × FrameDecoder :=
  let buffer := decoder.buffer ++ bytes
  pushLoop (buffer.length + 1) ⟨buffer⟩ []

def finish (decoder : FrameDecoder) : Except DecodeError Unit :=
  if decoder.buffer.isEmpty then .ok () else .error .truncated

end FrameDecoder

end Eddy.Console
