import Eddy.ByteReaders

/-!
# The runtime's event frames

`RuntimeEvent` and `encode_frame` of `instrument.rs`. A `Duration` and an `Instant` are numbers of
nanoseconds, and a `usize` has 64 bits. The vector that a field is appended to is the state of the
encoder; a failed assertion is the end of it.
-/

namespace Eddy.Instrument
open ByteReaders

structure TaskId where
  val : UInt64

inductive WakeSource where
  | io (fd : Int32)
  | timer (id : UInt64)
  | task (id : TaskId)
  | channel (kind : String)
  | external

structure Location where
  file : String
  line : UInt32

inductive PollResult where
  | ready
  | pending
  | panicked
  deriving DecidableEq

inductive UnparkReason where
  | task
  | shutdown
  | steal
  | event
  deriving DecidableEq

inductive RuntimeEvent where
  | taskSpawned (id : TaskId) (name : Option String) (location : Location) (parent : Option TaskId)
  | taskPollStart (id : TaskId) (worker : UInt32) (started : ℤ)
  | taskPollEnd (id : TaskId) (worker : UInt32) (duration : ℕ) (result : PollResult)
  | taskWoken (id : TaskId) (source : WakeSource)
  | taskDropped (id : TaskId) (totalPolls : UInt64) (totalBusy totalIdle : ℕ)
  | taskAborted (id : TaskId)
  | workerPark (worker : UInt32) (timeout : Option ℕ)
  | workerUnpark (worker : UInt32) (reason : UnparkReason)
  | workerSteal (thief victim : UInt32) (count : UInt64)
  | queueDepth (worker : UInt32) (localDepth globalDepth : UInt64) (lifo : Bool)
  | ioRegistered (fd : Int32) (interest : String) (task : TaskId)
  | ioReady (fd : Int32) (readiness : String) (woke : List TaskId)
  | timerSet (id : UInt64) (deadline : ℤ) (task : TaskId)
  | timerFired (id : UInt64) (lateness : ℕ)
  | timerCancelled (id : UInt64)
  | blockingDetected (task : TaskId) (pollDuration : ℕ) (location : Location)
  | budgetExhausted (task : TaskId)
  | resourceContended (kind : String) (holder : TaskId) (waiters : List TaskId)

/-- Appends to a vector of bytes, or panics. -/
abbrev Encoder := StateT (List UInt8) Option

def u32Max : ℕ := 2 ^ 32 - 1
def u64Max : ℕ := 2 ^ 64 - 1

namespace Encoder

def extend (bytes : List UInt8) : Encoder Unit := modify (· ++ bytes)

def assert (condition : Prop) [Decidable condition] : Encoder Unit :=
  if condition then pure () else failure

def u8 (value : UInt8) : Encoder Unit := extend [value]

def u32 (value : UInt32) : Encoder Unit := extend (leBytes 4 value.toNat)

def u64 (value : UInt64) : Encoder Unit := extend (leBytes 8 value.toNat)

def bytes (value : List UInt8) : Encoder Unit := do
  assert (value.length ≤ u32Max)
  u32 (UInt32.ofNat value.length)
  extend value

def string (value : String) : Encoder Unit := bytes value.toByteArray.data.toList

def id (value : TaskId) : Encoder Unit := u64 value.val

def duration (value : ℕ) : Encoder Unit := u64 (UInt64.ofNat (min value u64Max))

def location (value : Location) : Encoder Unit := do
  string value.file
  u32 value.line

/-- `ORIGIN` is set by its first use. -/
def instant (origin : Option ℤ) (value : ℤ) : Encoder Unit :=
  duration ((origin.map fun origin => (value - origin).toNat).getD 0)

def source : WakeSource → Encoder Unit
  | .io fd => do
    u8 0
    u32 fd.toUInt32
  | .timer timer => do
    u8 1
    u64 timer
  | .task task => do
    u8 2
    id task
  | .channel kind => do
    u8 3
    string kind
  | .external => u8 4

def unparkReason (value : UnparkReason) : Encoder Unit :=
  u8 <| match value with
    | .task => 0
    | .shutdown => 1
    | .steal => 2
    | .event => 3

def ids (value : List TaskId) : Encoder Unit := do
  assert (value.length ≤ u32Max)
  u32 (UInt32.ofNat value.length)
  value.forM id

/-- The `match` on an optional field of an event. -/
def option {α : Type} (encoder : α → Encoder Unit) : Option α → Encoder Unit
  | some value => do
    u8 1
    encoder value
  | none => u8 0

/-- The `match` on the result of a poll. -/
def pollResult (value : PollResult) : Encoder Unit :=
  u8 <| match value with
    | .ready => 0
    | .pending => 1
    | .panicked => 2

/-- What `encode_frame` appends to the payload of an event. -/
def payload (origin : Option ℤ) : RuntimeEvent → Encoder Unit
  | .taskSpawned task name sourceLocation parent => do
    u8 0
    id task
    option string name
    location sourceLocation
    option id parent
  | .taskPollStart task worker started => do
    u8 1
    id task
    u32 worker
    instant origin started
  | .taskPollEnd task worker elapsed result => do
    u8 2
    id task
    u32 worker
    duration elapsed
    pollResult result
  | .taskWoken task wakeSource => do
    u8 3
    id task
    source wakeSource
  | .taskDropped task totalPolls totalBusy totalIdle => do
    u8 4
    id task
    u64 totalPolls
    duration totalBusy
    duration totalIdle
  | .taskAborted task => do
    u8 5
    id task
  | .workerPark worker timeout => do
    u8 6
    u32 worker
    option duration timeout
  | .workerUnpark worker reason => do
    u8 7
    u32 worker
    unparkReason reason
  | .workerSteal thief victim count => do
    u8 8
    u32 thief
    u32 victim
    u64 count
  | .queueDepth worker localDepth globalDepth lifo => do
    u8 9
    u32 worker
    u64 localDepth
    u64 globalDepth
    u8 (if lifo then 1 else 0)
  | .ioRegistered fd interest task => do
    u8 10
    u32 fd.toUInt32
    string interest
    id task
  | .ioReady fd readiness woke => do
    u8 11
    u32 fd.toUInt32
    string readiness
    ids woke
  | .timerSet timer deadline task => do
    u8 12
    u64 timer
    instant origin deadline
    id task
  | .timerFired timer lateness => do
    u8 13
    u64 timer
    duration lateness
  | .timerCancelled timer => do
    u8 14
    u64 timer
  | .blockingDetected task pollDuration sourceLocation => do
    u8 15
    id task
    duration pollDuration
    location sourceLocation
  | .budgetExhausted task => do
    u8 16
    id task
  | .resourceContended kind holder waiters => do
    u8 17
    string kind
    id holder
    ids waiters

end Encoder

/-- `none` is a panic. -/
def encodeFrame (origin : Option ℤ) (event : RuntimeEvent) : Option (List UInt8) :=
  match Encoder.payload origin event [] with
  | some ((), payload) =>
    if payload.length ≤ u32Max then some (leBytes 4 payload.length ++ payload) else none
  | none => none

end Eddy.Instrument
