import Eddy.Interleaving
import Eddy.Slab
import Eddy.CompletionQueue
import Mathlib.Data.Nat.Bitwise

/-!
# The io_uring backend

The tables of `io/uring.rs` and the kernel's side of the ring. A buffer is known by its length.
A completion carries the submission it answers, of which the code reads the `user_data` only.
-/

namespace Eddy.Uring
open Function (update)

inductive ErrorKind where
  | wouldBlock | invalidInput | invalidData | other
  deriving DecidableEq

inductive IoError where
  | os (code : ℤ)
  | new (kind : ErrorKind) (message : String)

/-- `from_raw_os_error(-(res as i64) as i32)` -/
def osError (res : ℤ) : IoError := .os (Int.bmod (-res) (2 ^ 32))

def submissionQueueFull : IoError := .new .wouldBlock "eddy: io_uring submission queue is full"

inductive Opcode where
  | readv | writev | timeout | accept | asyncCancel | connect | close | read | write | send | recv
  | provideBuffers | removeBuffers
  deriving DecidableEq

/-- Submissions that serve another one. -/
def Opcode.control : Opcode → Bool
  | .asyncCancel | .provideBuffers | .removeBuffers => true
  | _ => false

inductive OpResource where
  | buffer (length : ℕ)
  | vectored (iovecs : ℕ)
  | address (length : ℕ)
  | fixedBuffer (index length : ℕ)
  | fixedFileBuffer (index length : ℕ)
  | accept
  | multishotAccept
  | multishotRecv (length : ℕ)
  | close
  deriving DecidableEq

/-- What the address of a submission refers to. -/
inductive Address where
  | null
  /-- The memory of the operation's own resource, from this byte on. -/
  | resource (start : ℕ)
  | userData (target : ℕ)
  deriving DecidableEq

namespace OpResource

def addrLen : OpResource → Except IoError (Address × ℕ)
  | .buffer length =>
    if length < 2 ^ 32 then .ok (.resource 0, length)
    else .error (.new .invalidInput "eddy: io_uring buffer is too large")
  | .vectored iovecs =>
    if iovecs < 2 ^ 32 then .ok (.resource 0, iovecs)
    else .error (.new .invalidInput "eddy: too many io_uring vectors")
  | .address length => .ok (.resource 0, length)
  | .fixedBuffer _ length => .ok (.resource 0, length)
  | .fixedFileBuffer _ length =>
    if length < 2 ^ 32 then .ok (.resource 0, length)
    else .error (.new .invalidInput "eddy: fixed-file buffer is too large")
  | .accept | .multishotAccept | .multishotRecv _ | .close => .ok (.null, 0)

def bufferIndex : OpResource → ℕ
  | .fixedBuffer index _ => index
  | _ => 0

def fixedFileIndex : OpResource → Option ℤ
  | .fixedFileBuffer index _ => some index
  | _ => none

def poolLength : OpResource → ℕ
  | .multishotRecv length => length
  | _ => 0

end OpResource

def fixedFile : ℕ := 1
def ioDrain : ℕ := 2
def bufferSelect : ℕ := 32
def acceptMultishot : ℕ := 1
def recvMultishot : ℕ := 2
/-- `SOCK_NONBLOCK | SOCK_CLOEXEC` -/
def acceptFlags : ℕ := 0x800 + 0x80000

structure Sqe where
  opcode : Opcode
  flags : ℕ := 0
  ioprio : ℕ := 0
  fd : ℤ
  off : ℕ := 0
  addr : Address := .null
  len : ℕ := 0
  rwFlags : ℕ := 0
  userData : ℕ
  bufIndex : ℕ := 0
  /-- The operation that is served, which the kernel does not see: for an operation its own
  `user_data`. -/
  owner : ℕ
  deriving DecidableEq

def Sqe.multishot (sqe : Sqe) : Bool :=
  (sqe.opcode = .accept && sqe.ioprio = acceptMultishot) ||
    (sqe.opcode = .recv && sqe.ioprio = recvMultishot)

structure Cqe where
  sqe : Sqe
  res : ℤ
  flags : ℕ
  deriving DecidableEq

namespace Cqe

def userData (cqe : Cqe) : ℕ := cqe.sqe.userData

def hasBuffer (cqe : Cqe) : Bool := cqe.flags.testBit 0

def more (cqe : Cqe) : Bool := cqe.flags.testBit 1

def bufferId (cqe : Cqe) : ℕ := cqe.flags >>> 16

/-- The kernel posts no completion of the submission after this one. -/
def last (cqe : Cqe) : Bool := !(cqe.sqe.multishot && cqe.more)

end Cqe

inductive MultishotEvent where
  | accept (result : Except IoError ℕ)
  /-- The length of the data and where it was copied from. -/
  | recv (result : Except IoError (ℕ × ℕ))

inductive MultishotEventKind where
  | accept
  | recv (bufferSize bufferGroup : ℕ)
  deriving DecidableEq

structure MultishotState where
  eventKind : MultishotEventKind
  events : List MultishotEvent
  terminal : Bool
  cleanupComplete : Bool
  cleanupUserData : Option ℕ

structure OrphanedOp where
  resource : OpResource
  userData : ℕ
  multishot : Option MultishotState

structure OpState extends OrphanedOp where
  result : Option (Except IoError ℕ)
  waker : Option ℕ

structure Ring where
  sqEntries : ℕ
  sqpoll : Bool
  ops : Slab OpState
  opsByUserData : ℕ → Option ℕ
  orphaned : Slab OrphanedOp
  orphanedByUserData : ℕ → Option ℕ
  cancelTargets : ℕ → Option ℕ
  provideTargets : ℕ → Option ℕ
  cleanupTargets : ℕ → Bool
  nextUserData : ℕ
  nextBufferGroup : ℕ
  sqPending : ℕ
  io : Traffic Sqe Cqe
  /-- How often `next_user_data` was called. -/
  allocated : ℕ
  /-- The operations that were submitted and whose resource was then dropped or returned. -/
  released : List OrphanedOp
  /-- The operations that `orphan` took from their future. -/
  dropped : List ℕ
  /-- The streams that `multishot_finished` found finished. -/
  ended : List ℕ
  /-- Accepted descriptors that were returned to a caller, with their operation. -/
  transferred : List (ℕ × ℕ)
  /-- Accepted descriptors that were closed, with their operation. -/
  closed : List (ℕ × ℕ)

def Ring.new (sqEntries : ℕ) (sqpoll : Bool) : Ring where
  sqEntries := sqEntries
  sqpoll := sqpoll
  ops := .empty
  opsByUserData := fun _ => none
  orphaned := .empty
  orphanedByUserData := fun _ => none
  cancelTargets := fun _ => none
  provideTargets := fun _ => none
  cleanupTargets := fun _ => false
  nextUserData := 1
  nextBufferGroup := 1
  sqPending := 0
  io := .empty
  allocated := 0
  released := []
  dropped := []
  ended := []
  transferred := []
  closed := []

def MultishotEvent.fds : MultishotEvent → List ℕ
  | .accept (.ok fd) => [fd]
  | _ => []

namespace Ring

/-- `close` is called on the descriptors, which were accepted for this operation. -/
def close (r : Ring) (userData : ℕ) (fds : List ℕ) : Ring :=
  { r with
    closed := r.closed ++ fds.map (userData, ·) }

/-- The descriptors become `OwnedFd`s of the caller. -/
def transfer (r : Ring) (userData : ℕ) (fds : List ℕ) : Ring :=
  { r with
    transferred := r.transferred ++ fds.map (userData, ·) }

/-- `ops.remove(key)`, and the value is dropped or its resource returned. -/
def dropOp (r : Ring) (key : ℕ) : Ring :=
  { r with
    ops := r.ops.remove key
    released := r.released ++ ((r.ops.get key).map OpState.toOrphanedOp).toList }

/-- `orphaned.remove(key)`, and the value is dropped. -/
def dropOrphan (r : Ring) (key : ℕ) : Ring :=
  { r with
    orphaned := r.orphaned.remove key
    released := r.released ++ (r.orphaned.get key).toList }

end Ring

def nextUserData (r : Ring) : Except IoError ℕ × Ring :=
  let candidate := r.nextUserData
  (if candidate ≠ 0 ∧ r.opsByUserData candidate = none ∧ r.orphanedByUserData candidate = none ∧
      r.provideTargets candidate = none ∧ r.cleanupTargets candidate = false then .ok candidate
    else .error (.new .other "eddy: io_uring user_data space exhausted"),
  { r with
    nextUserData := max ((candidate + 1) % 2 ^ 64) 1
    allocated := r.allocated + 1 })

def sqSpaceLocked (r : Ring) : ℕ := r.sqEntries - r.io.sq.length

def queueSqeLocked (r : Ring) (sqe : Sqe) : Except IoError Ring :=
  if r.sqEntries ≤ r.io.sq.length then .error submissionQueueFull
  else .ok { r with io := r.io.queue sqe, sqPending := r.sqPending + 1 }

/-- The answer is what the kernel does with the submissions: take this many, or fail. -/
def submitInner (r : Ring) (answer : Option ℕ) : Bool × Ring :=
  if r.sqPending = 0 then (true, r)
  else match answer with
    | none => (false, r)
    | some n =>
      -- With SQPOLL the kernel takes submissions at any time and `enter` only wakes its thread.
      if r.sqpoll then (true, { r with sqPending := 0 })
      else
        let submitted := min n r.sqPending
        (true, { r with io := r.io.consume submitted, sqPending := r.sqPending - submitted })

/-- The futures that call `start_op`. -/
inductive Request where
  | read (fd : ℤ) (length offset : ℕ)
  | write (fd : ℤ) (length offset : ℕ)
  | readv (fd : ℤ) (iovecs offset : ℕ)
  | writev (fd : ℤ) (iovecs offset : ℕ)
  | accept (fd : ℤ)
  | connect (fd : ℤ) (length : ℕ)
  | send (fd : ℤ) (length : ℕ)
  | recv (fd : ℤ) (length : ℕ)
  | readFixedBuffer (fd : ℤ) (index length : ℕ)
  | writeFixedBuffer (fd : ℤ) (index length : ℕ)
  | readFixedFile (index length : ℕ)
  | writeFixedFile (index length : ℕ)
  | close (fd : ℤ)
  | timeout

namespace Request

def opcode : Request → Opcode
  | .read .. | .readFixedBuffer .. | .readFixedFile .. => .read
  | .write .. | .writeFixedBuffer .. | .writeFixedFile .. => .write
  | .readv .. => .readv
  | .writev .. => .writev
  | .accept _ => .accept
  | .connect .. => .connect
  | .send .. => .send
  | .recv .. => .recv
  | .close _ => .close
  | .timeout => .timeout

def fd : Request → ℤ
  | .read fd .. | .write fd .. | .readv fd .. | .writev fd .. | .accept fd | .connect fd _
  | .send fd _ | .recv fd _ | .readFixedBuffer fd .. | .writeFixedBuffer fd .. | .close fd => fd
  | .readFixedFile .. | .writeFixedFile .. | .timeout => -1

def resource : Request → OpResource
  | .read _ length _ | .write _ length _ | .send _ length | .recv _ length => .buffer length
  | .readv _ iovecs _ | .writev _ iovecs _ => .vectored iovecs
  | .accept _ => .accept
  | .connect _ length => .address length
  | .readFixedBuffer _ index length | .writeFixedBuffer _ index length => .fixedBuffer index length
  | .readFixedFile index length | .writeFixedFile index length => .fixedFileBuffer index length
  | .close _ => .close
  | .timeout => .buffer 16

def offset : Request → ℕ
  | .read _ _ offset | .write _ _ offset | .readv _ _ offset | .writev _ _ offset => offset
  | _ => 0

def length : Request → ℕ
  | .read _ length _ | .write _ length _ | .send _ length | .recv _ length
  | .readFixedBuffer _ _ length | .writeFixedBuffer _ _ length => length
  | .timeout => 1
  | _ => 0

def rwFlags : Request → ℕ
  | .accept _ => acceptFlags
  | _ => 0

def sqe (q : Request) (userData : ℕ) (addr : Address) (resourceLength : ℕ) : Sqe where
  opcode := q.opcode
  flags := if q.resource.fixedFileIndex.isSome then fixedFile else 0
  fd := q.resource.fixedFileIndex.getD q.fd
  off := if q.opcode = .connect then resourceLength else q.offset
  addr := addr
  len := if q.opcode = .connect then 0 else if q.length = 0 then resourceLength else q.length
  rwFlags := q.rwFlags
  userData := userData
  bufIndex := q.resource.bufferIndex
  owner := userData

end Request

/-- `key` is the slot that the slab chooses. -/
def startOp (r : Ring) (key : ℕ) (q : Request) (waker : ℕ) :
    Except (IoError × OpResource) ℕ × Ring :=
  match nextUserData r with
  | (.error error, r) => (.error (error, q.resource), r)
  | (.ok userData, r) =>
    let r := { r with
      ops := r.ops.insert key ⟨⟨q.resource, userData, none⟩, none, some waker⟩
      opsByUserData := update r.opsByUserData userData (some key) }
    -- The submission is not queued, so the resource goes back to the caller unused.
    let undo (r : Ring) : Ring :=
      { r with
        opsByUserData := update r.opsByUserData userData none
        ops := r.ops.remove key }
    match q.resource.addrLen with
    | .error error => (.error (error, q.resource), undo r)
    | .ok (addr, resourceLength) =>
      match queueSqeLocked r (q.sqe userData addr resourceLength) with
      | .error error => (.error (error, q.resource), undo r)
      | .ok r => (.ok key, r)

def startMultishotAccept (r : Ring) (key : ℕ) (fd : ℤ) (waker : ℕ) : Except IoError ℕ × Ring :=
  if sqSpaceLocked r < 1 then (.error submissionQueueFull, r)
  else match nextUserData r with
    | (.error error, r) => (.error error, r)
    | (.ok userData, r) =>
      let r := { r with
        ops := r.ops.insert key
          ⟨⟨.multishotAccept, userData, some ⟨.accept, [], false, true, none⟩⟩, none, some waker⟩
        opsByUserData := update r.opsByUserData userData (some key) }
      match queueSqeLocked r
        { opcode := .accept, ioprio := acceptMultishot, fd := fd, rwFlags := acceptFlags,
          userData := userData, owner := userData } with
      | .error error =>
        (.error error, { r with
          opsByUserData := update r.opsByUserData userData none
          ops := r.ops.remove key })
      | .ok r => (.ok key, r)

def startMultishotRecv (r : Ring) (key : ℕ) (fd : ℤ) (bufferSize bufferCount waker : ℕ) :
    Except IoError ℕ × Ring :=
  if 2 ^ 32 ≤ bufferSize then
    (.error (.new .invalidInput "eddy: multishot receive buffer is too large"), r)
  else if 2 ^ 16 ≤ bufferCount then
    (.error (.new .invalidInput "eddy: too many multishot receive buffers"), r)
  else if bufferSize = 0 ∨ bufferCount = 0 then
    (.error (.new .invalidInput "eddy: multishot receive buffers must be non-empty"), r)
  else if sqSpaceLocked r < 2 then (.error submissionQueueFull, r)
  else match nextUserData r with
    | (.error error, r) => (.error error, r)
    | (.ok userData, r) =>
      let bufferGroup := r.nextBufferGroup
      let r := { r with
        nextBufferGroup := max ((bufferGroup + 1) % 2 ^ 16) 1
        ops := r.ops.insert key
          ⟨⟨.multishotRecv (bufferSize * bufferCount), userData,
            some ⟨.recv bufferSize bufferGroup, [], false, false, none⟩⟩, none, some waker⟩
        opsByUserData := update r.opsByUserData userData (some key) }
      match nextUserData r with
      | (.error error, r) => (.error error, r)
      | (.ok controlUserData, r) =>
        match queueSqeLocked r
          { opcode := .provideBuffers, fd := bufferCount, addr := .resource 0, len := bufferSize,
            userData := controlUserData, bufIndex := bufferGroup, owner := userData } with
        | .error error => (.error error, r)
        | .ok r =>
          let r := { r with
            provideTargets := update r.provideTargets controlUserData (some userData) }
          match queueSqeLocked r
            { opcode := .recv, flags := ioDrain + bufferSelect, ioprio := recvMultishot, fd := fd,
              len := bufferSize, userData := userData, bufIndex := bufferGroup,
              owner := userData } with
          | .error error =>
            (.error error, Ring.dropOp { r with
              provideTargets := update r.provideTargets controlUserData none
              opsByUserData := update r.opsByUserData userData none } key)
          | .ok r => (.ok key, r)

def takeResult (r : Ring) (key : ℕ) : Option (Except IoError ℕ × OpResource) × Ring :=
  match r.ops.get key with
  | none => (none, r)
  | some op =>
    match op.result with
    | none => (none, r)
    | some result =>
      (some (result, op.resource), { r.dropOp key with
        opsByUserData := update r.opsByUserData op.userData none })

def takeMultishotEvent (r : Ring) (key : ℕ) : Option MultishotEvent × Ring :=
  match (r.ops.get key).bind fun op => op.multishot with
  | none => (none, r)
  | some multishot =>
    match multishot.events with
    | [] => (none, r)
    | event :: events =>
      (some event, { r with
        ops := r.ops.modify key fun op =>
          { op with multishot := some { multishot with events := events } } })

def MultishotState.finished (m : MultishotState) : Bool :=
  m.terminal && m.events.isEmpty && m.cleanupComplete

def multishotFinished (r : Ring) (key : ℕ) : Bool :=
  ((r.ops.get key).bind fun op => op.multishot).any MultishotState.finished

def removeMultishot (r : Ring) (key : ℕ) : Ring :=
  match r.ops.get key with
  | none => r
  | some op =>
    { r.dropOp key with
      opsByUserData := update r.opsByUserData op.userData none }

/-- The last section of a poll that returns `Pending`. -/
def storeWaker (r : Ring) (key waker : ℕ) : Ring :=
  { r with
    ops := r.ops.modify key fun op => { op with waker := some waker } }

def OpState.complete? (op : OpState) : Bool :=
  op.result.isSome || op.multishot.any MultishotState.terminal

/-- The descriptors that `orphan` closes when the operation is complete. -/
def OpState.unclaimedFds (op : OpState) : List ℕ :=
  (match op.resource, op.result with
    | .accept, some (.ok fd) => [fd]
    | _, _ => []) ++ op.multishot.elim [] fun m => m.events.flatMap MultishotEvent.fds

/-- The locked part of `orphan`: the operation that is to be cancelled. -/
def orphan (r : Ring) (key orphanKey : ℕ) : Option ℕ × Ring :=
  match r.ops.get key with
  | none => (none, r)
  | some op =>
    let opsByUserData := update r.opsByUserData op.userData none
    let dropped := r.dropped ++ [op.userData]
    if op.complete? then
      (none, { (r.dropOp key).close op.userData op.unclaimedFds with
        opsByUserData := opsByUserData
        dropped := dropped })
    else
      (some op.userData, { r with
        ops := r.ops.remove key
        opsByUserData := opsByUserData
        orphaned := r.orphaned.insert orphanKey op.toOrphanedOp
        orphanedByUserData :=
          update r.orphanedByUserData op.userData (some orphanKey)
        dropped := dropped })

/-- The first locked part of `submit_cancel`: the cancellation that was queued. -/
def queueCancel (r : Ring) (target : ℕ) : Option ℕ × Ring :=
  match nextUserData r with
  | (.error _, r) => (none, r)
  | (.ok cancelUserData, r) =>
    match queueSqeLocked r
      { opcode := .asyncCancel, fd := -1, addr := .userData target, userData := cancelUserData,
        owner := target } with
    | .error _ => (none, r)
    | .ok r =>
      (some cancelUserData, { r with
        cancelTargets := update r.cancelTargets cancelUserData (some target) })

/-- A buffer of the pool that goes back to the kernel. -/
structure Refill where
  start : ℕ
  length : ℕ
  bufferGroup : ℕ
  bufferId : ℕ

def queueProvideBufferLocked (r : Ring) (target : ℕ) (refill : Refill) :
    Except IoError Unit × Ring :=
  match nextUserData r with
  | (.error error, r) => (.error error, r)
  | (.ok userData, r) =>
    match queueSqeLocked r
      { opcode := .provideBuffers, fd := 1, off := refill.bufferId, addr := .resource refill.start,
        len := refill.length, userData := userData, bufIndex := refill.bufferGroup,
        owner := target } with
    | .error error => (.error error, r)
    | .ok r =>
      (.ok (), { r with
        provideTargets := update r.provideTargets userData (some target) })

def queueRemoveBuffersLocked (r : Ring) (target bufferCount bufferGroup : ℕ) :
    Except IoError ℕ × Ring :=
  match nextUserData r with
  | (.error error, r) => (.error error, r)
  | (.ok userData, r) =>
    match queueSqeLocked r
      { opcode := .removeBuffers, flags := ioDrain, fd := bufferCount, userData := userData,
        bufIndex := bufferGroup, owner := target } with
    | .error error => (.error error, r)
    | .ok r =>
      (.ok userData, { r with
        provideTargets := update r.provideTargets userData (some target)
        cleanupTargets := update r.cleanupTargets userData true })

def cleanupRequest (op : OrphanedOp) : Option (ℕ × ℕ × ℕ) :=
  op.multishot.bind fun m =>
    if !m.terminal || m.cleanupComplete || m.cleanupUserData.isSome then none
    else match m.eventKind with
      | .accept => none
      | .recv bufferSize bufferGroup =>
        let count := op.resource.poolLength / bufferSize
        if count < 2 ^ 16 then some (op.userData, count, bufferGroup) else none

def OrphanedOp.setCleanup (op : OrphanedOp) (userData : ℕ) : OrphanedOp :=
  { op with
    multishot := op.multishot.map fun m => { m with cleanupUserData := some userData } }

def OpState.setCleanup (op : OpState) (userData : ℕ) : OpState :=
  { op with toOrphanedOp := op.toOrphanedOp.setCleanup userData }

/-- One round of the loop of `queue_pending_cleanups_locked`. -/
def queueCleanup (r : Ring) (request : ℕ × ℕ × ℕ) : Bool × Ring :=
  let (target, count, group) := request
  match queueRemoveBuffersLocked r target count group with
  | (.error _, r) => (false, r)
  | (.ok userData, r) =>
    (true, { r with
      ops := (r.ops.find fun op => op.userData == target).elim r.ops fun key =>
        r.ops.modify key (OpState.setCleanup · userData)
      orphaned := (r.orphaned.find fun op => op.userData == target).elim r.orphaned fun key =>
        r.orphaned.modify key (OrphanedOp.setCleanup · userData) })

def queueCleanups (r : Ring) : List (ℕ × ℕ × ℕ) → Bool × Ring
  | [] => (false, r)
  | request :: requests =>
    let (queued, r) := queueCleanup r request
    let (more, r) := queueCleanups r requests
    (queued || more, r)

def queuePendingCleanupsLocked (r : Ring) : Bool × Ring :=
  queueCleanups r ((r.ops.values.map OpState.toOrphanedOp ++ r.orphaned.values).filterMap
    cleanupRequest)

/-- The event of a completion, and the buffer that it gives back. -/
def MultishotState.event (m : MultishotState) (resource : OpResource) (cqe : Cqe) :
    MultishotEvent × Option Refill :=
  match m.eventKind with
  | .accept =>
    (.accept (if cqe.res < 0 then .error (osError cqe.res) else .ok cqe.res.toNat), none)
  | .recv bufferSize bufferGroup =>
    if cqe.res < 0 then (.recv (.error (osError cqe.res)), none)
    else if !cqe.hasBuffer then
      (.recv (.error (.new .invalidData "eddy: multishot receive CQE did not select a buffer")),
        none)
    else
      let start := cqe.bufferId * bufferSize
      let length := cqe.res.toNat
      if resource.poolLength / bufferSize ≤ cqe.bufferId ∨ bufferSize < length then
        (.recv (.error (.new .invalidData "eddy: multishot receive returned an invalid buffer")),
          none)
      else
        (.recv (.ok (length, start)),
          if cqe.more then some ⟨start, bufferSize, bufferGroup, cqe.bufferId % 2 ^ 16⟩ else none)

/-- An operation that has a future, after one of its completions. -/
def OpState.answered (op : OpState) (cqe : Cqe) : OpState :=
  match op.multishot with
  | some m =>
    { op with
      multishot := some { m with
        events := m.events ++ [(m.event op.resource cqe).1]
        terminal := !cqe.more }
      waker := none }
  | none =>
    { op with
      result := some (if cqe.res < 0 then .error (osError cqe.res) else .ok cqe.res.toNat)
      waker := none }

def OpState.refill (op : OpState) (cqe : Cqe) : Option Refill :=
  op.multishot.bind fun m => (m.event op.resource cqe).2

/-- An operation without a future, after one of its completions; `none` when it is removed. -/
def OrphanedOp.answered (op : OrphanedOp) (cqe : Cqe) : Option OrphanedOp :=
  match op.multishot with
  | some m =>
    if cqe.more then some op
    else if m.cleanupComplete then none
    else some { op with multishot := some { m with terminal := true } }
  | none => none

/-- The descriptor that is closed when a completion finds the operation without a future. -/
def OrphanedOp.unclaimedFds (op : OrphanedOp) (cqe : Cqe) : List ℕ :=
  if op.resource = (if op.multishot.isSome then .multishotAccept else .accept) ∧ 0 ≤ cqe.res
  then [cqe.res.toNat] else []

def OpState.cleaned (op : OpState) (res : ℤ) : OpState :=
  match op.multishot with
  | some m =>
    { op with
      multishot := some { m with
        cleanupUserData := none
        cleanupComplete := m.cleanupComplete || decide (0 ≤ res) }
      waker := none }
  | none => op

/-- `none` when the operation is removed. -/
def OrphanedOp.cleaned (op : OrphanedOp) (res : ℤ) : Option OrphanedOp :=
  match op.multishot with
  | some m =>
    if 0 ≤ res ∧ m.terminal = true ∧ m.events.isEmpty = true then none
    else some { op with
      multishot := some { m with
        cleanupUserData := none
        cleanupComplete := decide (0 ≤ res) } }
  | none => some op

def OpState.provideFailed (op : OpState) (res : ℤ) : OpState :=
  match op.multishot with
  | some m =>
    { op with
      multishot := some { m with
        events := m.events ++ [match m.eventKind with
          | .accept => .accept (.error (osError res))
          | .recv .. => .recv (.error (osError res))]
        terminal := true }
      waker := none }
  | none => op

def OpState.streamWaker (op : OpState) : List ℕ :=
  if op.multishot.isSome then op.waker.toList else []

def reapCancel (r : Ring) (target : ℕ) (res : ℤ) : Ring :=
  if res = 0 then
    match r.orphanedByUserData target with
    | some key =>
      let r := { r with
        orphanedByUserData := update r.orphanedByUserData target none }
      if ((r.orphaned.get key).bind OrphanedOp.multishot).isNone then r.dropOrphan key
      else { r with
        orphanedByUserData := update r.orphanedByUserData target (some key) }
    | none =>
      match r.opsByUserData target with
      | some key =>
        let r := { r with
          opsByUserData := update r.opsByUserData target none }
        if ((r.ops.get key).bind fun op => op.multishot).isNone then r.dropOp key
        else { r with
          opsByUserData := update r.opsByUserData target (some key) }
      | none => r
  else r

/-- The completion of a `REMOVE_BUFFERS`, and the wakers that it takes. -/
def reapCleanup (r : Ring) (target : ℕ) (res : ℤ) : Ring × List ℕ :=
  match r.opsByUserData target with
  | some key =>
    ({ r with
      ops := r.ops.modify key (OpState.cleaned · res) },
      (r.ops.get key).elim [] OpState.streamWaker)
  | none =>
    match r.orphanedByUserData target with
    | some key =>
      match r.orphaned.get key with
      | none => (r, [])
      | some op =>
        match op.cleaned res with
        | some op' => ({ r with orphaned := r.orphaned.modify key fun _ => op' }, [])
        | none =>
          (Ring.dropOrphan { r with
            orphanedByUserData := update r.orphanedByUserData target none } key, [])
    | none => (r, [])

/-- The completion of a `PROVIDE_BUFFERS`, and the wakers that it takes. -/
def reapProvide (r : Ring) (target : ℕ) (res : ℤ) : Ring × List ℕ :=
  if res < 0 then
    match r.opsByUserData target with
    | some key =>
      ({ r with
        ops := r.ops.modify key (OpState.provideFailed · res) },
        (r.ops.get key).elim [] OpState.streamWaker)
    | none => (r, [])
  else (r, [])

def reapOp (r : Ring) (key : ℕ) (cqe : Cqe) : Ring × List ℕ × Bool :=
  match r.ops.get key with
  | none => (r, [], false)
  | some op =>
    let r := { r with
      ops := r.ops.modify key (OpState.answered · cqe) }
    match op.refill cqe with
    | none => (r, op.waker.toList, false)
    | some refill =>
      let (queued, r) := queueProvideBufferLocked r cqe.userData refill
      (r, op.waker.toList, queued.toBool)

def reapOrphan (r : Ring) (key : ℕ) (cqe : Cqe) : Ring :=
  match r.orphaned.get key with
  | none => r
  | some op =>
    let r := r.close cqe.userData (op.unclaimedFds cqe)
    match op.answered cqe with
    | some op' => { r with orphaned := r.orphaned.modify key fun _ => op' }
    | none =>
      Ring.dropOrphan { r with
        orphanedByUserData := update r.orphanedByUserData cqe.userData none } key

/-- One round of the loop of `reap_completions_inner`: the wakers that are taken, and whether a
buffer was queued. -/
def reapCqe (r : Ring) (cqe : Cqe) : Ring × List ℕ × Bool :=
  match r.cancelTargets cqe.userData with
  | some target =>
    (reapCancel { r with
      cancelTargets := update r.cancelTargets cqe.userData none } target cqe.res, [], false)
  | none =>
    match r.provideTargets cqe.userData with
    | some target =>
      let isCleanup := r.cleanupTargets cqe.userData
      let r := { r with
        provideTargets := update r.provideTargets cqe.userData none
        cleanupTargets := update r.cleanupTargets cqe.userData false }
      let (r, wake) := if isCleanup then reapCleanup r target cqe.res else reapProvide r target cqe.res
      (r, wake, false)
    | none =>
      match r.opsByUserData cqe.userData with
      | some key => reapOp r key cqe
      | none =>
        match r.orphanedByUserData cqe.userData with
        | some key => (reapOrphan r key cqe, [], false)
        | none => (r, [], false)

end Eddy.Uring
