import Eddy.Uring

/-!
# Futures and streams on a ring

Every section of the code that holds the lock of the ring is one step, and so is every step of
the kernel. A reaper holds the lock from its first completion to its last; it submits and wakes
after it has released it. A slot runs one future after the other.
-/

namespace Eddy.Uring
open Interleaving

structure Future where
  key : ℕ
  /-- The `user_data` that was allocated when the future started its operation. -/
  userData : ℕ
  multishot : Bool
  /-- The waker of the last poll, and how many wakers had been woken when that poll began. -/
  waker : ℕ
  since : ℕ
  deriving DecidableEq

inductive Slot where
  /-- There is no key: nothing was started yet, or the operation is over. -/
  | idle
  | started (f : Future)
  /-- The first `submit` failed. -/
  | failed (f : Future)
  /-- The last poll returned `Pending`. -/
  | pending (f : Future)
  /-- The last poll of a stream returned an item. -/
  | ready (f : Future)
  /-- A poll found no result or event. -/
  | polled (f : Future)
  | unfinished (f : Future)
  | finished (f : Future)
  | cancelling (target : ℕ)
  | submitting (cancelUserData : ℕ)
  | uncancelling (cancelUserData : ℕ)
  deriving DecidableEq

def Slot.future : Slot → Option Future
  | .started f | .failed f | .pending f | .ready f | .polled f | .unfinished f | .finished f =>
    some f
  | .idle | .cancelling _ | .submitting _ | .uncancelling _ => none

inductive Start where
  | op (request : Request)
  | acceptMultishot (fd : ℤ)
  | recvMultishot (fd : ℤ) (bufferSize bufferCount : ℕ)

def Start.multishot : Start → Bool
  | .op _ => false
  | .acceptMultishot _ | .recvMultishot .. => true

/-- The key of the operation, unless it could not be started. -/
def Start.run (r : Ring) (key waker : ℕ) : Start → Option ℕ × Ring
  | .op request =>
    let (result, r) := startOp r key request waker
    (result.toOption, r)
  | .acceptMultishot fd =>
    let (result, r) := startMultishotAccept r key fd waker
    (result.toOption, r)
  | .recvMultishot fd bufferSize bufferCount =>
    let (result, r) := startMultishotRecv r key fd bufferSize bufferCount waker
    (result.toOption, r)

inductive ClientMove where
  | start (key : ℕ) (start : Start) (waker : ℕ)
  | submit (answer : Option ℕ)
  | poll (waker : ℕ)
  | check
  | finish
  | register
  | drop (orphanKey : ℕ)
  | cancel
  | uncancel

/-- The descriptor in the result of an `AcceptOwned`. -/
def acceptedFd : Except IoError ℕ × OpResource → List ℕ
  | (.ok fd, .accept) => [fd]
  | _ => []

/-- The first section of a poll of a future that has a key. -/
def poll (r : Ring) (f : Future) : Ring × Slot :=
  if f.multishot then
    match takeMultishotEvent r f.key with
    | (some event, r) => (r.transfer f.userData event.fds, .ready f)
    | (none, r) => (r, .polled f)
  else
    match takeResult r f.key with
    | (some result, r) => (r.transfer f.userData (acceptedFd result), .idle)
    | (none, r) => (r, .polled f)

/-- The section of `orphan`, after which the caller goes on to cancel the operation. -/
def dropFuture (r : Ring) (f : Future) (orphanKey : ℕ) : Option (Ring × Slot) :=
  if r.orphaned.Vacant orphanKey then
    match orphan r f.key orphanKey with
    | (some target, r) => some (r, .cancelling target)
    | (none, r) => some (r, .idle)
  else none

/-- One section of a future's code, when `now` wakers have been woken. -/
def clientStep (r : Ring) (now : ℕ) : Slot → ClientMove → Option (Ring × Slot)
  | .idle, .start key start waker =>
    if r.ops.Vacant key then
      match start.run r key waker with
      | (some key, r') =>
        some (r', .started ⟨key, r.nextUserData, start.multishot, waker, now⟩)
      | (none, r') => some (r', .idle)
    else none
  | .started f, .submit answer =>
    match submitInner r answer with
    | (true, r) => some (r, .pending f)
    | (false, r) => some (r, .failed f)
  | .failed f, .drop orphanKey => dropFuture r f orphanKey
  | .pending f, .drop orphanKey => dropFuture r f orphanKey
  | .ready f, .drop orphanKey => dropFuture r f orphanKey
  | .pending f, .poll waker => some (poll r { f with waker := waker, since := now })
  | .ready f, .poll waker => some (poll r { f with waker := waker, since := now })
  | .polled f, .check =>
    if f.multishot then
      if multishotFinished r f.key then
        some ({ r with ended := r.ended ++ [f.userData] }, .finished f)
      else some (r, .unfinished f)
    else none
  | .finished f, .finish => some (removeMultishot r f.key, .idle)
  | .polled f, .register =>
    if f.multishot then none else some (storeWaker r f.key f.waker, .pending f)
  | .unfinished f, .register => some (storeWaker r f.key f.waker, .pending f)
  | .cancelling target, .cancel =>
    match queueCancel r target with
    | (some cancelUserData, r) => some (r, .submitting cancelUserData)
    | (none, r) => some (r, .idle)
  | .submitting cancelUserData, .submit answer =>
    match submitInner r answer with
    | (true, r) => some (r, .idle)
    | (false, r) => some (r, .uncancelling cancelUserData)
  | .uncancelling cancelUserData, .uncancel =>
    some ({ r with
      cancelTargets := Function.update r.cancelTargets cancelUserData none }, .idle)
  | _, _ => none

structure Reaper where
  refill : Bool
  wake : List ℕ
  deriving DecidableEq

structure System where
  ring : Ring
  slots : List Slot
  /-- The reaper that holds the lock, and how many completions it has yet to read. -/
  reaping : Option (ℕ × Reaper)
  reapers : List Reaper
  wakes : List ℕ

/-- A new ring of any size, and any number of futures. -/
def System.new (sqEntries : ℕ) (sqpoll : Bool) (futures : ℕ) : System where
  ring := .new sqEntries sqpoll
  slots := List.replicate futures .idle
  reaping := none
  reapers := []
  wakes := []

inductive Label where
  /-- The SQPOLL thread takes submissions. -/
  | consume (n : ℕ)
  /-- The kernel posts a completion of the submission at position `i`. -/
  | post (i : ℕ) (res : ℤ) (flags : ℕ)
  | submit (answer : Option ℕ)
  | client (i : ℕ) (move : ClientMove)
  | reapBegin
  | reapCqe
  | reapEnd
  | reaperSubmit (j : ℕ) (answer : Option ℕ)
  | reaperWake (j : ℕ)
  | reaperReturn (j : ℕ)

namespace System

def step (s : System) : Label → Option System
  | .consume n =>
    if s.ring.sqpoll then
      some { s with
        ring := { s.ring with io := s.ring.io.consume n } }
    else none
  | .post i res flags =>
    (s.ring.io.inFlight[i]?).map fun sqe =>
      { s with
        ring := { s.ring with io := s.ring.io.post Cqe.last i ⟨sqe, res, flags⟩ } }
  | .submit answer =>
    if s.reaping.isNone then
      some { s with
        ring := (submitInner s.ring answer).2 }
    else none
  | .client i move =>
    if s.reaping.isNone then
      (s.slots[i]?).bind fun slot =>
        (clientStep s.ring s.wakes.length slot move).map fun (ring, slot) =>
          { s with
            ring := ring
            slots := s.slots.set i slot }
    else none
  | .reapBegin =>
    if s.reaping.isNone then
      some { s with
        reaping := some (s.ring.io.cq.length, ⟨false, []⟩) }
    else none
  | .reapCqe =>
    match s.reaping with
    | some (available + 1, reaper) =>
      s.ring.io.reap.map fun (cqe, io) =>
        let (ring, wake, refill) := Uring.reapCqe { s.ring with io := io } cqe
        { s with
          ring := ring
          reaping := some (available, ⟨reaper.refill || refill, reaper.wake ++ wake⟩) }
    | _ => none
  | .reapEnd =>
    match s.reaping with
    | some (0, reaper) =>
      let (queued, ring) := queuePendingCleanupsLocked s.ring
      some { s with
        ring := ring
        reaping := none
        reapers := s.reapers ++ [{ reaper with refill := reaper.refill || queued }] }
    | _ => none
  | .reaperSubmit j answer =>
    if s.reaping.isNone then
      match s.reapers[j]? with
      | some ⟨true, wake⟩ =>
        some { s with
          ring := (submitInner s.ring answer).2
          reapers := s.reapers.set j ⟨false, wake⟩ }
      | _ => none
    else none
  | .reaperWake j =>
    match s.reapers[j]? with
    | some ⟨false, waker :: wake⟩ =>
      some { s with
        reapers := s.reapers.set j ⟨false, wake⟩
        wakes := s.wakes ++ [waker] }
    | _ => none
  | .reaperReturn j =>
    match s.reapers[j]? with
    | some ⟨false, []⟩ => some { s with reapers := s.reapers.eraseIdx j }
    | _ => none

end System

end Eddy.Uring
