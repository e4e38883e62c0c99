import Eddy.Interleaving
import Eddy.Slab

/-!
# The multi-producer channel

The channel of `sync/mpsc.rs`. A waiter in the queue of senders is known by the slot of its `Send`
or `Reserve` future. Every operation holds the lock of the state while it reads and changes it.
`Receiver::drop` wakes the waiters after it has released the lock; a waiter that is polled in
between returns at once, so the two are one step here.
-/

namespace Eddy.Mpsc
open Interleaving

universe u

/-- A `Send` or `Reserve` future with its `Waiter`. -/
structure Waiting (α : Type u) where
  /-- The item of a `Send` that was not sent. -/
  item : Option α
  reserves : Bool
  granted : Bool
  waker : Option ℕ
  registered : Bool
  /-- The `Sender` that the future borrows. -/
  sender : ℕ
  /-- How many waiters had registered when the future was first polled. -/
  attempt : Option ℕ
  /-- How many waiters had registered before it did. -/
  turn : ℕ
  /-- The waker that its grant has woken. -/
  woken : Option ℕ

def Waiting.send {α : Type u} (sender : ℕ) (item : α) : Waiting α :=
  ⟨some item, false, false, none, false, sender, none, 0, none⟩

def Waiting.reserve {α : Type u} (sender : ℕ) : Waiting α :=
  ⟨none, true, false, none, false, sender, none, 0, none⟩

def Waiting.attempted {α : Type u} (f : Waiting α) (linked : ℕ) : Waiting α :=
  { f with attempt := some (f.attempt.getD linked) }

structure State (α : Type u) where
  queue : List α
  capacity : Option ℕ
  reserved : ℕ
  senders : ℕ
  receiverAlive : Bool
  recvWaker : Option ℕ
  sendWaiters : List ℕ
  /-- The live `Send` and `Reserve` futures. -/
  futures : Slab (Waiting α)
  /-- How often a waiter was registered. -/
  linked : ℕ
  /-- The turns of the waiters that were granted, in the order of the grants. -/
  grants : List ℕ
  /-- The wakers that were woken. -/
  wakes : List ℕ

/-- What the poll of a `Send` or a `Reserve` returns. -/
inductive Outcome where
  | pending
  | sent
  | permit
  | closed
  deriving DecidableEq

/-- What the poll of a `Recv` returns. -/
inductive Received (α : Type u) where
  | pending
  | item (item : α)
  | none

variable {α : Type u}

def State.new (capacity : Option ℕ) : State α :=
  ⟨[], capacity, 0, 1, true, none, [], .empty, 0, [], []⟩

namespace State

def put (s : State α) (i : ℕ) (f : Waiting α) : State α :=
  { s with futures := s.futures.modify i fun _ => f }

def capacityAvailable (s : State α) : Bool :=
  s.capacity.all fun capacity => s.queue.length + s.reserved < capacity

def wakeReceiver (s : State α) : State α :=
  { s with
    recvWaker := none
    wakes := s.wakes ++ s.recvWaker.toList }

/-- The reservation of a `Reserve` is counted, `granted` is set, and the waker is taken to be
woken. -/
def grant (s : State α) (i : ℕ) : State α :=
  match s.futures.get i with
  | some f =>
    { s.put i { f with granted := true, waker := none, woken := f.waker } with
      reserved := if f.reserves then s.reserved + 1 else s.reserved
      grants := s.grants ++ [f.turn]
      wakes := s.wakes ++ f.waker.toList }
  | none => s

def wakeOneSender (s : State α) : State α :=
  if s.capacityAvailable then
    match s.sendWaiters with
    | i :: rest => { s with sendWaiters := rest }.grant i
    | [] => s
  else s

/-- An item is accepted. -/
def push (s : State α) (item : α) : State α :=
  { s with queue := s.queue ++ [item] }.wakeReceiver

def trySend (s : State α) (item : α) : Option (State α) :=
  if !s.receiverAlive ∨ !s.capacityAvailable ∨ s.sendWaiters ≠ [] then none
  else some (s.push item)

def wait (s : State α) (i : ℕ) (f : Waiting α) (waker : ℕ) : State α :=
  if f.registered then s.put i { f with waker := some waker }
  else
    { s.put i { f with waker := some waker, registered := true, turn := s.linked } with
      sendWaiters := s.sendWaiters ++ [i]
      linked := s.linked + 1 }

/-- `Send::poll` of a future with its item and with budget -/
def pollSend (s : State α) (i : ℕ) (f : Waiting α) (item : α) (waker : ℕ) : Outcome × State α :=
  if !s.receiverAlive then (.closed, s.put i { f with item := none })
  else if f.granted ∧ s.capacityAvailable then
    (.sent, (s.put i { f with
      item := none
      granted := false
      registered := false }).push item)
  else
    -- A grant that was lost to a competing push is given up.
    let f := { f with
      granted := false
      registered := if f.granted then false else f.registered }
    if !f.registered ∧ s.sendWaiters = [] ∧ s.capacityAvailable then
      (.sent, (s.put i { f with item := none }).push item)
    else (.pending, s.wait i f waker)

/-- `Reserve::poll` of a future with budget -/
def pollReserve (s : State α) (i : ℕ) (f : Waiting α) (waker : ℕ) : Outcome × State α :=
  if !s.receiverAlive then (.closed, s.put i f)
  else if f.granted then
    (.permit, s.put i { f with granted := false, registered := false })
  else if !f.registered ∧ s.sendWaiters = [] ∧ s.capacityAvailable then
    (.permit, { s.put i f with reserved := s.reserved + 1 })
  else (.pending, s.wait i f waker)

/-- A `Send` whose item was taken has completed and is not polled again. -/
def poll (s : State α) (i : ℕ) (f : Waiting α) (waker : ℕ) : Option (Outcome × State α) :=
  if f.reserves then some (s.pollReserve i f waker)
  else f.item.map fun item => s.pollSend i f item waker

def unlink (s : State α) (i : ℕ) (f : Waiting α) : State α :=
  { s with
    futures := s.futures.remove i
    sendWaiters := if f.registered then s.sendWaiters.filter (· ≠ i) else s.sendWaiters }

/-- `Drop for Send` and `Drop for Reserve` -/
def dropFuture (s : State α) (i : ℕ) (f : Waiting α) : State α :=
  let s := s.unlink i f
  if f.granted then
    { s with reserved := if f.reserves then s.reserved - 1 else s.reserved }.wakeOneSender
  else s

/-- `Permit::send`: whether it returns `Ok`. -/
def permitSend (s : State α) (item : α) : Bool × State α :=
  let s := { s with reserved := s.reserved - 1 }
  if !s.receiverAlive then (false, s) else (true, s.push item)

def dropPermit (s : State α) : State α :=
  { s with reserved := s.reserved - 1 }.wakeOneSender

def cloneSender (s : State α) : State α := { s with senders := s.senders + 1 }

def dropSender (s : State α) : State α :=
  let s := { s with senders := s.senders - 1 }
  if s.senders = 0 then s.wakeReceiver else s

def recv (s : State α) (waker : ℕ) : Received α × State α :=
  match s.queue with
  | item :: queue => (.item item, { s with queue := queue }.wakeOneSender)
  | [] =>
    if s.senders = 0 then (.none, s)
    else (.pending, { s with recvWaker := some waker })

def wakeWaiter (s : State α) (i : ℕ) : State α :=
  match s.futures.get i with
  | some f =>
    { s.put i { f with waker := none } with wakes := s.wakes ++ f.waker.toList }
  | none => s

def dropReceiver (s : State α) : State α :=
  s.sendWaiters.foldl wakeWaiter { s with
    receiverAlive := false
    sendWaiters := [] }

end State

/-- The `Receiver`: with its channel, after `recv` has returned `None`, or dropped. -/
inductive Receiver where
  | opened
  | ended
  | dropped
  deriving DecidableEq

structure System (α : Type u) where
  state : State α
  /-- The live `Sender`s. -/
  senders : Slab Unit
  receiver : Receiver
  /-- The number of live `Permit`s. -/
  permits : ℕ
  /-- The items for which `send`, `try_send` or `Permit::send` returned `Ok`. -/
  accepted : List α
  /-- The items that `recv` returned. -/
  delivered : List α
  /-- A `recv` has panicked. -/
  panicked : Bool

def System.new (capacity : Option ℕ) : System α :=
  ⟨.new capacity, ⟨[some ()]⟩, .opened, 0, [], [], false⟩

inductive Label (α : Type u) where
  /-- The `Sender` at `k` is cloned to `j`. -/
  | cloneSender (k j : ℕ)
  | dropSender (k : ℕ)
  /-- `Sender::send` of the `Sender` at `k`; the future is at `i`. -/
  | send (k i : ℕ) (item : α)
  | reserve (k i : ℕ)
  | trySend (k : ℕ) (item : α)
  /-- A poll that may have run out of its cooperative budget. -/
  | poll (i : ℕ) (proceed : Bool) (waker : ℕ)
  | dropFuture (i : ℕ)
  | permitSend (item : α)
  | dropPermit
  | recv (proceed : Bool) (waker : ℕ)
  | dropReceiver

namespace System

/-- A new future that borrows the `Sender` at `k`. -/
def start (s : System α) (k i : ℕ) (f : Waiting α) : Option (System α) :=
  if (s.senders.get k).isSome ∧ s.state.futures.Vacant i then
    some { s with state := { s.state with futures := s.state.futures.insert i f } }
  else none

def yield (s : System α) (waker : ℕ) : System α :=
  { s with state := { s.state with wakes := s.state.wakes ++ [waker] } }

/-- The poll of a `Recv` with budget -/
def pollRecv (s : System α) (waker : ℕ) : Option (System α) :=
  match s.receiver with
  | .opened =>
    match s.state.recv waker with
    | (.item item, state) => some { s with
        state := state
        delivered := s.delivered ++ [item] }
    | (.none, state) => some { s with
        state := state
        receiver := .ended }
    | (.pending, state) => some { s with state := state }
  -- The channel was forgotten: `expect("eddy: receiver dropped")`.
  | .ended => some { s with panicked := true }
  | .dropped => none

def step (s : System α) : Label α → Option (System α)
  | .cloneSender k j =>
    if (s.senders.get k).isSome ∧ s.senders.Vacant j then
      some { s with
        state := s.state.cloneSender
        senders := s.senders.insert j () }
    else none
  | .dropSender k =>
    -- No future borrows the `Sender` any more.
    if (s.senders.get k).isSome ∧ s.state.futures.values.all (·.sender ≠ k) then
      some { s with
        state := s.state.dropSender
        senders := s.senders.remove k }
    else none
  | .send k i item => s.start k i (.send k item)
  | .reserve k i => s.start k i (.reserve k)
  | .trySend k item =>
    if (s.senders.get k).isSome then
      match s.state.trySend item with
      | some state => some { s with
          state := state
          accepted := s.accepted ++ [item] }
      | none => some s
    else none
  | .poll i proceed waker =>
    (s.state.futures.get i).bind fun f =>
      if proceed then
        (s.state.poll i (f.attempted s.state.linked) waker).map fun (outcome, state) => { s with
          state := state
          permits := if outcome = .permit then s.permits + 1 else s.permits
          accepted := if outcome = .sent then s.accepted ++ f.item.toList else s.accepted }
      else some (s.yield waker)
  | .dropFuture i =>
    (s.state.futures.get i).map fun f => { s with state := s.state.dropFuture i f }
  | .permitSend item =>
    if 0 < s.permits then
      let (ok, state) := s.state.permitSend item
      some { s with
        state := state
        permits := s.permits - 1
        accepted := if ok then s.accepted ++ [item] else s.accepted }
    else none
  | .dropPermit =>
    if 0 < s.permits then
      some { s with
        state := s.state.dropPermit
        permits := s.permits - 1 }
    else none
  | .recv proceed waker =>
    if proceed then s.pollRecv waker
    else if s.receiver = .dropped then none
    else some (s.yield waker)
  | .dropReceiver =>
    match s.receiver with
    | .opened => some { s with
        state := s.state.dropReceiver
        receiver := .dropped }
    | .ended => some { s with receiver := .dropped }
    | .dropped => none

end System

end Eddy.Mpsc
