import Eddy.Interleaving

/-!
# The broadcast channel

`sync/broadcast.rs`. Every method of a handle holds the lock of the state from its beginning to
its end. The clone of a receiver takes its reference count, its id, its cursor and its slot one
after the other, and the drop of a receiver gives up its slot before its reference count. Sequence
numbers and ids do not overflow.
-/

namespace Eddy.Broadcast
open Interleaving

variable {α : Type}

inductive RecvError where
  | closed
  | lagged (n : ℕ)
  deriving DecidableEq

inductive TryRecvError where
  | empty
  | closed
  | lagged (n : ℕ)
  deriving DecidableEq

inductive Poll (α : Type) where
  | pending
  | ok (value : α)
  | error (e : RecvError)
  deriving DecidableEq

inductive TryRecv (α : Type) where
  | ok (value : α)
  | error (e : TryRecvError)
  deriving DecidableEq

structure ReceiverSlot where
  id : ℕ
  cursor : ℕ
  waker : Option ℕ
  deriving DecidableEq

structure State (α : Type) where
  buffer : List α
  nextSeq : ℕ
  receivers : List ReceiverSlot

namespace State

/-- The oldest sequence number still buffered. -/
def firstSeq (s : State α) (capacity : ℕ) : ℕ := s.nextSeq - min s.buffer.length capacity

def register (s : State α) (id cursor : ℕ) : State α :=
  { s with receivers := s.receivers ++ [⟨id, cursor, none⟩] }

/-- `register_slot`, which panics when there is a slot with the id. -/
def registerSlot (s : State α) (id cursor : ℕ) : Option (State α) :=
  if s.receivers.any fun slot => slot.id = id then none else some (s.register id cursor)

def slotIndex (s : State α) (id cursor : ℕ) : ℕ × State α :=
  match s.receivers.findIdx? fun slot => slot.id = id with
  | some index => (index, s)
  | none => (s.receivers.length, s.register id cursor)

def modifySlot (s : State α) (id cursor : ℕ) (f : ReceiverSlot → ReceiverSlot) : State α :=
  let (index, s) := s.slotIndex id cursor
  { s with receivers := s.receivers.modify index f }

def setCursor (s : State α) (id cursor : ℕ) : State α :=
  s.modifySlot id cursor fun slot => { slot with cursor := cursor }

/-- `Sender::send`, and the wakers it collects; nothing is sent when there is no receiver. -/
def send (s : State α) (capacity : ℕ) (value : α) : Option (State α × List ℕ) :=
  if s.receivers = [] then none
  else
    let buffer := if s.buffer.length = capacity then s.buffer.tail else s.buffer
    some ({ s with
      buffer := buffer ++ [value]
      nextSeq := s.nextSeq + 1
      receivers := s.receivers.map fun slot => { slot with waker := none } },
      s.receivers.filterMap ReceiverSlot.waker)

/-- `Receiver::try_recv`, and the cursor after it. It panics when the index is out of bounds. -/
def tryRecv (s : State α) (capacity strongCount id cursor : ℕ) :
    Option (TryRecv α × State α × ℕ) :=
  let first := s.firstSeq capacity
  if strongCount = s.receivers.length then some (.error .closed, s, cursor)
  else if cursor < first then
    some (.error (.lagged (first - cursor)), s.setCursor id first, first)
  else if cursor < s.nextSeq then
    (s.buffer[cursor - first]?).map fun value =>
      (.ok value, s.setCursor id (cursor + 1), cursor + 1)
  else some (.error .empty, s, cursor)

/-- `Receiver::poll` with budget, and the cursor after it. -/
def poll (s : State α) (capacity strongCount id cursor waker : ℕ) :
    Option (Poll α × State α × ℕ) :=
  let first := s.firstSeq capacity
  if cursor < first then
    some (.error (.lagged (first - cursor)), s.setCursor id first, first)
  else if cursor < s.nextSeq then
    (s.buffer[cursor - first]?).map fun value =>
      (.ok value, s.setCursor id (cursor + 1), cursor + 1)
  else if strongCount = s.receivers.length then some (.error .closed, s, cursor)
  else some (.pending, s.modifySlot id cursor fun slot => { slot with waker := some waker }, cursor)

end State

inductive Phase where
  /-- The clone has its reference count. -/
  | counted
  | numbered
  /-- It has read its cursor and has no slot. -/
  | placed
  | live
  /-- The drop has removed the slot and has not released the reference count. -/
  | unregistered
  | dropped
  deriving DecidableEq

/-- What a receiver was given. -/
inductive Output (α : Type) where
  | value (value : α)
  | lagged (n : ℕ)
  deriving DecidableEq

def TryRecv.output : TryRecv α → Option (Output α)
  | .ok value => some (.value value)
  | .error (.lagged n) => some (.lagged n)
  | .error .empty | .error .closed => none

def Poll.output : Poll α → Option (Output α)
  | .ok value => some (.value value)
  | .error (.lagged n) => some (.lagged n)
  | .error .closed | .pending => none

def Poll.isPending : Poll α → Bool
  | .pending => true
  | .ok _ | .error _ => false

structure Receiver (α : Type) where
  id : ℕ
  cursor : ℕ
  phase : Phase
  /-- Its first cursor. -/
  start : ℕ
  /-- What it was given, each with the number of values sent by then. -/
  outputs : List (Output α × ℕ)
  /-- The last poll returned `Pending` and registered a waker, and nothing was received since. -/
  waiting : Bool
  deriving DecidableEq

def Receiver.counted : Receiver α := ⟨0, 0, .counted, 0, [], false⟩

def Receiver.take (r : Receiver α) (cursor sent : ℕ) (output : Option (Output α))
    (waiting : Bool) : Receiver α :=
  { r with
    cursor := cursor
    outputs := r.outputs ++ (output.map fun output => (output, sent)).toList
    waiting := waiting }

structure System (α : Type) where
  capacity : ℕ
  nextReceiverId : ℕ
  state : State α
  senders : ℕ
  receivers : List (Receiver α)
  wakes : List ℕ
  /-- All the values that were sent. -/
  sent : List α

/-- A channel with its sender and its receiver, whose slot is registered. -/
def System.new (capacity : ℕ) : System α :=
  ⟨capacity, 1, ⟨[], 0, [⟨0, 0, none⟩]⟩, 1, [⟨0, 0, .live, 0, [], false⟩], [], []⟩

/-- `channel`, which panics when the capacity is zero. -/
def channel (α : Type) (capacity : ℕ) : Option (System α) :=
  if 0 < capacity then some (.new capacity) else none

inductive Label (α : Type) where
  | cloneSender
  | dropSender
  | send (value : α)
  /-- The clone of the receiver `i` has its reference count. -/
  | cloneReceiver (i : ℕ)
  | number (i : ℕ)
  | place (i : ℕ)
  | registerSlot (i : ℕ)
  | tryRecv (i : ℕ)
  /-- A poll that may have run out of its cooperative budget. -/
  | poll (i : ℕ) (proceed : Bool) (waker : ℕ)
  | dropReceiver (i : ℕ)
  /-- The drop releases the reference count. -/
  | release (i : ℕ)

namespace System

/-- `Arc::strong_count` -/
def strongCount (s : System α) : ℕ :=
  s.senders + s.receivers.countP fun r => r.phase ≠ .dropped

/-- The receiver, when it is in the phase. -/
def receiver (s : System α) (i : ℕ) (phase : Phase) : Option (Receiver α) :=
  (s.receivers[i]?).filter fun r => r.phase = phase

def modifyReceiver (s : System α) (i : ℕ) (f : Receiver α → Receiver α) : System α :=
  { s with receivers := s.receivers.modify i f }

def tryRecv (s : System α) (i : ℕ) (r : Receiver α) : Option (System α) :=
  (s.state.tryRecv s.capacity s.strongCount r.id r.cursor).map fun (result, state, cursor) =>
    { s with state := state }.modifyReceiver i fun r =>
      r.take cursor s.sent.length result.output (r.waiting && result.output.isNone)

def poll (s : System α) (i : ℕ) (r : Receiver α) (waker : ℕ) :
    Option (System α) :=
  (s.state.poll s.capacity s.strongCount r.id r.cursor waker).map fun (result, state, cursor) =>
    { s with state := state }.modifyReceiver i fun r =>
      r.take cursor s.sent.length result.output result.isPending

def send (s : System α) (value : α) : System α :=
  match s.state.send s.capacity value with
  | none => s
  | some (state, wakes) =>
    { s with
      state := state
      wakes := s.wakes ++ wakes
      sent := s.sent ++ [value] }

def step (s : System α) : Label α → Option (System α)
  | .cloneSender => if 0 < s.senders then some { s with senders := s.senders + 1 } else none
  | .dropSender => if 0 < s.senders then some { s with senders := s.senders - 1 } else none
  | .send value => if 0 < s.senders then some (s.send value) else none
  | .cloneReceiver i =>
    (s.receiver i .live).map fun _ =>
      { s with receivers := s.receivers ++ [.counted] }
  | .number i =>
    (s.receiver i .counted).map fun _ =>
      { s with nextReceiverId := s.nextReceiverId + 1 }.modifyReceiver i fun r =>
        { r with id := s.nextReceiverId, phase := .numbered }
  | .place i =>
    (s.receiver i .numbered).map fun _ =>
      s.modifyReceiver i fun r =>
        { r with cursor := s.state.nextSeq, start := s.state.nextSeq, phase := .placed }
  | .registerSlot i =>
    (s.receiver i .placed).bind fun r =>
      (s.state.registerSlot r.id r.cursor).map fun state =>
        { s with state := state }.modifyReceiver i fun r => { r with phase := .live }
  | .tryRecv i => (s.receiver i .live).bind (s.tryRecv i)
  | .poll i proceed waker =>
    (s.receiver i .live).bind fun r =>
      if proceed then s.poll i r waker else some { s with wakes := s.wakes ++ [waker] }
  | .dropReceiver i =>
    (s.receiver i .live).map fun r =>
      { s with state := { s.state with
          receivers := s.state.receivers.filter fun slot => slot.id ≠ r.id } }.modifyReceiver i
        fun r => { r with phase := .unregistered }
  | .release i =>
    (s.receiver i .unregistered).map fun _ =>
      s.modifyReceiver i fun r => { r with phase := .dropped }

/-- Every label with the conditions under which it is possible and what it leaves. -/
inductive Steps (s : System α) : Label α → System α → Prop
  | cloneSender (hpos : 0 < s.senders) : Steps s .cloneSender { s with senders := s.senders + 1 }
  | dropSender (hpos : 0 < s.senders) : Steps s .dropSender { s with senders := s.senders - 1 }
  | send (hpos : 0 < s.senders) (value : α) : Steps s (.send value) (s.send value)
  | cloneReceiver {i : ℕ} {r : Receiver α} (hr : s.receiver i .live = some r) :
      Steps s (.cloneReceiver i) { s with receivers := s.receivers ++ [.counted] }
  | number {i : ℕ} {r : Receiver α} (hr : s.receiver i .counted = some r) :
      Steps s (.number i)
        ({ s with nextReceiverId := s.nextReceiverId + 1 }.modifyReceiver i fun r =>
          { r with id := s.nextReceiverId, phase := .numbered })
  | place {i : ℕ} {r : Receiver α} (hr : s.receiver i .numbered = some r) :
      Steps s (.place i) (s.modifyReceiver i fun r =>
        { r with cursor := s.state.nextSeq, start := s.state.nextSeq, phase := .placed })
  | registerSlot {i : ℕ} {r : Receiver α} (hr : s.receiver i .placed = some r)
      (hfree : ¬ (s.state.receivers.any fun slot => slot.id = r.id) = true) :
      Steps s (.registerSlot i)
        ({ s with state := s.state.register r.id r.cursor }.modifyReceiver i fun r =>
          { r with phase := .live })
  | tryRecv {i : ℕ} {r : Receiver α} {t : System α} (hr : s.receiver i .live = some r)
      (ht : s.tryRecv i r = some t) : Steps s (.tryRecv i) t
  | exhausted {i : ℕ} {r : Receiver α} (hr : s.receiver i .live = some r) (waker : ℕ) :
      Steps s (.poll i false waker) { s with wakes := s.wakes ++ [waker] }
  | poll {i waker : ℕ} {r : Receiver α} {t : System α} (hr : s.receiver i .live = some r)
      (ht : s.poll i r waker = some t) : Steps s (.poll i true waker) t
  | dropReceiver {i : ℕ} {r : Receiver α} (hr : s.receiver i .live = some r) :
      Steps s (.dropReceiver i)
        ({ s with state := { s.state with
            receivers := s.state.receivers.filter fun slot => slot.id ≠ r.id } }.modifyReceiver i
          fun r => { r with phase := .unregistered })
  | release {i : ℕ} {r : Receiver α} (hr : s.receiver i .unregistered = some r) :
      Steps s (.release i) (s.modifyReceiver i fun r => { r with phase := .dropped })

theorem steps {s t : System α} {a : Label α} (h : s.step a = some t) : s.Steps a t := by
  cases a with
  | cloneSender =>
    obtain ⟨hpos, h⟩ := Option.ite_none_right_eq_some.mp h
    cases h
    exact .cloneSender hpos
  | dropSender =>
    obtain ⟨hpos, h⟩ := Option.ite_none_right_eq_some.mp h
    cases h
    exact .dropSender hpos
  | send value =>
    obtain ⟨hpos, h⟩ := Option.ite_none_right_eq_some.mp h
    cases h
    exact .send hpos value
  | cloneReceiver i =>
    obtain ⟨r, hr, rfl⟩ := Option.map_eq_some_iff.mp h
    exact .cloneReceiver hr
  | number i =>
    obtain ⟨r, hr, rfl⟩ := Option.map_eq_some_iff.mp h
    exact .number hr
  | place i =>
    obtain ⟨r, hr, rfl⟩ := Option.map_eq_some_iff.mp h
    exact .place hr
  | registerSlot i =>
    obtain ⟨r, hr, h⟩ := Option.bind_eq_some_iff.mp h
    obtain ⟨state, hstate, rfl⟩ := Option.map_eq_some_iff.mp h
    obtain ⟨hfree, hstate⟩ := Option.ite_none_left_eq_some.mp hstate
    cases hstate
    exact .registerSlot hr hfree
  | tryRecv i =>
    obtain ⟨r, hr, ht⟩ := Option.bind_eq_some_iff.mp h
    exact .tryRecv hr ht
  | poll i proceed waker =>
    obtain ⟨r, hr, h⟩ := Option.bind_eq_some_iff.mp h
    cases proceed with
    | false =>
      cases h
      exact .exhausted hr waker
    | true => exact .poll hr h
  | dropReceiver i =>
    obtain ⟨r, hr, rfl⟩ := Option.map_eq_some_iff.mp h
    exact .dropReceiver hr
  | release i =>
    obtain ⟨r, hr, rfl⟩ := Option.map_eq_some_iff.mp h
    exact .release hr

end System
end Eddy.Broadcast
