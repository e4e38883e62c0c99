import Eddy.Interleaving

/-!
# The watch channel

`sync/watch.rs`. A method holds the lock of the state while it changes the state and wakes after
it; the drop of a sender takes the wakers, wakes them and releases its reference count last.
Handles keep their numbers when they are dropped.
-/

namespace Eddy.Watch
open Interleaving

variable {α : Type}

structure State (α : Type) where
  value : α
  version : UInt64
  wakers : List ℕ

inductive Poll where
  | pending
  | ok
  /-- `Err(RecvError)` -/
  | error
  deriving DecidableEq

/-- `Sender::send` and `send_replace`, and the wakers they take. -/
def State.send (s : State α) (value : α) : State α × List ℕ :=
  (⟨value, s.version + 1, []⟩, s.wakers)

/-- `Receiver::poll_changed` with budget. -/
def State.pollChanged (s : State α) (strongCount : ℕ) (version : UInt64) (waker : ℕ) :
    Poll × State α :=
  if s.version ≠ version then (.ok, s)
  else if strongCount = 1 then (.error, s)
  else (.pending, { s with wakers := s.wakers ++ [waker] })

inductive SenderPhase where
  | live
  /-- The drop has taken the wakers. -/
  | dropping
  | dropped
  deriving DecidableEq

structure Sender where
  phase : SenderPhase
  /-- The wakers that its sends or its drop have taken and have yet to wake. -/
  waking : List ℕ

structure Receiver where
  version : UInt64
  live : Bool
  /-- The waker that its last poll registered, unless it has seen a new version since. -/
  waiting : Option ℕ
  /-- That waker was woken since. -/
  woken : Bool
  deriving DecidableEq

structure System (α : Type) where
  state : State α
  senders : List Sender
  receivers : List Receiver
  wakes : List ℕ

/-- `channel` -/
def System.new (init : α) : System α :=
  ⟨⟨init, 0, []⟩, [⟨.live, []⟩], [⟨0, true, none, false⟩], []⟩

inductive Label (α : Type) where
  | cloneSender (i : ℕ)
  | send (i : ℕ) (value : α)
  /-- The sender wakes one of the wakers that it has taken. -/
  | wake (i k : ℕ)
  | dropSender (i : ℕ)
  /-- The drop of the sender releases the reference count. -/
  | releaseSender (i : ℕ)
  | cloneReceiver (j : ℕ)
  /-- A poll that may have run out of its cooperative budget. -/
  | poll (j : ℕ) (proceed : Bool) (waker : ℕ)
  | borrowAndUpdate (j : ℕ)
  | dropReceiver (j : ℕ)

namespace System

def senderCount (s : System α) : ℕ := s.senders.countP fun x => x.phase ≠ .dropped

def receiverCount (s : System α) : ℕ := s.receivers.countP Receiver.live

/-- `Arc::strong_count` -/
def strongCount (s : System α) : ℕ := s.senderCount + s.receiverCount

def sender (s : System α) (i : ℕ) (phase : SenderPhase) : Option Sender :=
  (s.senders[i]?).filter fun x => x.phase = phase

def receiver (s : System α) (j : ℕ) : Option Receiver := (s.receivers[j]?).filter Receiver.live

def wake (s : System α) (i k waker : ℕ) : System α :=
  { s with
    senders := s.senders.modify i fun x => { x with waking := x.waking.eraseIdx k }
    receivers := s.receivers.map fun r =>
      { r with woken := r.woken || r.waiting = some waker }
    wakes := s.wakes ++ [waker] }

def poll (s : System α) (j : ℕ) (r : Receiver) (waker : ℕ) : System α :=
  let (result, state) := s.state.pollChanged s.strongCount r.version waker
  { s with
    state := state
    receivers := s.receivers.modify j fun r =>
      { r with waiting := if result = .pending then some waker else none, woken := false } }

def step (s : System α) : Label α → Option (System α)
  | .cloneSender i =>
    (s.sender i .live).map fun _ => { s with senders := s.senders ++ [⟨.live, []⟩] }
  | .send i value =>
    (s.sender i .live).map fun _ =>
      let (state, wakers) := s.state.send value
      { s with
        state := state
        senders := s.senders.modify i fun x => { x with waking := x.waking ++ wakers } }
  | .wake i k => (s.senders[i]?).bind fun x => (x.waking[k]?).map (s.wake i k)
  | .dropSender i =>
    (s.sender i .live).bind fun x =>
      if x.waking = [] then
        some { s with
          state := { s.state with wakers := [] }
          senders := s.senders.set i ⟨.dropping, s.state.wakers⟩ }
      else none
  | .releaseSender i =>
    (s.sender i .dropping).bind fun x =>
      if x.waking = [] then some { s with senders := s.senders.set i ⟨.dropped, []⟩ } else none
  | .cloneReceiver j =>
    (s.receiver j).map fun r =>
      { s with receivers := s.receivers ++ [⟨r.version, true, none, false⟩] }
  | .poll j proceed waker =>
    (s.receiver j).map fun r =>
      if proceed then s.poll j r waker else { s with wakes := s.wakes ++ [waker] }
  | .borrowAndUpdate j =>
    (s.receiver j).map fun _ =>
      { s with receivers := s.receivers.modify j fun r =>
          { r with
            version := s.state.version
            waiting := if r.version = s.state.version then r.waiting else none } }
  | .dropReceiver j =>
    (s.receiver j).map fun _ =>
      { s with receivers := s.receivers.modify j fun r => { r with live := false } }

/-- Every label with the conditions under which it is possible and what it leaves. -/
inductive Steps (s : System α) : Label α → System α → Prop
  | cloneSender {i : ℕ} {x : Sender} (hx : s.sender i .live = some x) :
      Steps s (.cloneSender i) { s with senders := s.senders ++ [⟨.live, []⟩] }
  | send {i : ℕ} {x : Sender} (hx : s.sender i .live = some x) (value : α) :
      Steps s (.send i value) { s with
        state := (s.state.send value).1
        senders := s.senders.modify i fun x =>
          { x with waking := x.waking ++ (s.state.send value).2 } }
  | wake {i k waker : ℕ} {x : Sender} (hx : s.senders[i]? = some x)
      (hwaker : x.waking[k]? = some waker) : Steps s (.wake i k) (s.wake i k waker)
  | dropSender {i : ℕ} {x : Sender} (hx : s.sender i .live = some x) (hwaking : x.waking = []) :
      Steps s (.dropSender i) { s with
        state := { s.state with wakers := [] }
        senders := s.senders.set i ⟨.dropping, s.state.wakers⟩ }
  | releaseSender {i : ℕ} {x : Sender} (hx : s.sender i .dropping = some x)
      (hwaking : x.waking = []) :
      Steps s (.releaseSender i) { s with senders := s.senders.set i ⟨.dropped, []⟩ }
  | cloneReceiver {j : ℕ} {r : Receiver} (hr : s.receiver j = some r) :
      Steps s (.cloneReceiver j)
        { s with receivers := s.receivers ++ [⟨r.version, true, none, false⟩] }
  | exhausted {j : ℕ} {r : Receiver} (hr : s.receiver j = some r) (waker : ℕ) :
      Steps s (.poll j false waker) { s with wakes := s.wakes ++ [waker] }
  | poll {j : ℕ} {r : Receiver} (hr : s.receiver j = some r) (waker : ℕ) :
      Steps s (.poll j true waker) (s.poll j r waker)
  | borrowAndUpdate {j : ℕ} {r : Receiver} (hr : s.receiver j = some r) :
      Steps s (.borrowAndUpdate j) { s with
        receivers := s.receivers.modify j fun r =>
          { r with
            version := s.state.version
            waiting := if r.version = s.state.version then r.waiting else none } }
  | dropReceiver {j : ℕ} {r : Receiver} (hr : s.receiver j = some r) :
      Steps s (.dropReceiver j)
        { s with receivers := s.receivers.modify j fun r => { r with live := false } }

theorem steps {s t : System α} {a : Label α} (h : s.step a = some t) : s.Steps a t := by
  cases a with
  | cloneSender i =>
    obtain ⟨x, hx, rfl⟩ := Option.map_eq_some_iff.mp h
    exact .cloneSender hx
  | send i value =>
    obtain ⟨x, hx, rfl⟩ := Option.map_eq_some_iff.mp h
    exact .send hx value
  | wake i k =>
    obtain ⟨x, hx, h⟩ := Option.bind_eq_some_iff.mp h
    obtain ⟨waker, hwaker, rfl⟩ := Option.map_eq_some_iff.mp h
    exact .wake hx hwaker
  | dropSender i =>
    obtain ⟨x, hx, h⟩ := Option.bind_eq_some_iff.mp h
    obtain ⟨hwaking, h⟩ := Option.ite_none_right_eq_some.mp h
    cases h
    exact .dropSender hx hwaking
  | releaseSender i =>
    obtain ⟨x, hx, h⟩ := Option.bind_eq_some_iff.mp h
    obtain ⟨hwaking, h⟩ := Option.ite_none_right_eq_some.mp h
    cases h
    exact .releaseSender hx hwaking
  | cloneReceiver j =>
    obtain ⟨r, hr, rfl⟩ := Option.map_eq_some_iff.mp h
    exact .cloneReceiver hr
  | poll j proceed waker =>
    obtain ⟨r, hr, rfl⟩ := Option.map_eq_some_iff.mp h
    cases proceed with
    | false => exact .exhausted hr waker
    | true => exact .poll hr waker
  | borrowAndUpdate j =>
    obtain ⟨r, hr, rfl⟩ := Option.map_eq_some_iff.mp h
    exact .borrowAndUpdate hr
  | dropReceiver j =>
    obtain ⟨r, hr, rfl⟩ := Option.map_eq_some_iff.mp h
    exact .dropReceiver hr

end System
end Eddy.Watch
