import Eddy.Interleaving

/-!
# The oneshot channel

`sync/oneshot.rs`. `send`, the polls and the drops hold the lock of the state while they change it
and wake after it. A sender that has sent, and a receiver whose poll has resolved, let go of the
channel, so that their drops do nothing. The `Closed` futures of a sender borrow it.
-/

namespace Eddy.Oneshot
open Interleaving

variable {T : Type}

structure State (T : Type) where
  value : Option T
  sent : Bool
  receiverAlive : Bool
  senderAlive : Bool
  receiverWaker : Option ℕ
  closedWaker : Option ℕ

inductive Poll (T : Type) where
  | pending
  | ok (value : T)
  /-- `Err(RecvError)` -/
  | error

namespace State

def new : State T := ⟨none, false, true, true, none, none⟩

/-- `Sender::send`: its answer, and the waker that it takes. -/
def send (s : State T) (value : T) : Except T Unit × State T × Option ℕ :=
  if s.receiverAlive = false ∨ s.sent = true then (.error value, s, none)
  else
    (.ok (), { s with sent := true, value := some value, receiverWaker := none }, s.receiverWaker)

/-- `Receiver::poll` with budget. -/
def poll (s : State T) (waker : ℕ) : Poll T × State T :=
  match s.value with
  | some value => (.ok value, { s with value := none })
  | none =>
    if s.sent = true ∨ s.senderAlive = false then (.error, s)
    else (.pending, { s with receiverWaker := some waker })

/-- `Drop for Receiver` -/
def dropReceiver (s : State T) : State T × Option ℕ :=
  ({ s with receiverAlive := false, closedWaker := none }, s.closedWaker)

/-- `Closed::poll`, and whether it is ready. -/
def pollClosed (s : State T) (waker : ℕ) : Bool × State T :=
  if s.receiverAlive = false then (true, s) else (false, { s with closedWaker := some waker })

/-- `Drop for Sender` -/
def dropSender (s : State T) : State T × Option ℕ :=
  if s.sent = false then
    ({ s with senderAlive := false, receiverWaker := none }, s.receiverWaker)
  else ({ s with senderAlive := false }, none)

end State

structure Wait where
  /-- The waker of the last poll, if it returned `Pending`. -/
  waker : Option ℕ
  /-- That waker was woken since. -/
  heard : Bool

def Wait.new : Wait := ⟨none, false⟩

def Wait.wake (w : Wait) (waker : ℕ) : Wait :=
  { w with heard := w.heard || w.waker = some waker }

inductive Phase where
  | live
  /-- Its poll has resolved. -/
  | completed
  | dropped
  deriving DecidableEq

structure System (T : Type) where
  state : State T
  /-- The sender has neither sent nor been dropped. -/
  sender : Bool
  /-- The value given to `send`, and what `send` returned. -/
  passed : Option T
  answer : Option (Except T Unit)
  receiver : Phase
  wait : Wait
  /-- What the receiver resolved with. -/
  received : Option (Poll T)
  /-- The `Closed` futures, those that were dropped being gone. -/
  closed : List (Option Wait)
  /-- The future among them whose waker was registered last. -/
  last : Option ℕ
  /-- The wakers that were taken under the lock and are yet to be woken. -/
  waking : List ℕ

/-- `channel` -/
def System.new : System T := ⟨.new, true, none, none, .live, .new, none, [], none, []⟩

inductive Label (T : Type) where
  | send (value : T)
  | dropSender
  /-- `Sender::closed` -/
  | closed
  | pollClosed (j waker : ℕ)
  | dropClosed (j : ℕ)
  /-- A poll that may have run out of its cooperative budget. -/
  | poll (proceed : Bool) (waker : ℕ)
  | dropReceiver
  | wake (k : ℕ)

namespace System

def poll (s : System T) (waker : ℕ) : System T :=
  match s.state.poll waker with
  | (.pending, state) => { s with state, wait := ⟨some waker, false⟩ }
  | (result, state) => { s with
      state
      receiver := .completed
      wait := .new
      received := some result }

def pollClosed (s : System T) (j waker : ℕ) : System T :=
  match s.state.pollClosed waker with
  | (true, state) => { s with state, closed := s.closed.set j (some .new) }
  | (false, state) => { s with
      state
      closed := s.closed.set j (some ⟨some waker, false⟩)
      last := some j }

def free (s : System T) : Prop := s.sender = true ∧ ∀ c ∈ s.closed, c.isNone = true

instance (s : System T) : Decidable s.free :=
  inferInstanceAs (Decidable (_ ∧ ∀ c ∈ s.closed, _))

def step (s : System T) : Label T → Option (System T)
  | .send value =>
    if s.free then
      let (answer, state, waker) := s.state.send value
      some { s with
        state
        sender := false
        passed := some value
        answer := some answer
        waking := s.waking ++ waker.toList }
    else none
  | .dropSender =>
    if s.free then
      let (state, waker) := s.state.dropSender
      some { s with
        state
        sender := false
        waking := s.waking ++ waker.toList }
    else none
  | .closed => if s.sender = true then some { s with closed := s.closed ++ [some .new] } else none
  | .pollClosed j waker => (s.closed[j]?).join.map fun _ => s.pollClosed j waker
  | .dropClosed j => (s.closed[j]?).join.map fun _ => { s with closed := s.closed.set j none }
  | .poll proceed waker =>
    if s.receiver = .live then
      some (if proceed then s.poll waker else { s with wait := ⟨some waker, true⟩ })
    else none
  | .dropReceiver =>
    if s.receiver = .live then
      let (state, waker) := s.state.dropReceiver
      some { s with
        state
        receiver := .dropped
        waking := s.waking ++ waker.toList }
    else none
  | .wake k =>
    (s.waking[k]?).map fun waker =>
      { s with
        waking := s.waking.eraseIdx k
        wait := s.wait.wake waker
        closed := s.closed.map fun c => c.map fun w => w.wake waker }

end System
end Eddy.Oneshot
