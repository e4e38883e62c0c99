import Eddy.Interleaving

/-!
# The notification primitive

`Notify` of `sync/notify.rs`. The waiter of a `Notified` future is shared with the queue and with
the notifiers that have yet to wake it, so a future keeps its number when it is dropped. A
notifier takes the waker after it has released the lock, and a drop looks at the flag of its
waiter before it takes the lock.
-/

namespace Eddy.Notify
open Interleaving

inductive Phase where
  | live
  /-- The drop has found the waiter registered and not notified. -/
  | dropping
  | dropped
  deriving DecidableEq

/-- A `Notified` future with its `Waiter`. -/
structure Notified where
  notified : Bool
  waker : Option ℕ
  registered : Bool
  phase : Phase
  /-- It has returned `Ready`. -/
  completed : Bool
  /-- The `notify_one` that it was notified by. -/
  call : Option ℕ

/-- `Notify::notified` -/
def Notified.new : Notified := ⟨false, none, false, .live, false, none⟩

structure State where
  permit : Bool
  waiters : List ℕ
  /-- All the futures, in the order in which they were made. -/
  futures : List Notified
  /-- The waiters that notifiers have yet to wake. -/
  notifying : List ℕ
  wakes : List ℕ
  /-- How many calls of `notify_one` were not merged into a stored permit. -/
  calls : ℕ
  /-- The call that stored the last permit. -/
  stored : ℕ

/-- `Notify::new` -/
def State.new : State := ⟨false, [], [], [], [], 0, 0⟩

inductive Label where
  | notified
  | notifyOne
  | notifyWaiters
  /-- A notifier takes the waker of the waiter and wakes it. -/
  | wake (k : ℕ)
  | enable (i : ℕ)
  /-- A poll that may have run out of its cooperative budget. -/
  | poll (i : ℕ) (proceed : Bool) (waker : ℕ)
  | drop (i : ℕ)
  /-- The rest of a drop, with the lock held. -/
  | unregister (i : ℕ)

namespace State

def notifyOne (s : State) : State :=
  match s.waiters with
  | i :: rest =>
    { s with
      waiters := rest
      futures := s.futures.modify i fun f => { f with notified := true, call := some s.calls }
      notifying := s.notifying ++ [i]
      calls := s.calls + 1 }
  | [] =>
    if s.permit then s
    else { s with permit := true, calls := s.calls + 1, stored := s.calls }

def notifyAll (futures : List Notified) (waiters : List ℕ) : List Notified :=
  waiters.foldl (fun futures i => futures.modify i fun f => { f with notified := true }) futures

def notifyWaiters (s : State) : State :=
  { s with
    waiters := []
    futures := notifyAll s.futures s.waiters
    notifying := s.notifying ++ s.waiters }

def takePermit (s : State) (i : ℕ) (completed : Bool) : State :=
  { s with
    permit := false
    futures := s.futures.modify i fun f =>
      { f with notified := true, call := some s.stored, completed := completed } }

def enable (s : State) (i : ℕ) (f : Notified) : State :=
  if f.registered || f.notified then s
  else if s.permit then s.takePermit i false
  else { s with
    waiters := s.waiters ++ [i]
    futures := s.futures.modify i fun f => { f with registered := true } }

/-- `Notified::poll` with budget. -/
def poll (s : State) (i : ℕ) (f : Notified) (waker : ℕ) : State :=
  if f.notified then
    { s with futures := s.futures.modify i fun f => { f with completed := true } }
  else if !f.registered && s.permit then s.takePermit i true
  else { s with
    waiters := if f.registered then s.waiters else s.waiters ++ [i]
    futures := s.futures.modify i fun f => { f with waker := some waker, registered := true } }

/-- `Drop for Notified` up to the lock. -/
def drop (s : State) (i : ℕ) (f : Notified) : State :=
  { s with futures := s.futures.modify i fun g =>
      { g with phase := if !f.registered || f.notified then .dropped else .dropping } }

def unregister (s : State) (i : ℕ) : State :=
  { s with
    waiters := s.waiters.filter (· ≠ i)
    futures := s.futures.modify i fun f => { f with phase := .dropped } }

def wake (s : State) (k i : ℕ) (f : Notified) : State :=
  { s with
    futures := s.futures.modify i fun f => { f with waker := none }
    notifying := s.notifying.eraseIdx k
    wakes := s.wakes ++ f.waker.toList }

/-- The future, when it is in the phase. -/
def future (s : State) (i : ℕ) (phase : Phase) : Option Notified :=
  (s.futures[i]?).filter fun f => f.phase = phase

end State

def step (s : State) : Label → Option State
  | .notified => some { s with futures := s.futures ++ [.new] }
  | .notifyOne => some s.notifyOne
  | .notifyWaiters => some s.notifyWaiters
  | .wake k => (s.notifying[k]?).bind fun i => (s.futures[i]?).map (s.wake k i)
  | .enable i => (s.future i .live).map (s.enable i)
  | .poll i proceed waker =>
    (s.future i .live).map fun f =>
      if proceed then s.poll i f waker else { s with wakes := s.wakes ++ [waker] }
  | .drop i => (s.future i .live).map (s.drop i)
  | .unregister i => (s.future i .dropping).map fun _ => s.unregister i

end Eddy.Notify
