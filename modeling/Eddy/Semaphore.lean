import Eddy.Interleaving
import Eddy.Slab

/-!
# The semaphore

`Semaphore` of `sync/semaphore.rs`. A waiter is part of its `Acquire` future: a node of the
intrusive list is the slot of a live future, and it is linked when it is in the list. Every
operation holds the lock of the state from its beginning to its end and wakes after it.
-/

namespace Eddy.Semaphore
open Interleaving

def usizeMax : ℕ := 2 ^ 64 - 1

def saturatingAdd (a b : ℕ) : ℕ := min (a + b) usizeMax

/-- An `Acquire` future with its `Waiter`. -/
structure Acquire where
  permits : ℕ
  waker : Option ℕ
  granted : Bool
  /-- Its place in the order in which waiters were linked. -/
  turn : ℕ

def Acquire.new (permits : ℕ) : Acquire := ⟨permits, none, false, 0⟩

structure State where
  permits : ℕ
  closed : Bool
  waiters : List ℕ
  /-- The live futures, in which the nodes of the list are. -/
  acquires : Slab Acquire
  /-- How many waiters were ever linked. -/
  linked : ℕ
  /-- The turns of the waiters that were granted. -/
  grants : List ℕ

def State.new (permits : ℕ) : State := ⟨permits, false, [], .empty, 0, []⟩

namespace State

def grant (s : State) (i : ℕ) (a : Acquire) : State :=
  { s with
    permits := s.permits - a.permits
    acquires := s.acquires.modify i fun a => { a with granted := true, waker := none }
    grants := s.grants ++ [a.turn] }

/-- The loop of `release_locked` over the nodes of the list, and the wakers it collects. -/
def grantWaiters (s : State) : List ℕ → State × List ℕ
  | [] => ({ s with waiters := [] }, [])
  | i :: rest =>
    match s.acquires.get i with
    | none => ({ s with waiters := i :: rest }, [])
    | some a =>
      if s.permits < a.permits then ({ s with waiters := i :: rest }, [])
      else
        let (s, wakes) := (s.grant i a).grantWaiters rest
        (s, a.waker.toList ++ wakes)

def releaseLocked (s : State) (permits : ℕ) : State × List ℕ :=
  { s with permits := saturatingAdd s.permits permits }.grantWaiters s.waiters

end State

inductive Poll where
  | pending
  /-- `Err(AcquireError)` -/
  | closed
  /-- A `SemaphorePermit`. -/
  | acquired (permits : ℕ)
  deriving DecidableEq

namespace State

/-- `Acquire::poll` of a future with budget. -/
def poll (s : State) (i : ℕ) (a : Acquire) (waker : ℕ) : Poll × State :=
  if a.granted then
    (.acquired a.permits, { s with
      acquires := s.acquires.modify i fun a => { a with granted := false } })
  else if s.closed then
    (.closed, { s with waiters := s.waiters.erase i })
  else if i ∉ s.waiters ∧ s.waiters = [] ∧ a.permits ≤ s.permits then
    (.acquired a.permits, { s with permits := s.permits - a.permits })
  else if i ∈ s.waiters then
    (.pending, { s with
      acquires := s.acquires.modify i fun a => { a with waker := some waker } })
  else
    (.pending, { s with
      acquires := s.acquires.modify i fun a => { a with waker := some waker, turn := s.linked }
      waiters := s.waiters ++ [i]
      linked := s.linked + 1 })

/-- `Drop for Acquire` -/
def dropAcquire (s : State) (i : ℕ) (a : Acquire) : State × List ℕ :=
  if i ∈ s.waiters then
    ({ s with
      waiters := s.waiters.erase i
      acquires := s.acquires.remove i }, [])
  else if a.granted then
    { s with acquires := s.acquires.remove i }.releaseLocked a.permits
  else ({ s with acquires := s.acquires.remove i }, [])

def tryAcquireMany (s : State) (permits : ℕ) : Option State :=
  if s.closed ∨ s.waiters ≠ [] ∨ s.permits < permits then none
  else some { s with permits := s.permits - permits }

def addPermits (s : State) (permits : ℕ) : State × List ℕ :=
  if permits = 0 then (s, []) else s.releaseLocked permits

/-- The wakers of the nodes in the list. -/
def wakers (s : State) : List ℕ :=
  s.waiters.flatMap fun i => ((s.acquires.get i).bind Acquire.waker).toList

def close (s : State) : State × List ℕ :=
  ({ s with
    closed := true
    waiters := []
    acquires := s.waiters.foldl (fun acquires i =>
      acquires.modify i fun a => { a with waker := none }) s.acquires }, s.wakers)

end State

structure System where
  state : State
  /-- The live `SemaphorePermit`s. -/
  held : List ℕ
  wakes : List ℕ
  initial : ℕ
  added : ℕ
  forgotten : ℕ

def System.new (permits : ℕ) : System := ⟨.new permits, [], [], permits, 0, 0⟩

inductive Label where
  /-- `acquire_many`; the future is at `i`. -/
  | acquireMany (i permits : ℕ)
  /-- A poll that may have run out of its cooperative budget. -/
  | poll (i : ℕ) (proceed : Bool) (waker : ℕ)
  | dropAcquire (i : ℕ)
  | tryAcquireMany (permits : ℕ)
  | addPermits (permits : ℕ)
  | dropPermit (j : ℕ)
  | forget (j : ℕ)
  | close

namespace System

def step (s : System) : Label → Option System
  | .acquireMany i permits =>
    if 0 < permits ∧ s.state.acquires.Vacant i then
      some { s with
        state := { s.state with acquires := s.state.acquires.insert i (.new permits) } }
    else none
  | .poll i proceed waker =>
    (s.state.acquires.get i).map fun a =>
      if proceed then
        let (result, state) := s.state.poll i a waker
        { s with
          state := state
          held := match result with
            | .acquired permits => s.held ++ [permits]
            | .pending | .closed => s.held }
      else { s with wakes := s.wakes ++ [waker] }
  | .dropAcquire i =>
    (s.state.acquires.get i).map fun a =>
      let (state, wakes) := s.state.dropAcquire i a
      { s with
        state := state
        wakes := s.wakes ++ wakes }
  | .tryAcquireMany permits =>
    if 0 < permits then
      match s.state.tryAcquireMany permits with
      | none => some s
      | some state =>
        some { s with
          state := state
          held := s.held ++ [permits] }
    else none
  | .addPermits permits =>
    let (state, wakes) := s.state.addPermits permits
    some { s with
      state := state
      wakes := s.wakes ++ wakes
      added := s.added + permits }
  | .dropPermit j =>
    (s.held[j]?).map fun permits =>
      let (state, wakes) := s.state.releaseLocked permits
      { s with
        state := state
        held := s.held.eraseIdx j
        wakes := s.wakes ++ wakes }
  | .forget j =>
    (s.held[j]?).map fun permits =>
      { s with
        held := s.held.eraseIdx j
        forgotten := s.forgotten + permits }
  | .close =>
    let (state, wakes) := s.state.close
    some { s with
      state := state
      wakes := s.wakes ++ wakes }

end System

end Eddy.Semaphore
