import Eddy.Interleaving
import Eddy.Slab

/-!
# The readers-writer lock

`RwLock` of `sync/rwlock.rs`. The queue holds the waiters of `Read` and `Write` futures, and a
waiter is known by the slot of its future. Every operation holds the lock of the state from its
beginning to its end.
-/

namespace Eddy.RwLock
open Interleaving

inductive WaitKind where
  | reader
  | writer
  deriving DecidableEq

/-- A `Read` or `Write` future with its `Waiter`. -/
structure Waiting where
  kind : WaitKind
  granted : Bool
  waker : Option ℕ
  registered : Bool

def Waiting.new (kind : WaitKind) : Waiting := ⟨kind, false, none, false⟩

structure State where
  readers : ℕ
  writer : Bool
  waitingWriters : ℕ
  queue : List ℕ
  /-- The live futures. -/
  futures : Slab Waiting

def State.new : State := ⟨0, false, 0, [], .empty⟩

namespace State

/-- `granted` is set and the waker is taken to be woken. -/
def grant (s : State) (i : ℕ) : State :=
  { s with futures := s.futures.modify i fun f => { f with granted := true, waker := none } }

def wakerOf (s : State) (i : ℕ) : List ℕ := ((s.futures.get i).bind Waiting.waker).toList

def isReader (s : State) (i : ℕ) : Bool := (s.futures.get i).any (·.kind == .reader)

def isWriter (s : State) (i : ℕ) : Bool := (s.futures.get i).any (·.kind == .writer)

/-- The loop of `wake_readers_locked` over the waiters of the queue, and the wakers it wakes. -/
def wakeReaders (s : State) : List ℕ → State × List ℕ
  | [] => ({ s with queue := [] }, [])
  | i :: rest =>
    if s.isReader i then
      let (s', wakes) := { s.grant i with readers := s.readers + 1 }.wakeReaders rest
      (s', s.wakerOf i ++ wakes)
    else ({ s with queue := i :: rest }, [])

def wakeReadersLocked (s : State) : State × List ℕ := s.wakeReaders s.queue

def wakeNextLocked (s : State) : State × List ℕ :=
  if s.writer then (s, [])
  else if s.readers ≠ 0 then
    -- More readers may join unless a writer is next in line.
    if s.queue.head?.any s.isWriter then (s, []) else s.wakeReadersLocked
  else
    match s.queue with
    | i :: rest =>
      if s.isWriter i then
        ({ s.grant i with
          queue := rest
          waitingWriters := s.waitingWriters - 1
          writer := true }, s.wakerOf i)
      else s.wakeReadersLocked
    | [] => s.wakeReadersLocked

def tryRead (s : State) : Option State :=
  if s.writer ∨ s.waitingWriters ≠ 0 ∨ s.queue ≠ [] then none
  else some { s with readers := s.readers + 1 }

def tryWrite (s : State) : Option State :=
  if s.writer ∨ s.readers ≠ 0 ∨ s.queue ≠ [] then none
  else some { s with writer := true }

def wait (s : State) (i : ℕ) (f : Waiting) (waker : ℕ) : State :=
  { s with
    futures := s.futures.modify i fun f => { f with waker := some waker, registered := true }
    queue := if f.registered then s.queue else s.queue ++ [i]
    waitingWriters := if !f.registered && f.kind == .writer then s.waitingWriters + 1
      else s.waitingWriters }

/-- `Read::poll` and `Write::poll` of a future with budget: whether it returns a guard. -/
def poll (s : State) (i : ℕ) (f : Waiting) (waker : ℕ) : Bool × State :=
  if f.granted then
    (true, { s with
      futures := s.futures.modify i fun f => { f with granted := false, registered := false } })
  else
    match f.kind with
    | .reader =>
      if !f.registered ∧ !s.writer ∧ s.waitingWriters = 0 ∧ s.queue = [] then
        (true, { s with readers := s.readers + 1 })
      else (false, s.wait i f waker)
    | .writer =>
      if !f.registered ∧ !s.writer ∧ s.readers = 0 ∧ s.queue = [] then
        (true, { s with writer := true })
      else (false, s.wait i f waker)

/-- `Drop for Read` and `Drop for Write` -/
def dropFuture (s : State) (i : ℕ) (f : Waiting) : State × List ℕ :=
  let s := { s with futures := s.futures.remove i }
  if f.granted then
    match f.kind with
    | .reader => { s with readers := s.readers - 1 }.wakeNextLocked
    | .writer => { s with writer := false }.wakeNextLocked
  else if f.registered then
    ({ s with
      queue := s.queue.filter (· ≠ i)
      waitingWriters := if f.kind = .writer then s.waitingWriters - 1 else s.waitingWriters }, [])
  else (s, [])

def dropReadGuard (s : State) : State × List ℕ :=
  { s with readers := s.readers - 1 }.wakeNextLocked

def dropWriteGuard (s : State) : State × List ℕ :=
  { s with writer := false }.wakeNextLocked

def downgrade (s : State) : State × List ℕ :=
  { s with
    writer := false
    readers := 1 }.wakeNextLocked

end State

structure System where
  state : State
  /-- The live `ReadGuard`s. -/
  readGuards : ℕ
  /-- The live `WriteGuard`s. -/
  writeGuards : ℕ
  wakes : List ℕ

def System.new : System := ⟨.new, 0, 0, []⟩

inductive Label where
  /-- `read` or `write`; the future is at `i`. -/
  | lock (i : ℕ) (kind : WaitKind)
  /-- A poll that may have run out of its cooperative budget. -/
  | poll (i : ℕ) (proceed : Bool) (waker : ℕ)
  | dropFuture (i : ℕ)
  | tryRead
  | tryWrite
  | dropReadGuard
  | dropWriteGuard
  | downgrade

namespace System

def withGuard (s : System) : WaitKind → System
  | .reader => { s with readGuards := s.readGuards + 1 }
  | .writer => { s with writeGuards := s.writeGuards + 1 }

def step (s : System) : Label → Option System
  | .lock i kind =>
    if s.state.futures.Vacant i then
      some { s with
        state := { s.state with futures := s.state.futures.insert i (.new kind) } }
    else none
  | .poll i proceed waker =>
    (s.state.futures.get i).map fun f =>
      if proceed then
        let (ready, state) := s.state.poll i f waker
        let s := { s with state := state }
        if ready then s.withGuard f.kind else s
      else { s with wakes := s.wakes ++ [waker] }
  | .dropFuture i =>
    (s.state.futures.get i).map fun f =>
      let (state, wakes) := s.state.dropFuture i f
      { s with
        state := state
        wakes := s.wakes ++ wakes }
  | .tryRead =>
    match s.state.tryRead with
    | none => some s
    | some state => some ({ s with state := state }.withGuard .reader)
  | .tryWrite =>
    match s.state.tryWrite with
    | none => some s
    | some state => some ({ s with state := state }.withGuard .writer)
  | .dropReadGuard =>
    if 0 < s.readGuards then
      let (state, wakes) := s.state.dropReadGuard
      some { s with
        state := state
        readGuards := s.readGuards - 1
        wakes := s.wakes ++ wakes }
    else none
  | .dropWriteGuard =>
    if 0 < s.writeGuards then
      let (state, wakes) := s.state.dropWriteGuard
      some { s with
        state := state
        writeGuards := s.writeGuards - 1
        wakes := s.wakes ++ wakes }
    else none
  | .downgrade =>
    if 0 < s.writeGuards then
      let (state, wakes) := s.state.downgrade
      some { s with
        state := state
        readGuards := s.readGuards + 1
        writeGuards := s.writeGuards - 1
        wakes := s.wakes ++ wakes }
    else none

end System

end Eddy.RwLock
