import Eddy.MultiThreadScheduler
import Eddy.TaskRegistry

/-!
# A multi-thread runtime from its first spawn to the end of its shutdown

Any number of tasks, the workers, and the thread that calls `MultiThread::shutdown`. A
worker finishes when it has read the shutdown flag and found its LIFO slot, its local queue
and the injector empty, which is one step: nobody else adds to its own queues.
-/

namespace Eddy.MultiThread
open TaskState TaskHarness Interleaving

/-- The next step of `MultiThread::shutdown`. -/
inductive Shutdown where
  | notCalled
  | close
  | takeTasks
  /-- The tasks of `rest` are still to be cancelled. -/
  | cancel (rest : List ℕ)
  | cancelling (j : ℕ) (rest : List ℕ)
  | join
  | release
  | returned
  deriving DecidableEq

/-- The shutdown flag is set. -/
def Shutdown.called : Shutdown → Bool
  | .notCalled => false
  | _ => true

/-- The registry has been taken. -/
def Shutdown.taken : Shutdown → Bool
  | .notCalled | .close | .takeTasks => false
  | _ => true

def Shutdown.pending : Shutdown → List ℕ
  | .cancel rest | .cancelling _ rest => rest
  | _ => []

structure Runtime where
  workers : ℕ
  lifoSlotEnabled : Bool
  closed : Bool
  finished : List ℕ
  tasks : List (Task scheduler)
  shutdown : Shutdown

def Runtime.new (workers : ℕ) (lifoSlotEnabled : Bool) : Runtime where
  workers := workers
  lifoSlotEnabled := lifoSlotEnabled
  closed := false
  finished := []
  tasks := []
  shutdown := .notCalled

namespace Runtime

/-- What an operation reads; `localFull` is what `push_back` finds if it is called. -/
def env (r : Runtime) (localFull : Bool) : Env where
  workers := r.workers
  lifoSlotEnabled := r.lifoSlotEnabled
  shutdown := r.shutdown.called
  closed := r.closed
  lifoFull := fun w => r.tasks.any fun t => t.shared.entries.contains (.lifo w)
  localFull := fun _ => localFull
  finished := fun w => r.finished.contains w

end Runtime

/-- A worker that has not finished, or a thread that is no worker. -/
def live (workers : ℕ) (finished : List ℕ) : Thread → Bool
  | some w => w < workers && !finished.contains w
  | none => true

def serving (workers : ℕ) (finished : List ℕ) : Bool :=
  (List.range workers).any fun w => !finished.contains w

/-- Whether somebody will still look at a queue. -/
def serves (workers : ℕ) (finished : List ℕ) : Place → Bool
  | .lifo w | .localQueue w | .overflow w => live workers finished (some w)
  | .injector => serving workers finished

namespace Runtime

/-- Worker `w` has nothing left in the places it looks at, and is in no operation. -/
def drained (r : Runtime) (w : ℕ) : Bool :=
  r.tasks.all fun t =>
    (t.shared.entries.all fun place =>
      place ≠ .lifo w && place ≠ .localQueue w && place ≠ .overflow w && place ≠ .injector) &&
    t.ops.all fun op => op.thread ≠ some w || op.pc.isFinished

/-- Perform an action on task `j`. -/
def onTask (r : Runtime) (localFull : Bool) (j : ℕ) (a : Action scheduler) : Option Runtime :=
  r.tasks[j]?.bind fun t => (step (r.env localFull) t a).map fun t => { r with tasks := r.tasks.set j t }

end Runtime

inductive Event where
  /-- A spawn that has passed the shutdown check. -/
  | spawn (thread : Thread) (target : ℕ)
  | task (j : ℕ) (localFull : Bool) (a : Action scheduler)
  /-- Worker `w` leaves its loop. -/
  | finish (w : ℕ)
  | swap
  | close
  | takeTasks
  | cancelNext
  | cancelReturns
  | unparkAll
  | join
  | release (j : ℕ)
  | return

/-- One step of a worker, of a thread outside or of the shutdown. -/
def Runtime.step (r : Runtime) : Event → Option Runtime
  | .spawn thread target =>
      if !r.shutdown.called && live r.workers r.finished thread && target < r.workers &&
          (thread = none || thread = some target) then
        some { r with tasks := r.tasks ++ [Task.new thread target] }
      else none
  | .task j localFull a =>
      if a.ofShutdown || !a.startThread.all (live r.workers r.finished) then none
      else r.onTask localFull j a
  | .finish w =>
      if r.shutdown.called && live r.workers r.finished (some w) && r.drained w then
        some { r with finished := w :: r.finished }
      else none
  | .swap =>
      match r.shutdown with
      | .notCalled => some { r with shutdown := .close }
      | _ => none
  | .close =>
      match r.shutdown with
      | .close => some { r with closed := true, shutdown := .takeTasks }
      | _ => none
  | .takeTasks =>
      match r.shutdown with
      | .takeTasks =>
          some { r with
            tasks := takeAll (r.env false) r.tasks
            shutdown := .cancel (listedTasks r.tasks) }
      | _ => none
  | .cancelNext =>
      match r.shutdown with
      | .cancel (j :: rest) =>
          r.tasks[j]?.bind fun t => (callShutdown (r.env false) none t).map fun t =>
            { r with tasks := r.tasks.set j t, shutdown := .cancelling j rest }
      | _ => none
  | .cancelReturns =>
      match r.shutdown with
      | .cancelling j rest =>
          if r.tasks[j]?.any fun t => !t.borrowed .registry then
            some { r with shutdown := .cancel rest }
          else none
      | _ => none
  | .unparkAll =>
      match r.shutdown with
      | .cancel [] => some { r with shutdown := .join }
      | _ => none
  | .join =>
      match r.shutdown with
      | .join => if serving r.workers r.finished then none else some { r with shutdown := .release }
      | _ => none
  | .release j =>
      match r.shutdown with
      | .release => r.onTask false j (.releaseRegistry none)
      | _ => none
  | .return =>
      match r.shutdown with
      | .release =>
          if r.tasks.all fun t => t.shared.registry ≠ .taken then
            some { r with shutdown := .returned }
          else none
      | _ => none

def onFirst (as : List (Action scheduler)) : List Event := as.map fun a => .task 0 false a

/-- A task is spawned and polled once by worker 0; it keeps its waker. -/
def spawnAndPark : List Event :=
  .spawn none 0 :: onFirst (spawnSteps ++ .take (some 0) 0 :: advances 1 2 ++
    .cloneWaker .poll :: .pollReturns 1 .pending :: advances 1 2)

end Eddy.MultiThread
