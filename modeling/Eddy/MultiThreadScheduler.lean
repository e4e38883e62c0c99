import Eddy.TaskInterleaving

/-!
# The multi-thread scheduler, as a task sees it

`scheduler/multi_thread/worker.rs` and `inject.rs`. A thread counts for its `WORKER_ID`:
`some w` is the thread that serves worker `w`, `none` is any other. Several threads may
have `WORKER_ID` `none`.
-/

namespace Eddy.MultiThread
open TaskState TaskHarness Interleaving

abbrev Thread := Option ℕ

inductive Place where
  | lifo (worker : ℕ)
  | localQueue (worker : ℕ)
  /-- Moved out of a full local queue, on the way to the injector. -/
  | overflow (worker : ℕ)
  | injector
  deriving DecidableEq

/-- What `schedule` and the workers read of the state they share. -/
structure Env where
  workers : ℕ
  lifoSlotEnabled : Bool
  shutdown : Bool
  closed : Bool
  lifoFull : ℕ → Bool
  localFull : ℕ → Bool
  finished : ℕ → Bool

inductive Pre where
  | checkShutdown
  | route
  | push
  | pushLocked
  deriving DecidableEq

inductive Post where
  | pushBatch
  | unparkOverflow
  | taskQueued
  | taskQueuedRemote
  | unparkTarget
  deriving DecidableEq

/-- Wakes go to the worker that polled the task last. -/
def scheduleTarget (env : Env) (target owner : ℕ) : ℕ :=
  if owner < env.workers then owner else target

/-- `MultiThreadHandle::schedule` with `Injector::push`, as long as it holds the entry. -/
def schedule (env : Env) (thread : Thread) (target owner : ℕ) : Pre → Routing Place Pre Post
  | .checkShutdown => if env.shutdown then .drop none else .goOn .route
  | .route =>
      let target := scheduleTarget env target owner
      if thread = some target then
        if env.lifoSlotEnabled && !env.lifoFull target then
          .queue (.lifo target) (some .taskQueued)
        else if env.localFull target then .queue (.localQueue target) (some .pushBatch)
        else .queue (.localQueue target) (some .taskQueued)
      else .goOn .push
  | .push => if env.closed then .drop (some .taskQueuedRemote) else .goOn .pushLocked
  | .pushLocked =>
      if env.closed then .drop (some .taskQueuedRemote)
      else .queue .injector (some .taskQueuedRemote)

/-- The accesses through `self` that follow. -/
def afterQueueing : Post → Option Post
  | .pushBatch => some .unparkOverflow
  | .unparkOverflow => some .taskQueued
  | .taskQueued => none
  | .taskQueuedRemote => some .unparkTarget
  | .unparkTarget => none

/-- A worker that has not finished runs what is in its LIFO slot, its local queue or the
injector. -/
def mayTake (env : Env) : Thread → Place → Bool
  | some w, place =>
      w < env.workers && !env.finished w &&
        (place = .lifo w || place = .localQueue w || place = .injector)
  | none, _ => false

/-- `steal_into`, `take_injected`, `push_overflow` and `push_batch`. -/
def mayMove (env : Env) : Place → Place → Bool
  | .localQueue _, .localQueue w | .injector, .localQueue w => w < env.workers && !env.finished w
  | .localQueue v, .overflow w => v = w
  | .overflow _, .injector => !env.closed
  | _, _ => false

/-- `push_batch` drops what it finds the injector closed for. -/
def mayDiscard (env : Env) : Place → Bool
  | .overflow _ => env.closed
  | _ => false

abbrev scheduler : Scheduler where
  Env := Env
  Thread := Thread
  Place := Place
  Pre := Pre
  Post := Post
  enter := .checkShutdown
  pre := schedule
  post := afterQueueing
  mayTake := mayTake
  mayMove := mayMove
  mayDiscard := mayDiscard
  runsDeferred := fun _ _ => false
  claimOwner := fun thread owner => thread.getD owner
  refuses := fun _ => false
  registersLocked := false
  deallocHere := fun _ _ => true
  forgets := fun _ _ => false
  foreign := fun _ _ => false

/-- A scheduler that is not shutting down, with room in its queues. -/
def Env.open (workers : ℕ) : Env where
  workers := workers
  lifoSlotEnabled := true
  shutdown := false
  closed := false
  lifoFull := fun _ => false
  localFull := fun _ => false
  finished := fun _ => false

def under (env : Env) (as : List (Action scheduler)) : List (Env × Action scheduler) :=
  as.map fun a => (env, a)

/-- The next `n` accesses of operation `i`. -/
def advances (i n : ℕ) : List (Action scheduler) := List.replicate n (.advance i)

def spawnSteps : List (Action scheduler) := advances 0 8

end Eddy.MultiThread
