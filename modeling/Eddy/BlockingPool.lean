import Eddy.Interleaving
import Eddy.TaskState

/-!
# The blocking pool

`blocking.rs` with any number of calls of `submit`, its threads and `shutdown`. A section under the
lock of the queue is one step, and so is every access to an atomic outside of it. A queue entry is
run by `poll` of `task/harness.rs`, which catches the panic of a closure, but nobody catches that of
a destructor: it ends the thread, which stays counted, or leaves the call or the shutdown.
-/

namespace Eddy.BlockingPool
open Interleaving TaskState TaskState.Snapshot

/-- What `complete` puts into the stage. -/
inductive Outcome where
  | ready
  | panicked
  | cancelled
  deriving DecidableEq

structure Task where
  word : UInt64
  /-- How often the closure was called. -/
  runs : ℕ
  outcome : Option Outcome

namespace Task

def new : Task := ⟨State.new, 0, none⟩

/-- `complete` and `finalize`. -/
def complete (task : Task) (outcome : Outcome) : Task :=
  { task with word := State.transitionToComplete task.word, outcome := some outcome }

/-- `shutdown` of the vtable, which `abort` calls as well. -/
def shutdown (task : Task) : Task :=
  let before := task.word
  let task := { task with word := setCancelled before }
  if isComplete before || isCancelled before || isRunning before || isNotified before then task
  else task.complete .cancelled

end Task

/-- Where `poll` of a queue entry is. -/
inductive Poll where
  /-- Before `transition_to_running`. -/
  | begins (job : ℕ)
  /-- In the closure. -/
  | runs (job : ℕ)
  /-- Before `complete`. -/
  | finishes (job : ℕ) (outcome : Outcome)
  deriving DecidableEq

/-- What follows a step of `poll`. -/
inductive Next where
  | goes (poll : Poll)
  | done
  /-- The panic of a destructor leaves `poll`, and for good the entry that is not finished. -/
  | unwinds (lost : Option Poll)

/-- What the closure's return makes of the poll; a panic is caught. -/
def Poll.returned (job : ℕ) (panics : Bool) : Poll :=
  .finishes job (if panics then .panicked else .ready)

/-- One step of `poll`. The closure that was not called is dropped before the task is complete, an
unread output or panic payload after that. -/
def Task.poll (task : Task) (panics : Bool) : Poll → Task × Next
  | .begins job =>
    match State.transitionToRunning task.word with
    | (.success, word) => ({ task with word, runs := task.runs + 1 }, .goes (.runs job))
    | (.failed snap, word) =>
      let task := { task with word }
      if isCancelled snap && !isComplete snap then (task, .goes (.finishes job .cancelled))
      else (task, .done)
  | .runs job => (task, .goes (.returned job panics))
  | .finishes job outcome =>
    if !panics then (task.complete outcome, .done)
    else if outcome = .cancelled then (task, .unwinds (some (.finishes job outcome)))
    else (task.complete outcome, .unwinds none)

def Poll.job : Poll → ℕ
  | .begins job | .runs job | .finishes job _ => job

/-- How a thread came to the top of its loop. -/
inductive Origin where
  | spawned
  | woken
  | ran
  deriving DecidableEq

inductive Thread where
  /-- At the top of `thread_loop`, before it locks the queue. -/
  | top (origin : Origin)
  | polls (poll : Poll)
  /-- In `wait_timeout`, with the lock given up. -/
  | waits
  /-- Before it has the lock again. -/
  | woken (timedOut : Bool)
  /-- Out of the loop, before `num_threads.fetch_sub`. -/
  | leaves
  | exited
  /-- `job.run()` was left by a panic, and `num_threads` was not taken back. -/
  | died (lost : Option Poll)
  deriving DecidableEq

inductive Caller where
  /-- Before `submit` locks the queue. -/
  | enters (job : ℕ)
  /-- In `cancel_task`, before `shutdown` of the task. -/
  | cancels (job : ℕ)
  | polls (poll : Poll)
  /-- Before `notify_one`. -/
  | notifies (spawn : Bool)
  /-- In `spawn_thread`. -/
  | spawns
  /-- Before the push of the thread's handle. -/
  | pushes (thread : ℕ)
  | returned
  /-- The `expect` of `spawn_thread`: no thread was started. -/
  | unspawned
  /-- `cancel_task` was left by a panic. -/
  | unwound (lost : Option Poll)
  deriving DecidableEq

def Caller.entering : Caller → Bool
  | .enters _ => true
  | _ => false

def Caller.over : Caller → Bool
  | .returned | .unspawned | .unwound _ => true
  | _ => false

/-- The pool is shut down by one call at a time. -/
inductive Shutdown where
  | ready
  /-- Before the swap of `closed`. -/
  | closes
  /-- Before it takes the queue. -/
  | drains
  /-- Before `cancel_task` of the next one, or `notify_all` after the last. -/
  | cancels (queued : List ℕ)
  | polls (poll : Poll) (queued : List ℕ)
  /-- Before it takes the handles. -/
  | takes
  | joins (handles : List ℕ)
  | returned
  /-- `cancel_task`, or the `expect` on a thread that died, was left by a panic. -/
  | unwound (lost : List Poll)
  deriving DecidableEq

def Next.thread : Next → Thread
  | .goes poll => .polls poll
  | .done => .top .ran
  | .unwinds lost => .died lost

def Next.caller : Next → Caller
  | .goes poll => .polls poll
  | .done => .returned
  | .unwinds lost => .unwound lost

def Next.shutdown (queued : List ℕ) : Next → Shutdown
  | .goes poll => .polls poll queued
  | .done => .cancels queued
  | .unwinds lost => .unwound (lost.toList ++ queued.map .begins)

structure State where
  maxThreads : ℕ
  jobs : List ℕ
  idle : ℕ
  closed : Bool
  numThreads : ℕ
  /-- The `threads` whose handles were pushed. -/
  handles : List ℕ
  threads : List Thread
  callers : List Caller
  shutdown : Shutdown
  tasks : List Task

inductive Label where
  | submit
  /-- The next step of a call; the closure or the destructor that runs in it panics or not, and so
  does the `expect` on the new thread. -/
  | caller (i : ℕ) (panics : Bool)
  /-- `notify_one` of a call, with the waiter that it wakes. -/
  | notify (i : ℕ) (waiter : Option ℕ)
  | thread (i : ℕ) (panics : Bool)
  /-- A wait ends with the timeout or for no reason. -/
  | wake (i : ℕ) (timedOut : Bool)
  | shutdown
  /-- The next step of the shutdown. -/
  | closing (panics : Bool)
  | abort (job : ℕ)

namespace State

def init (maxThreads : ℕ) : State where
  maxThreads
  jobs := []
  idle := 0
  closed := false
  numThreads := 0
  handles := []
  threads := []
  callers := []
  shutdown := .ready
  tasks := []

def setThread (s : State) (i : ℕ) (thread : Thread) : State :=
  { s with threads := s.threads.set i thread }

def setCaller (s : State) (i : ℕ) (caller : Caller) : State :=
  { s with callers := s.callers.set i caller }

def shutdownTask (s : State) (job : ℕ) : State :=
  { s with tasks := s.tasks.modify job Task.shutdown }

/-- A step of `poll`, by whoever runs the entry. -/
def poll (s : State) (poll : Poll) (panics : Bool) : Option (State × Next) :=
  s.tasks[poll.job]?.map fun task =>
    let (task, next) := task.poll panics poll
    ({ s with tasks := s.tasks.set poll.job task }, next)

/-- The locked section of `submit`. -/
def enter (s : State) (i job : ℕ) : State :=
  if s.closed then s.setCaller i (.cancels job)
  else
    let s := { s with jobs := s.jobs ++ [job] }
    if s.idle = 0 ∧ s.numThreads < s.maxThreads then
      { s with numThreads := s.numThreads + 1 }.setCaller i (.notifies true)
    else s.setCaller i (.notifies false)

/-- The locked section at the top of the loop. -/
def look (s : State) (i : ℕ) : State :=
  match s.jobs with
  | job :: jobs => { s with jobs }.setThread i (.polls (.begins job))
  | [] =>
    if s.closed then s.setThread i .leaves
    else { s with idle := s.idle + 1 }.setThread i .waits

/-- From the end of a wait to the end of the locked section. -/
def relock (s : State) (i : ℕ) (timedOut : Bool) : State :=
  let s := { s with idle := s.idle - 1 }
  if timedOut && s.jobs.isEmpty && !s.closed then s.setThread i .leaves
  else s.setThread i (.top .woken)

def callerStep (s : State) (i : ℕ) (panics : Bool) : Caller → Option State
  | .enters job => some (s.enter i job)
  | .cancels job => some ((s.shutdownTask job).setCaller i (.polls (.begins job)))
  | .polls poll => (s.poll poll panics).map fun (s, next) => s.setCaller i next.caller
  | .spawns =>
    if panics then some (s.setCaller i .unspawned)
    else some ({ s with threads := s.threads ++ [Thread.top .spawned] }.setCaller i
      (.pushes s.threads.length))
  | .pushes thread => some ({ s with handles := s.handles ++ [thread] }.setCaller i .returned)
  | .notifies _ | .returned | .unspawned | .unwound _ => none

/-- `notify_one` wakes a waiter if there is one. -/
def notifyOne (s : State) : Option ℕ → Option State
  | some t => if s.threads[t]? = some .waits then some (s.setThread t (.woken false)) else none
  | none => if Thread.waits ∈ s.threads then none else some s

def notifyAll (s : State) : State :=
  { s with threads := s.threads.map fun t => if t = .waits then .woken false else t }

def threadStep (s : State) (i : ℕ) (panics : Bool) : Thread → Option State
  | .top _ => some (s.look i)
  | .polls poll => (s.poll poll panics).map fun (s, next) => s.setThread i next.thread
  | .woken timedOut => some (s.relock i timedOut)
  | .leaves => some ({ s with numThreads := s.numThreads - 1 }.setThread i .exited)
  | .waits | .exited | .died _ => none

def closingStep (s : State) (panics : Bool) : Option State :=
  match s.shutdown with
  | .closes =>
    if s.closed then some { s with shutdown := .returned }
    else some { s with closed := true, shutdown := .drains }
  | .drains => some { s with jobs := [], shutdown := .cancels s.jobs }
  | .cancels (job :: queued) =>
    some { s.shutdownTask job with shutdown := .polls (.begins job) queued }
  | .cancels [] => some { s.notifyAll with shutdown := .takes }
  | .polls poll queued => (s.poll poll panics).map fun (s, next) =>
    { s with shutdown := next.shutdown queued }
  | .takes => some { s with handles := [], shutdown := .joins s.handles }
  | .joins (i :: handles) =>
    match s.threads[i]? with
    | some .exited => some { s with shutdown := .joins handles }
    | some (.died _) => some { s with shutdown := .unwound [] }
    | _ => none
  | .joins [] => some { s with shutdown := .returned }
  | .ready | .returned | .unwound _ => none

def step (s : State) : Label → Option State
  | .submit =>
    some { s with
      callers := s.callers ++ [.enters s.tasks.length]
      tasks := s.tasks ++ [.new] }
  | .caller i panics => s.callers[i]?.bind fun caller => s.callerStep i panics caller
  | .notify i waiter => s.callers[i]?.bind fun caller =>
    match caller with
    | .notifies spawn => (s.notifyOne waiter).map fun s =>
      s.setCaller i (if spawn then .spawns else .returned)
    | _ => none
  | .thread i panics => s.threads[i]?.bind fun thread => s.threadStep i panics thread
  | .wake i timedOut =>
    if s.threads[i]? = some .waits then some (s.setThread i (.woken timedOut)) else none
  | .shutdown =>
    match s.shutdown with
    | .ready | .unwound _ => some { s with shutdown := .closes }
    | .returned => some s
    | _ => none
  | .closing panics => s.closingStep panics
  | .abort job => some (s.shutdownTask job)

end State

end Eddy.BlockingPool
