import Eddy.BrowserEvents
import Eddy.KeyedMaps

/-!
# The browser's projection

`applyEvent` of `console-ui` with the records it keeps, over JavaScript numbers.
-/

namespace Eddy.ConsoleUi
open KeyedMaps

/-- The double nearest to an integer, ties to even. -/
def toDouble (n : ℤ) : ℤ :=
  let unit := 2 ^ (n.natAbs.log2 - 52)
  let quotient := n.natAbs / unit
  let remainder := n.natAbs % unit
  let rounded :=
    if 2 * remainder < unit ∨ (2 * remainder = unit ∧ quotient % 2 = 0) then quotient
    else quotient + 1
  n.sign * (rounded * unit : ℕ)

def add (a b : ℤ) : ℤ := toDouble (a + b)

/-- `String(n)`. -/
def key (n : ℤ) : String := toString n

namespace RuntimeEvent

def mapNumbers (f : ℤ → ℤ) : RuntimeEvent → RuntimeEvent
  | .taskSpawned id name location parent =>
    .taskSpawned (f id) name { location with line := f location.line } (parent.map f)
  | .taskPollStart id worker atNs => .taskPollStart (f id) (f worker) (f atNs)
  | .taskPollEnd id worker durationNs result =>
    .taskPollEnd (f id) (f worker) (f durationNs) result
  | .taskWoken id (.io fd) => .taskWoken (f id) (.io (f fd))
  | .taskWoken id (.timer timer) => .taskWoken (f id) (.timer (f timer))
  | .taskWoken id (.task task) => .taskWoken (f id) (.task (f task))
  | .taskWoken id source => .taskWoken (f id) source
  | .taskDropped id totalPolls totalBusyNs totalIdleNs =>
    .taskDropped (f id) (f totalPolls) (f totalBusyNs) (f totalIdleNs)
  | .taskAborted id => .taskAborted (f id)
  | .workerPark worker timeoutNs => .workerPark (f worker) (timeoutNs.map f)
  | .workerUnpark worker reason => .workerUnpark (f worker) reason
  | .workerSteal thief victim count => .workerSteal (f thief) (f victim) (f count)
  | .queueDepth worker localDepth globalDepth lifo =>
    .queueDepth (f worker) (f localDepth) (f globalDepth) lifo
  | .ioRegistered fd interest task => .ioRegistered (f fd) interest (f task)
  | .ioReady fd readiness woke => .ioReady (f fd) readiness (woke.map f)
  | .timerSet id deadlineNs task => .timerSet (f id) (f deadlineNs) (f task)
  | .timerFired id latenessNs => .timerFired (f id) (f latenessNs)
  | .timerCancelled id => .timerCancelled (f id)
  | .blockingDetected task pollDurationNs location =>
    .blockingDetected (f task) (f pollDurationNs) { location with line := f location.line }
  | .budgetExhausted task => .budgetExhausted (f task)
  | .resourceContended kind holder waiters =>
    .resourceContended kind (f holder) (waiters.map f)

/-- The event `JSON.parse` makes of the text of a console event: each number is the double nearest
to what the text says. -/
def received (e : Console.Event) : RuntimeEvent := (of e).mapNumbers toDouble

end RuntimeEvent

inductive TaskState where
  | queued
  | running
  | idle
  | done
  | cancelled
  deriving DecidableEq

inductive SegmentState where
  | queued
  | running
  | idle
  deriving DecidableEq

/-- `finish` is the field `end`. -/
structure TimelineSegment where
  state : SegmentState
  start : ℤ
  finish : Option ℤ

structure WakeRecord where
  sequence : ℤ
  source : String

structure TaskRecord where
  id : ℤ
  name : String
  parent : Option ℤ
  state : TaskState
  worker : ℤ
  polls : ℤ
  busyNs : ℤ
  idleNs : ℤ
  scheduled : ℤ
  location : Option Location
  warnings : List String
  pollDurationsNs : List ℤ
  wakeSources : List String
  wakeHistory : List WakeRecord
  segments : List TimelineSegment

structure WorkerSample where
  sequence : ℤ
  localDepth : ℤ
  globalDepth : ℤ

structure WorkerRecord where
  id : ℤ
  polls : ℤ
  busyNs : ℤ
  parks : ℤ
  steals : ℤ
  localQueue : ℤ
  globalQueue : ℤ
  samples : List WorkerSample

structure WakeEdge where
  source : ℤ
  target : ℤ
  sequence : ℤ

structure Projection where
  tasks : AList fun _ : String => TaskRecord
  workers : AList fun _ : String => WorkerRecord
  wakeEdges : List WakeEdge
  warningCount : ℤ
  sequence : ℤ

def initialProjection : Projection := ⟨∅, ∅, [], 0, 0⟩

def maxDetailHistory : ℕ := 64

def maxWorkerSamples : ℕ := 128

def appendBounded {T : Type} (items : List T) (item : T) (limit : ℕ) : List T :=
  if limit = 0 then []
  else
    let next := if items.length ≥ limit then items.drop (items.length - limit + 1) else items
    next ++ [item]

def taskRecord (id : ℤ) : TaskRecord where
  id
  name := "<unnamed>"
  parent := none
  state := .queued
  worker := 0
  polls := 0
  busyNs := 0
  idleNs := 0
  scheduled := 1
  location := none
  warnings := []
  pollDurationsNs := []
  wakeSources := []
  wakeHistory := []
  segments := []

def workerRecord (id : ℤ) : WorkerRecord := ⟨id, 0, 0, 0, 0, 0, 0, []⟩

namespace TaskRecord

def warning (task : TaskRecord) (value : String) : TaskRecord :=
  if value ∈ task.warnings then task else { task with warnings := task.warnings ++ [value] }

def closeSegment (task : TaskRecord) (sequence : ℤ) : TaskRecord :=
  { task with
    segments := task.segments.modifyLast fun last =>
      if last.finish = none then { last with finish := some sequence } else last }

def pushSegment (task : TaskRecord) (state : SegmentState) (sequence : ℤ) : TaskRecord :=
  { task with segments := task.segments ++ [⟨state, sequence, none⟩] }

def addSegment (task : TaskRecord) (state : SegmentState) (sequence : ℤ) : TaskRecord :=
  (task.closeSegment sequence).pushSegment state sequence

def rememberDuration (task : TaskRecord) (duration : ℤ) : TaskRecord :=
  { task with
    pollDurationsNs := appendBounded task.pollDurationsNs duration maxDetailHistory }

end TaskRecord

def wakeLabel : WakeSource → String
  | .io fd => s!"io:{fd}"
  | .timer id => s!"timer:{id}"
  | .task id => s!"task:{id}"
  | .channel channel => s!"channel:{channel}"
  | .external => "external"

namespace Projection

/-- `getTask(id)` and what is then done to the copy it stored. -/
def updateTask (next : Projection) (id : ℤ) (f : TaskRecord → TaskRecord) : Projection :=
  { next with tasks := upsert next.tasks (key id) (taskRecord id) f }

/-- `getWorker(id)` and what is then done to the copy it stored. -/
def updateWorker (next : Projection) (id : ℤ) (f : WorkerRecord → WorkerRecord) : Projection :=
  { next with workers := upsert next.workers (key id) (workerRecord id) f }

def ensureTask (next : Projection) (id : ℤ) : Projection := next.updateTask id fun task => task

def ensureWorker (next : Projection) (id : ℤ) : Projection :=
  next.updateWorker id fun worker => worker

end Projection

/-- The `switch` of `applyEvent`. -/
def applyCase (next : Projection) (event : RuntimeEvent) (sequence : ℤ) : Projection :=
  match event with
  | .taskSpawned id name location parent =>
    next.updateTask id fun task =>
      let task := { task with
        name := name.getD "<unnamed>"
        parent
        location := some location
        state := .queued }
      if task.segments.length = 0 then task.addSegment .queued sequence else task
  | .taskPollStart id worker _ =>
    let next := next.updateTask id fun task =>
      { task with worker, state := .running }.addSegment .running sequence
    next.ensureWorker worker
  | .taskPollEnd id worker durationNs result =>
    let next := next.updateTask id fun task =>
      let task := { task with
        worker
        polls := add task.polls 1
        busyNs := add task.busyNs durationNs }
      let task := task.rememberDuration durationNs
      let task := { task with
        state := if result = PollResult.ready then .done
          else if result = PollResult.pending then .idle
          else .cancelled }
      let task := if result = PollResult.panicked then task.warning "panic" else task
      let task := task.closeSegment sequence
      if result = PollResult.pending then task.pushSegment .idle sequence else task
    next.updateWorker worker fun worker =>
      { worker with polls := add worker.polls 1, busyNs := add worker.busyNs durationNs }
  | .taskWoken id source =>
    let next := next.updateTask id fun task =>
      let source := wakeLabel source
      { task with
        state := .queued
        scheduled := add task.scheduled 1
        wakeSources := appendBounded task.wakeSources source maxDetailHistory
        wakeHistory := appendBounded task.wakeHistory ⟨sequence, source⟩ maxDetailHistory
      }.addSegment .queued sequence
    match source with
    | .task sourceId => { next with wakeEdges := next.wakeEdges ++ [⟨sourceId, id, sequence⟩] }
    | _ => next
  | .taskDropped id totalPolls totalBusyNs totalIdleNs =>
    next.updateTask id fun task =>
      { task with state := .done, polls := totalPolls, busyNs := totalBusyNs, idleNs := totalIdleNs
      }.closeSegment sequence
  | .taskAborted id =>
    next.updateTask id fun task => { task with state := .cancelled }.closeSegment sequence
  | .workerPark worker _ =>
    next.updateWorker worker fun worker => { worker with parks := add worker.parks 1 }
  | .workerUnpark worker _ => next.ensureWorker worker
  | .workerSteal thief victim count =>
    let next := next.updateWorker thief fun worker =>
      { worker with steals := add worker.steals count }
    next.ensureWorker victim
  | .queueDepth worker localDepth globalDepth _ =>
    next.updateWorker worker fun worker =>
      { worker with
        localQueue := localDepth
        globalQueue := globalDepth
        samples := appendBounded worker.samples ⟨sequence, localDepth, globalDepth⟩
          maxWorkerSamples }
  | .blockingDetected task pollDurationNs _ =>
    next.updateTask task fun task => (task.warning "blocking").rememberDuration pollDurationNs
  | .budgetExhausted task => next.updateTask task fun task => task.warning "budget"
  | .ioRegistered _ _ task => next.ensureTask task
  | .ioReady _ _ woke => woke.foldl Projection.ensureTask next
  | .timerSet _ _ task => next.ensureTask task
  | .timerFired .. | .timerCancelled .. | .resourceContended .. => next

def applyEvent (projection : Projection) (event : RuntimeEvent) (sequence : ℤ) : Projection :=
  let next := applyCase { projection with sequence } event sequence
  { next with
    warningCount := next.tasks.entries.foldl
      (fun count task => count + task.2.warnings.length) 0 }

/-- `events.reduce((projection, event, index) => applyEvent(projection, event, index + 1), ..)`. -/
def projectEvents (events : List RuntimeEvent) : Projection :=
  events.zipIdx.foldl (fun projection (event, index) => applyEvent projection event (index + 1))
    initialProjection

end Eddy.ConsoleUi
