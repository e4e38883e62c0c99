import Eddy.ConsoleEvents
import Eddy.KeyedMaps

/-!
# The terminal console's projection

`ConsoleModel::apply` of `eddy-console` with the views it keeps.
-/

namespace Eddy.Console
open KeyedMaps

def saturatingAdd (a b : UInt64) : UInt64 :=
  if a.toNat + b.toNat < UInt64.size then a + b else .ofNat (UInt64.size - 1)

inductive TaskState where
  | queued
  | running
  | idle
  | complete
  | cancelled
  deriving DecidableEq

structure TaskView where
  id : UInt64
  name : String := "<unnamed>"
  state : TaskState := .queued
  worker : UInt32 := 0
  polls : UInt64 := 0
  totalBusyNs : UInt64 := 0
  totalIdleNs : UInt64 := 0
  scheduled : UInt64 := 1
  location : Option Location := none
  warnings : List String := []
  pollDurationsNs : List UInt64 := []
  wakeSources : List String := []

namespace TaskView

def new (id : UInt64) : TaskView := { id }

def warning (task : TaskView) (warning : String) : TaskView :=
  if warning ∈ task.warnings then task
  else { task with warnings := task.warnings ++ [warning] }

end TaskView

structure WorkerView where
  localQueue : UInt64 := 0
  globalQueue : UInt64 := 0
  parks : UInt64 := 0
  steals : UInt64 := 0
  busyNs : UInt64 := 0
  polls : UInt64 := 0

structure ResourceView where
  kind : String
  holder : UInt64
  waiters : List UInt64

inductive PendingResource where
  | io (fd : Int32) (interest : String)
  | timer (id deadlineNs : UInt64)
  | resource (kind : String) (holder : UInt64)

structure PendingOperation where
  task : UInt64
  resource : PendingResource

namespace PendingResource

def isIo (fd : Int32) : PendingResource → Bool
  | .io currentFd _ => currentFd == fd
  | _ => false

def isTimer (id : UInt64) : PendingResource → Bool
  | .timer currentId _ => currentId == id
  | _ => false

def isResource (kind : String) : PendingResource → Bool
  | .resource currentKind _ => currentKind == kind
  | _ => false

end PendingResource

structure ConsoleModel where
  tasks : AList fun _ : UInt64 => TaskView := ∅
  workers : AList fun _ : UInt32 => WorkerView := ∅
  resources : AList fun _ : String => ResourceView := ∅
  pendingOperations : List PendingOperation := []
  eventCount : UInt64 := 0
  paused : Bool := false

def maxHistory : ℕ := 64

def pushHistory {T : Type} (history : List T) (value : T) : List T :=
  if history.length = maxHistory then history.tail ++ [value] else history ++ [value]

def wakeSourceName : WakeSource → String
  | .io fd => s!"io:{fd}"
  | .timer id => s!"timer:{id}"
  | .task id => s!"task:{id}"
  | .channel kind => s!"channel:{kind}"
  | .external => "external"

namespace ConsoleModel

def new : ConsoleModel := {}

/-- `task_mut(id)` and what is then done to the task. -/
def updateTask (m : ConsoleModel) (id : UInt64) (f : TaskView → TaskView) : ConsoleModel :=
  { m with tasks := upsert m.tasks id (.new id) f }

/-- `workers.entry(worker).or_default()` and what is then done to the worker. -/
def updateWorker (m : ConsoleModel) (worker : UInt32) (f : WorkerView → WorkerView) :
    ConsoleModel :=
  { m with workers := upsert m.workers worker {} f }

def ensureWorker (m : ConsoleModel) (worker : UInt32) : ConsoleModel :=
  m.updateWorker worker fun view => view

def retainPending (m : ConsoleModel) (p : PendingOperation → Bool) : ConsoleModel :=
  { m with pendingOperations := m.pendingOperations.filter p }

def clearTaskPending (m : ConsoleModel) (task : UInt64) : ConsoleModel :=
  m.retainPending fun operation => operation.task != task

def clearWokenPending (m : ConsoleModel) (task : UInt64) : WakeSource → ConsoleModel
  | .io fd => m.retainPending fun operation =>
    !(operation.resource.isIo fd && operation.task == task)
  | .timer id => m.retainPending fun operation =>
    !(operation.resource.isTimer id && operation.task == task)
  | .task _ | .channel _ | .external => m.clearTaskPending task

def pushPending (m : ConsoleModel) (operations : List PendingOperation) : ConsoleModel :=
  { m with pendingOperations := m.pendingOperations ++ operations }

/-- The `match` of `apply`. -/
def applyMatch (m : ConsoleModel) : Event → ConsoleModel
  | .taskSpawned id name location _ =>
    m.updateTask id fun task =>
      { task with
        name := name.getD "<unnamed>"
        location := some location
        state := .queued
        scheduled := max task.scheduled 1 }
  | .taskPollStart id worker _ =>
    let m := m.clearTaskPending id
    let m := m.updateTask id fun task => { task with worker, state := .running }
    m.ensureWorker worker
  | .taskPollEnd id worker durationNs result =>
    let m := m.updateTask id fun task =>
      let task := { task with
        worker
        polls := saturatingAdd task.polls 1
        totalBusyNs := saturatingAdd task.totalBusyNs durationNs
        pollDurationsNs := pushHistory task.pollDurationsNs durationNs }
      match result with
      | .ready => { task with state := .complete }
      | .pending => { task with state := .idle }
      | .panicked => { task.warning "panic" with state := .cancelled }
    m.updateWorker worker fun workerView =>
      { workerView with
        busyNs := saturatingAdd workerView.busyNs durationNs
        polls := saturatingAdd workerView.polls 1 }
  | .taskWoken id source =>
    let m := m.clearWokenPending id source
    m.updateTask id fun task =>
      { task with
        state := .queued
        scheduled := saturatingAdd task.scheduled 1
        wakeSources := pushHistory task.wakeSources (wakeSourceName source) }
  | .taskDropped id totalPolls totalBusyNs totalIdleNs =>
    let m := m.clearTaskPending id
    m.updateTask id fun task =>
      { task with state := .complete, polls := totalPolls, totalBusyNs, totalIdleNs }
  | .taskAborted id =>
    let m := m.clearTaskPending id
    m.updateTask id fun task => { task with state := .cancelled }
  | .workerPark worker _ =>
    m.updateWorker worker fun view => { view with parks := view.parks + 1 }
  | .workerUnpark worker _ => m.ensureWorker worker
  | .workerSteal thief victim count =>
    let m := m.updateWorker thief fun view =>
      { view with steals := saturatingAdd view.steals count }
    m.ensureWorker victim
  | .queueDepth worker localDepth globalDepth _ =>
    m.updateWorker worker fun view =>
      { view with localQueue := localDepth, globalQueue := globalDepth }
  | .blockingDetected task pollDurationNs _ =>
    m.updateTask task fun task =>
      let task := task.warning "blocking"
      { task with pollDurationsNs := pushHistory task.pollDurationsNs pollDurationNs }
  | .budgetExhausted task => m.updateTask task fun task => task.warning "budget"
  | .resourceContended kind holder waiters =>
    let m := m.retainPending fun operation => !operation.resource.isResource kind
    let m := m.pushPending (waiters.map fun task => ⟨task, .resource kind holder⟩)
    { m with resources := m.resources.insert kind ⟨kind, holder, waiters⟩ }
  | .ioRegistered fd interest task =>
    let m := m.retainPending fun operation =>
      !(operation.resource.isIo fd && operation.task == task)
    m.pushPending [⟨task, .io fd interest⟩]
  | .ioReady fd _ woke =>
    m.retainPending fun operation =>
      !(operation.resource.isIo fd && woke.contains operation.task)
  | .timerSet id deadlineNs task =>
    let m := m.retainPending fun operation => !operation.resource.isTimer id
    m.pushPending [⟨task, .timer id deadlineNs⟩]
  | .timerFired id _ | .timerCancelled id =>
    m.retainPending fun operation => !operation.resource.isTimer id

def apply (m : ConsoleModel) (event : Event) : ConsoleModel :=
  if m.paused then m
  else { m with eventCount := saturatingAdd m.eventCount 1 }.applyMatch event

end ConsoleModel

end Eddy.Console
