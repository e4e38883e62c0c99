import Eddy.ConsoleEvents
import Eddy.Json

/-!
# The browser's events

The types `RuntimeEvent`, `WakeSource` and `Location` of `console-ui`, as JSON objects, and the
browser event that carries the fields of a console event. A `number` is an exact integer.
-/

namespace Eddy.ConsoleUi

@[ext]
structure Location where
  file : String
  line : ℤ

inductive WakeSource where
  | io (fd : ℤ)
  | timer (id : ℤ)
  | task (id : ℤ)
  | channel (channel : String)
  | external

inductive PollResult where
  | ready
  | pending
  | panicked
  deriving DecidableEq

inductive RuntimeEvent where
  | taskSpawned (id : ℤ) (name : Option String) (location : Location) (parent : Option ℤ)
  | taskPollStart (id worker atNs : ℤ)
  | taskPollEnd (id worker durationNs : ℤ) (result : PollResult)
  | taskWoken (id : ℤ) (source : WakeSource)
  | taskDropped (id totalPolls totalBusyNs totalIdleNs : ℤ)
  | taskAborted (id : ℤ)
  | workerPark (worker : ℤ) (timeoutNs : Option ℤ)
  | workerUnpark (worker : ℤ) (reason : String)
  | workerSteal (thief victim count : ℤ)
  | queueDepth (worker localDepth globalDepth : ℤ) (lifo : Bool)
  | ioRegistered (fd : ℤ) (interest : String) (task : ℤ)
  | ioReady (fd : ℤ) (readiness : String) (woke : List ℤ)
  | timerSet (id deadlineNs task : ℤ)
  | timerFired (id latenessNs : ℤ)
  | timerCancelled (id : ℤ)
  | blockingDetected (task pollDurationNs : ℤ) (location : Location)
  | budgetExhausted (task : ℤ)
  | resourceContended (kind : String) (holder : ℤ) (waiters : List ℤ)

def number (n : ℤ) : Json.Value := .num n

def nullable {α : Type} (value : α → Json.Value) : Option α → Json.Value
  | some x => value x
  | none => .null

def Location.members (location : Location) : List (String × Json.Value) :=
  [("file", .str location.file), ("line", number location.line)]

def WakeSource.members : WakeSource → List (String × Json.Value)
  | .io fd => [("kind", .str "io"), ("fd", number fd)]
  | .timer id => [("kind", .str "timer"), ("id", number id)]
  | .task id => [("kind", .str "task"), ("id", number id)]
  | .channel kind => [("kind", .str "channel"), ("channel", .str kind)]
  | .external => [("kind", .str "external")]

def PollResult.value : PollResult → Json.Value
  | .ready => .str "ready"
  | .pending => .str "pending"
  | .panicked => .str "panicked"

def RuntimeEvent.members : RuntimeEvent → List (String × Json.Value)
  | .taskSpawned id name location parent =>
    [("type", .str "task_spawned"), ("id", number id), ("name", nullable .str name),
      ("location", .obj location.members), ("parent", nullable number parent)]
  | .taskPollStart id worker atNs =>
    [("type", .str "task_poll_start"), ("id", number id), ("worker", number worker),
      ("at_ns", number atNs)]
  | .taskPollEnd id worker durationNs result =>
    [("type", .str "task_poll_end"), ("id", number id), ("worker", number worker),
      ("duration_ns", number durationNs), ("result", result.value)]
  | .taskWoken id source =>
    [("type", .str "task_woken"), ("id", number id), ("by", .obj source.members)]
  | .taskDropped id totalPolls totalBusyNs totalIdleNs =>
    [("type", .str "task_dropped"), ("id", number id), ("total_polls", number totalPolls),
      ("total_busy_ns", number totalBusyNs), ("total_idle_ns", number totalIdleNs)]
  | .taskAborted id => [("type", .str "task_aborted"), ("id", number id)]
  | .workerPark worker timeoutNs =>
    [("type", .str "worker_park"), ("worker", number worker),
      ("timeout_ns", nullable number timeoutNs)]
  | .workerUnpark worker reason =>
    [("type", .str "worker_unpark"), ("worker", number worker), ("reason", .str reason)]
  | .workerSteal thief victim count =>
    [("type", .str "worker_steal"), ("thief", number thief), ("victim", number victim),
      ("count", number count)]
  | .queueDepth worker localDepth globalDepth lifo =>
    [("type", .str "queue_depth"), ("worker", number worker), ("local", number localDepth),
      ("global", number globalDepth), ("lifo", .bool lifo)]
  | .ioRegistered fd interest task =>
    [("type", .str "io_registered"), ("fd", number fd), ("interest", .str interest),
      ("task", number task)]
  | .ioReady fd readiness woke =>
    [("type", .str "io_ready"), ("fd", number fd), ("readiness", .str readiness),
      ("woke", .arr (woke.map number))]
  | .timerSet id deadlineNs task =>
    [("type", .str "timer_set"), ("id", number id), ("deadline_ns", number deadlineNs),
      ("task", number task)]
  | .timerFired id latenessNs =>
    [("type", .str "timer_fired"), ("id", number id), ("lateness_ns", number latenessNs)]
  | .timerCancelled id => [("type", .str "timer_cancelled"), ("id", number id)]
  | .blockingDetected task pollDurationNs location =>
    [("type", .str "blocking_detected"), ("task", number task),
      ("poll_duration_ns", number pollDurationNs), ("location", .obj location.members)]
  | .budgetExhausted task => [("type", .str "budget_exhausted"), ("task", number task)]
  | .resourceContended kind holder waiters =>
    [("type", .str "resource_contended"), ("kind", .str kind), ("holder", number holder),
      ("waiters", .arr (waiters.map number))]

def ofU64 (n : UInt64) : ℤ := n.toNat

def ofU32 (n : UInt32) : ℤ := n.toNat

def Location.of (location : Console.Location) : Location :=
  ⟨location.file, ofU32 location.line⟩

def WakeSource.of : Console.WakeSource → WakeSource
  | .io fd => .io fd.toInt
  | .timer id => .timer (ofU64 id)
  | .task id => .task (ofU64 id)
  | .channel kind => .channel kind
  | .external => .external

def PollResult.of : Console.PollResult → PollResult
  | .ready => .ready
  | .pending => .pending
  | .panicked => .panicked

def reasonOf : Console.UnparkReason → String
  | .task => "task"
  | .shutdown => "shutdown"
  | .steal => "steal"
  | .event => "event"

def RuntimeEvent.of : Console.Event → RuntimeEvent
  | .taskSpawned id name location parent =>
    .taskSpawned (ofU64 id) name (.of location) (parent.map ofU64)
  | .taskPollStart id worker atNs => .taskPollStart (ofU64 id) (ofU32 worker) (ofU64 atNs)
  | .taskPollEnd id worker durationNs result =>
    .taskPollEnd (ofU64 id) (ofU32 worker) (ofU64 durationNs) (.of result)
  | .taskWoken id source => .taskWoken (ofU64 id) (.of source)
  | .taskDropped id totalPolls totalBusyNs totalIdleNs =>
    .taskDropped (ofU64 id) (ofU64 totalPolls) (ofU64 totalBusyNs) (ofU64 totalIdleNs)
  | .taskAborted id => .taskAborted (ofU64 id)
  | .workerPark worker timeoutNs => .workerPark (ofU32 worker) (timeoutNs.map ofU64)
  | .workerUnpark worker reason => .workerUnpark (ofU32 worker) (reasonOf reason)
  | .workerSteal thief victim count => .workerSteal (ofU32 thief) (ofU32 victim) (ofU64 count)
  | .queueDepth worker localDepth globalDepth lifo =>
    .queueDepth (ofU32 worker) (ofU64 localDepth) (ofU64 globalDepth) lifo
  | .ioRegistered fd interest task => .ioRegistered fd.toInt interest (ofU64 task)
  | .ioReady fd readiness woke => .ioReady fd.toInt readiness (woke.map ofU64)
  | .timerSet id deadlineNs task => .timerSet (ofU64 id) (ofU64 deadlineNs) (ofU64 task)
  | .timerFired id latenessNs => .timerFired (ofU64 id) (ofU64 latenessNs)
  | .timerCancelled id => .timerCancelled (ofU64 id)
  | .blockingDetected task pollDurationNs location =>
    .blockingDetected (ofU64 task) (ofU64 pollDurationNs) (.of location)
  | .budgetExhausted task => .budgetExhausted (ofU64 task)
  | .resourceContended kind holder waiters =>
    .resourceContended kind (ofU64 holder) (waiters.map ofU64)

theorem number_injective : Function.Injective number := fun _ _ h =>
  Rat.intCast_injective (Json.Value.num.inj h)

theorem nullable_injective {α : Type} {value : α → Json.Value} (h : Function.Injective value)
    (hnull : ∀ x, value x ≠ .null) : Function.Injective (nullable value) := by
  intro x y hxy
  cases x with
  | none =>
    cases y with
    | none => rfl
    | some y => exact absurd hxy.symm (hnull y)
  | some x =>
    cases y with
    | none => exact absurd hxy (hnull x)
    | some y => rw [h hxy]

theorem str_injective : Function.Injective Json.Value.str := fun _ _ h => Json.Value.str.inj h

theorem Location.members_injective : Function.Injective Location.members := by
  intro location location' h
  simp only [members, List.cons.injEq, Prod.mk.injEq, Json.Value.str.injEq, true_and, and_true,
    number_injective.eq_iff] at h
  exact Location.ext_iff.mpr h

theorem WakeSource.members_injective : Function.Injective WakeSource.members := by
  intro source source' h
  cases source <;> cases source'
  all_goals
    simp only [members, List.cons.injEq, Prod.mk.injEq, Json.Value.str.injEq, String.reduceEq,
      reduceCtorEq, false_and, and_false, true_and, and_true, number_injective.eq_iff] at h
  all_goals simp only [h]

theorem PollResult.value_injective : Function.Injective PollResult.value := by
  intro result result' h
  cases result <;> cases result'
  all_goals simp [value] at h ⊢

/-- The member that tells the events apart. -/
def RuntimeEvent.type : RuntimeEvent → String
  | .taskSpawned .. => "task_spawned"
  | .taskPollStart .. => "task_poll_start"
  | .taskPollEnd .. => "task_poll_end"
  | .taskWoken .. => "task_woken"
  | .taskDropped .. => "task_dropped"
  | .taskAborted .. => "task_aborted"
  | .workerPark .. => "worker_park"
  | .workerUnpark .. => "worker_unpark"
  | .workerSteal .. => "worker_steal"
  | .queueDepth .. => "queue_depth"
  | .ioRegistered .. => "io_registered"
  | .ioReady .. => "io_ready"
  | .timerSet .. => "timer_set"
  | .timerFired .. => "timer_fired"
  | .timerCancelled .. => "timer_cancelled"
  | .blockingDetected .. => "blocking_detected"
  | .budgetExhausted .. => "budget_exhausted"
  | .resourceContended .. => "resource_contended"

theorem RuntimeEvent.head?_members (e : RuntimeEvent) :
    e.members.head? = some ("type", .str e.type) := by
  cases e <;> rfl

theorem RuntimeEvent.members_injective : Function.Injective RuntimeEvent.members := by
  intro e e' h
  have htype : e.type = e'.type := by
    have hhead := congrArg List.head? h
    rw [head?_members, head?_members] at hhead
    simpa using hhead
  cases e <;> cases e'
  all_goals simp only [type, String.reduceEq] at htype
  all_goals
    simp only [members, List.cons.injEq, Prod.mk.injEq, Json.Value.str.injEq,
      Json.Value.obj.injEq, Json.Value.arr.injEq, Json.Value.bool.injEq, true_and, and_true,
      number_injective.eq_iff, (nullable_injective str_injective fun _ => nofun).eq_iff,
      (nullable_injective number_injective fun _ => nofun).eq_iff,
      Location.members_injective.eq_iff, WakeSource.members_injective.eq_iff,
      PollResult.value_injective.eq_iff, (List.map_injective_iff.mpr number_injective).eq_iff]
      at h
  all_goals simp only [h]

theorem ofU64_injective : Function.Injective ofU64 := fun _ _ h =>
  UInt64.toNat.inj (Int.ofNat.inj h)

theorem ofU32_injective : Function.Injective ofU32 := fun _ _ h =>
  UInt32.toNat.inj (Int.ofNat.inj h)

theorem Location.of_injective : Function.Injective Location.of := by
  intro location location' h
  cases location
  cases location'
  simpa [of, ofU32_injective.eq_iff] using h

theorem WakeSource.of_injective : Function.Injective WakeSource.of := by
  intro source source' h
  cases source <;> cases source'
  all_goals simp [of, ofU64_injective.eq_iff, Int32.toInt_inj] at h ⊢
  all_goals exact h

theorem PollResult.of_injective : Function.Injective PollResult.of := by
  intro result result' h
  cases result <;> cases result'
  all_goals simp [of] at h ⊢

theorem reasonOf_injective : Function.Injective reasonOf := by
  intro reason reason' h
  cases reason <;> cases reason'
  all_goals simp [reasonOf] at h ⊢

/-- No field of a console event is lost. -/
theorem RuntimeEvent.of_injective : Function.Injective RuntimeEvent.of := by
  intro e e' h
  have htype := congrArg type h
  cases e <;> cases e'
  all_goals simp only [of, type, String.reduceEq] at htype
  all_goals
    simp only [of, taskSpawned.injEq, taskPollStart.injEq, taskPollEnd.injEq, taskWoken.injEq,
      taskDropped.injEq, taskAborted.injEq, workerPark.injEq, workerUnpark.injEq,
      workerSteal.injEq, queueDepth.injEq, ioRegistered.injEq, ioReady.injEq, timerSet.injEq,
      timerFired.injEq, timerCancelled.injEq, blockingDetected.injEq, budgetExhausted.injEq,
      resourceContended.injEq, ofU64_injective.eq_iff, ofU32_injective.eq_iff,
      Int32.toInt_inj, Location.of_injective.eq_iff, WakeSource.of_injective.eq_iff,
      PollResult.of_injective.eq_iff, reasonOf_injective.eq_iff,
      (Option.map_injective ofU64_injective).eq_iff,
      (List.map_injective_iff.mpr ofU64_injective).eq_iff] at h
  all_goals simp only [h]

end Eddy.ConsoleUi
