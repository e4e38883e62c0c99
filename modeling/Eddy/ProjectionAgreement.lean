import Eddy.ConsoleModel
import Eddy.EventStore

/-!
# The two projections agree

The terminal's model and the browser's projection of one event sequence, as long as the numbers of
the events and the totals kept are integers a double holds exactly.
-/

namespace Eddy.ConsoleUi
open Console KeyedMaps

def exactBound : ℕ := 2 ^ 53

theorem toDouble_eq_self {n : ℤ} (h : n.natAbs < exactBound) : toDouble n = n := by
  have hlog : n.natAbs.log2 - 52 = 0 := by
    by_cases hn : n.natAbs = 0
    · rw [hn]
      rfl
    · have := (Nat.log2_lt hn).mpr h
      omega
  simp [toDouble, hlog, Nat.mod_one, Int.sign_mul_abs]

theorem add_toNat {a b c : UInt64} (h : (saturatingAdd a b).toNat < exactBound)
    (hc : saturatingAdd a b = c) : add (ofU64 a) (ofU64 b) = ofU64 c := by
  subst hc
  unfold saturatingAdd at h ⊢
  split
  case isTrue hlt =>
    rw [if_pos hlt] at h
    have hsum : (a + b).toNat = a.toNat + b.toNat := by
      rw [UInt64.toNat_add]
      exact Nat.mod_eq_of_lt hlt
    rw [hsum] at h
    have hcast : ofU64 a + ofU64 b = ofU64 (a + b) := by
      simp only [ofU64, hsum]
      push_cast
      rfl
    rw [add, hcast, toDouble_eq_self]
    rw [ofU64, hsum]
    exact h
  case isFalse hlt =>
    rw [if_neg hlt] at h
    exact absurd h (by decide)

namespace RuntimeEvent

/-- Every number of an event. -/
def numbers : RuntimeEvent → List ℤ
  | .taskSpawned id _ location parent => [id, location.line] ++ parent.toList
  | .taskPollStart id worker atNs => [id, worker, atNs]
  | .taskPollEnd id worker durationNs _ => [id, worker, durationNs]
  | .taskWoken id (.io fd) => [id, fd]
  | .taskWoken id (.timer timer) => [id, timer]
  | .taskWoken id (.task task) => [id, task]
  | .taskWoken id _ => [id]
  | .taskDropped id totalPolls totalBusyNs totalIdleNs => [id, totalPolls, totalBusyNs, totalIdleNs]
  | .taskAborted id => [id]
  | .workerPark worker timeoutNs => worker :: timeoutNs.toList
  | .workerUnpark worker _ => [worker]
  | .workerSteal thief victim count => [thief, victim, count]
  | .queueDepth worker localDepth globalDepth _ => [worker, localDepth, globalDepth]
  | .ioRegistered fd _ task => [fd, task]
  | .ioReady fd _ woke => fd :: woke
  | .timerSet id deadlineNs task => [id, deadlineNs, task]
  | .timerFired id latenessNs => [id, latenessNs]
  | .timerCancelled id => [id]
  | .blockingDetected task pollDurationNs location => [task, pollDurationNs, location.line]
  | .budgetExhausted task => [task]
  | .resourceContended _ holder waiters => holder :: waiters

theorem map_toList_eq {f : ℤ → ℤ} {x : Option ℤ} (h : ∀ n ∈ x.toList, f n = n) : x.map f = x := by
  cases x with
  | none => rfl
  | some n => rw [Option.map_some, h n (by simp)]

theorem map_list_eq {f : ℤ → ℤ} {l : List ℤ} (h : ∀ n ∈ l, f n = n) : l.map f = l :=
  (List.map_congr_left h).trans (List.map_id' l)

theorem mapNumbers_eq_self {f : ℤ → ℤ} {e : RuntimeEvent} (h : ∀ n ∈ e.numbers, f n = n) :
    e.mapNumbers f = e := by
  cases e
  case taskWoken id source =>
    cases source
    all_goals simp_all [numbers, mapNumbers]
  case taskSpawned | workerPark =>
    simp only [numbers, List.mem_append, List.mem_cons, List.not_mem_nil, or_false] at h
    simp [mapNumbers, h, map_toList_eq fun n hn => h n (.inr hn)]
  case ioReady | resourceContended =>
    simp only [numbers, List.mem_cons] at h
    simp [mapNumbers, h, map_list_eq fun n hn => h n (.inr hn)]
  all_goals simp_all [numbers, mapNumbers]

/-- Numbers are unsigned but for file descriptors. -/
theorem neg_bound_lt_numbers (e : Event) : ∀ n ∈ (of e).numbers, -(exactBound : ℤ) < n := by
  have hu64 : ∀ n : UInt64, -(exactBound : ℤ) < ofU64 n := fun n => by
    have : 0 ≤ ofU64 n := Int.natCast_nonneg _
    have : (0 : ℤ) < exactBound := by decide
    omega
  have hu32 : ∀ n : UInt32, -(exactBound : ℤ) < ofU32 n := fun n => by
    have : 0 ≤ ofU32 n := Int.natCast_nonneg _
    have : (0 : ℤ) < exactBound := by decide
    omega
  have hi32 : ∀ n : Int32, -(exactBound : ℤ) < n.toInt := fun n => by
    have h := n.le_toInt
    have : -(exactBound : ℤ) < -2 ^ 31 := by decide
    omega
  cases e
  case taskWoken id source =>
    cases source
    all_goals simp [of, numbers, WakeSource.of, hu64, hi32]
  all_goals simp [of, numbers, Location.of, hu64, hu32, hi32]

theorem received_eq {e : Event} (h : ∀ n ∈ (of e).numbers, n < exactBound) :
    received e = of e := by
  apply mapNumbers_eq_self
  intro n hn
  apply toDouble_eq_self
  have := h n hn
  have := neg_bound_lt_numbers e n hn
  omega

end RuntimeEvent

def TaskState.of : Console.TaskState → TaskState
  | .queued => .queued
  | .running => .running
  | .idle => .idle
  | .complete => .done
  | .cancelled => .cancelled

structure TaskAgrees (v : TaskView) (r : TaskRecord) : Prop where
  name : r.name = v.name
  state : r.state = .of v.state
  worker : r.worker = ofU32 v.worker
  polls : r.polls = ofU64 v.polls
  busyNs : r.busyNs = ofU64 v.totalBusyNs
  idleNs : r.idleNs = ofU64 v.totalIdleNs
  scheduled : r.scheduled = ofU64 v.scheduled
  location : r.location = v.location.map .of
  warnings : r.warnings = v.warnings
  pollDurationsNs : r.pollDurationsNs = v.pollDurationsNs.map ofU64
  wakeSources : r.wakeSources = v.wakeSources

structure WorkerAgrees (v : WorkerView) (r : WorkerRecord) : Prop where
  polls : r.polls = ofU64 v.polls
  busyNs : r.busyNs = ofU64 v.busyNs
  parks : r.parks = ofU64 v.parks
  steals : r.steals = ofU64 v.steals
  localQueue : r.localQueue = ofU64 v.localQueue
  globalQueue : r.globalQueue = ofU64 v.globalQueue

/-- What the terminal keeps of its tasks. -/
structure Kept (v : TaskView) : Prop where
  scheduled_pos : 1 ≤ v.scheduled
  durations_bounded : v.pollDurationsNs.length ≤ maxHistory
  sources_bounded : v.wakeSources.length ≤ maxHistory

structure TaskTracks (v : TaskView) (r : TaskRecord) : Prop where
  agrees : TaskAgrees v r
  kept : Kept v

/-- The one total that the terminal adds to without saturating stays below its bound. -/
structure WorkerTracks (v : WorkerView) (r : WorkerRecord) : Prop where
  agrees : WorkerAgrees v r
  parks_exact : v.parks.toNat < exactBound

def TotalsExact (v : TaskView) : Prop :=
  v.polls.toNat < exactBound ∧ v.totalBusyNs.toNat < exactBound ∧
    v.totalIdleNs.toNat < exactBound ∧ v.scheduled.toNat < exactBound

def WorkerTotalsExact (v : WorkerView) : Prop :=
  v.polls.toNat < exactBound ∧ v.busyNs.toNat < exactBound ∧ v.parks.toNat < exactBound ∧
    v.steals.toNat < exactBound

instance : DecidablePred TotalsExact := fun _ => inferInstanceAs (Decidable (_ ∧ _ ∧ _ ∧ _))

instance : DecidablePred WorkerTotalsExact := fun _ =>
  inferInstanceAs (Decidable (_ ∧ _ ∧ _ ∧ _))

structure ModelTotalsExact (m : ConsoleModel) : Prop where
  ofTasks : ∀ entry ∈ m.tasks.entries, TotalsExact entry.2
  ofWorkers : ∀ entry ∈ m.workers.entries, WorkerTotalsExact entry.2

instance : DecidablePred ModelTotalsExact := fun m =>
  decidable_of_iff ((∀ entry ∈ m.tasks.entries, TotalsExact entry.2) ∧
      ∀ entry ∈ m.workers.entries, WorkerTotalsExact entry.2)
    ⟨fun ⟨htasks, hworkers⟩ => ⟨htasks, hworkers⟩, fun h => ⟨h.ofTasks, h.ofWorkers⟩⟩

theorem ModelTotalsExact.tasks {m : ConsoleModel} (h : ModelTotalsExact m) {id : UInt64}
    {v : TaskView} (hv : m.tasks.lookup id = some v) : TotalsExact v :=
  h.ofTasks _ (AList.mem_lookup_iff.mp hv)

theorem ModelTotalsExact.workers {m : ConsoleModel} (h : ModelTotalsExact m) {id : UInt32}
    {v : WorkerView} (hv : m.workers.lookup id = some v) : WorkerTotalsExact v :=
  h.ofWorkers _ (AList.mem_lookup_iff.mp hv)

def taskKey (id : UInt64) : String := key (ofU64 id)

def workerKey (id : UInt32) : String := key (ofU32 id)

theorem key_natCast_injective {n n' : ℕ} (h : key n = key n') : n = n' := by
  have h : Nat.repr n = Nat.repr n' := h
  have hdigits := congrArg (fun s => Nat.ofDigitChars 10 s.toList 0) h
  simpa only [Nat.toList_repr, Nat.ofDigitChars_ten_toDigits] using hdigits

theorem taskKey_injective : Function.Injective taskKey := fun _ _ h =>
  UInt64.toNat.inj (key_natCast_injective h)

theorem workerKey_injective : Function.Injective workerKey := fun _ _ h =>
  UInt32.toNat.inj (key_natCast_injective h)

/-- A task the terminal does not know is as the browser created it. -/
def Fresh (id : UInt64) (r : TaskRecord) : Prop := r = taskRecord (ofU64 id)

structure Simulates (m : ConsoleModel) (p : Projection) : Prop where
  unpaused : m.paused = false
  tasks : Covers taskKey TaskTracks Fresh m.tasks p.tasks
  workers : Covers workerKey WorkerTracks (fun _ _ => False) m.workers p.workers

theorem tracks_new (id : UInt64) : TaskTracks (.new id) (taskRecord (ofU64 id)) where
  agrees := ⟨rfl, rfl, rfl, rfl, rfl, rfl, rfl, rfl, rfl, rfl, rfl⟩
  kept := ⟨UInt64.le_refl 1, Nat.zero_le _, Nat.zero_le _⟩

theorem tracks_default (id : ℤ) : WorkerTracks {} (workerRecord id) where
  agrees := ⟨rfl, rfl, rfl, rfl, rfl, rfl⟩
  parks_exact := by decide

namespace Simulates
variable {m : ConsoleModel} {p : Projection}

theorem initial : Simulates .new initialProjection := ⟨rfl, .empty, .empty⟩

theorem updateTask (h : Simulates m p) {i : UInt64} {f : TaskView → TaskView}
    {g : TaskRecord → TaskRecord}
    (hexact : ∀ {i' v}, (m.updateTask i f).tasks.lookup i' = some v → TotalsExact v)
    (hstep : ∀ {v r}, TaskTracks v r → TotalsExact (f v) → TaskTracks (f v) (g r)) :
    Simulates (m.updateTask i f) (p.updateTask (ofU64 i) g) where
  unpaused := h.unpaused
  tasks := by
    have hrel := h.tasks.getD taskKey_injective (tracks_new i) fun r hr => hr ▸ tracks_new i
    exact h.tasks.upsert taskKey_injective (hstep hrel (hexact (lookup_upsert ..)))
  workers := h.workers

theorem updateWorker (h : Simulates m p) {i : UInt32} {f : WorkerView → WorkerView}
    {g : WorkerRecord → WorkerRecord}
    (hexact : ∀ {i' v}, (m.updateWorker i f).workers.lookup i' = some v → WorkerTotalsExact v)
    (hstep : ∀ {v r}, WorkerTracks v r → WorkerTotalsExact (f v) → WorkerAgrees (f v) (g r)) :
    Simulates (m.updateWorker i f) (p.updateWorker (ofU32 i) g) where
  unpaused := h.unpaused
  tasks := h.tasks
  workers := by
    have hrel := h.workers.getD (k := i) workerKey_injective
      (tracks_default (ofU32 i)) nofun
    have hpost := hexact (lookup_upsert ..)
    exact h.workers.upsert workerKey_injective ⟨hstep hrel hpost, hpost.2.2.1⟩

theorem ensureWorker (h : Simulates m p) (id : UInt32)
    (hexact : ∀ {id' v}, (m.ensureWorker id).workers.lookup id' = some v → WorkerTotalsExact v) :
    Simulates (m.ensureWorker id) (p.ensureWorker (ofU32 id)) :=
  h.updateWorker hexact fun hvr _ => hvr.agrees

theorem ensureTask (h : Simulates m p) (id : UInt64) : Simulates m (p.ensureTask (ofU64 id)) where
  unpaused := h.unpaused
  tasks := h.tasks.touch taskKey_injective rfl
  workers := h.workers

theorem ensureTasks (h : Simulates m p) (ids : List UInt64) :
    Simulates m ((ids.map ofU64).foldl Projection.ensureTask p) := by
  induction ids generalizing p with
  | nil => exact h
  | cons id ids ih => exact ih (h.ensureTask id)

end Simulates

theorem pushHistory_length {T : Type} {history : List T} (h : history.length ≤ maxHistory)
    (value : T) : (pushHistory history value).length ≤ maxHistory := by
  unfold pushHistory
  split
  case isTrue heq => simp [heq, maxHistory]
  case isFalse hne =>
    rw [List.length_append, List.length_singleton]
    omega

/-- The two ways to trim a full history drop the same value. -/
theorem appendBounded_eq_pushHistory {T U : Type} {history : List T}
    (h : history.length ≤ maxHistory) (f : T → U) (value : T) :
    appendBounded (history.map f) (f value) maxDetailHistory =
      (pushHistory history value).map f := by
  have hlimit : maxDetailHistory = maxHistory := rfl
  have hpos : maxHistory ≠ 0 := by decide
  rw [appendBounded, hlimit, if_neg hpos, pushHistory, List.length_map]
  by_cases heq : history.length = maxHistory
  · rw [if_pos heq, if_pos heq.ge, heq, Nat.sub_self, Nat.zero_add, List.drop_one]
    simp
  · rw [if_neg heq, if_neg (by omega)]
    simp

variable {v : TaskView} {r : TaskRecord}

theorem TaskAgrees.warning (h : TaskAgrees v r) (value : String) :
    TaskAgrees (v.warning value) (r.warning value) := by
  unfold TaskView.warning TaskRecord.warning
  rw [h.warnings]
  split
  · exact h
  · exact { h with warnings := rfl }

theorem Kept.warning (h : Kept v) (value : String) : Kept (v.warning value) := by
  unfold TaskView.warning
  split
  · exact h
  · exact { h with }

theorem TaskAgrees.closeSegment (h : TaskAgrees v r)
    (sequence : ℤ) : TaskAgrees v (r.closeSegment sequence) := { h with }

theorem TaskAgrees.pushSegment (h : TaskAgrees v r)
    (state : SegmentState) (sequence : ℤ) : TaskAgrees v (r.pushSegment state sequence) :=
  { h with }

theorem TaskAgrees.addSegment (h : TaskAgrees v r)
    (state : SegmentState) (sequence : ℤ) : TaskAgrees v (r.addSegment state sequence) :=
  (h.closeSegment sequence).pushSegment state sequence

theorem TaskAgrees.rememberDuration (h : TaskAgrees v r)
    (hv : Kept v) (duration : UInt64) :
    TaskAgrees { v with pollDurationsNs := pushHistory v.pollDurationsNs duration }
      (r.rememberDuration (ofU64 duration)) :=
  { h with
    pollDurationsNs := by
      rw [TaskRecord.rememberDuration, h.pollDurationsNs]
      exact appendBounded_eq_pushHistory hv.durations_bounded ofU64 duration }

/-- The terminal warns before it cancels the task, the browser after. -/
theorem TaskAgrees.panicked (h : TaskAgrees v r) :
    TaskAgrees { v.warning "panic" with state := .cancelled }
      ({ r with state := .cancelled }.warning "panic") := by
  unfold TaskView.warning TaskRecord.warning
  dsimp only
  rw [h.warnings]
  split
  all_goals exact { h with state := rfl, warnings := rfl }

theorem TotalsExact.of_warning {value : String}
    (h : TotalsExact (v.warning value)) : TotalsExact v := by
  unfold TaskView.warning at h
  split at h
  · exact h
  · exact h

/-- What both sides do to a polled task before they look at the result. -/
theorem TaskTracks.polled (h : TaskTracks v r) (worker : UInt32)
    (durationNs : UInt64) {v' : TaskView}
    (hv' : v' = { v with
      worker
      polls := saturatingAdd v.polls 1
      totalBusyNs := saturatingAdd v.totalBusyNs durationNs
      pollDurationsNs := pushHistory v.pollDurationsNs durationNs })
    (hexact : TotalsExact v') :
    TaskTracks v' (TaskRecord.rememberDuration
      { r with
        worker := ofU32 worker
        polls := add r.polls 1
        busyNs := add r.busyNs (ofU64 durationNs) } (ofU64 durationNs)) := by
  subst hv'
  refine ⟨?_, { h.kept with durations_bounded := pushHistory_length h.kept.durations_bounded _ }⟩
  have hagrees : TaskAgrees
      { v with
        worker
        polls := saturatingAdd v.polls 1
        totalBusyNs := saturatingAdd v.totalBusyNs durationNs }
      { r with
        worker := ofU32 worker
        polls := add r.polls 1
        busyNs := add r.busyNs (ofU64 durationNs) } := by
    refine { h.agrees with worker := rfl, polls := ?_, busyNs := ?_ }
    · dsimp only
      rw [h.agrees.polls]
      exact add_toNat hexact.1 rfl
    · dsimp only
      rw [h.agrees.busyNs]
      exact add_toNat hexact.2.1 rfl
  exact hagrees.rememberDuration { h.kept with } durationNs

theorem wakeLabel_of (source : Console.WakeSource) :
    wakeLabel (.of source) = wakeSourceName source := by
  cases source <;> rfl

theorem max_scheduled (h : Kept v) : max v.scheduled 1 = v.scheduled := by
  change (if v.scheduled ≤ 1 then 1 else v.scheduled) = v.scheduled
  split
  case isTrue hle => exact UInt64.le_antisymm h.scheduled_pos hle
  case isFalse => rfl

theorem saturatingAdd_one {n : UInt64} (h : n.toNat < exactBound) : saturatingAdd n 1 = n + 1 := by
  have hlt : n.toNat + UInt64.toNat 1 < UInt64.size := Nat.lt_of_lt_of_le (Nat.succ_lt_succ h) (by decide)
  rw [saturatingAdd, if_pos hlt]

theorem scheduled_pos_succ (n : UInt64) : 1 ≤ saturatingAdd n 1 := by
  unfold saturatingAdd
  split
  case isTrue hlt =>
    rw [UInt64.le_iff_toNat_le, UInt64.toNat_add]
    rw [show (2 ^ 64 : ℕ) = UInt64.size from rfl, Nat.mod_eq_of_lt hlt]
    exact Nat.le_add_left 1 _
  case isFalse => decide

namespace Simulates
variable {m : ConsoleModel} {p : Projection}

theorem retainPending (h : Simulates m p) (q : PendingOperation → Bool) :
    Simulates (m.retainPending q) p := ⟨h.unpaused, h.tasks, h.workers⟩

theorem clearWokenPending (h : Simulates m p) (task : UInt64) (source : Console.WakeSource) :
    Simulates (m.clearWokenPending task source) p := by
  cases source <;> exact h.retainPending _

/-- What the worker map says of a worker still holds once another was made sure of. -/
theorem lookup_ensureWorker {worker id : UInt32} {v : WorkerView}
    (h : m.workers.lookup id = some v) : (m.ensureWorker worker).workers.lookup id = some v := by
  by_cases heq : id = worker
  · subst heq
    refine (lookup_upsert ..).trans ?_
    rw [h]
    rfl
  · exact (lookup_upsert_ne m.workers heq ..).trans h

theorem taskPollEnd (h : Simulates m p) (id : UInt64) (worker : UInt32) (durationNs : UInt64)
    (result : Console.PollResult)
    (hexact : ModelTotalsExact (m.applyMatch (.taskPollEnd id worker durationNs result)))
    (sequence : ℤ) :
    Simulates (m.applyMatch (.taskPollEnd id worker durationNs result))
      (applyCase p (.of (.taskPollEnd id worker durationNs result)) sequence) := by
  have hrecord := h.updateTask (i := id) hexact.tasks
    (g := fun task =>
      let task := { task with
        worker := ofU32 worker
        polls := add task.polls 1
        busyNs := add task.busyNs (ofU64 durationNs) }
      let task := task.rememberDuration (ofU64 durationNs)
      let task := { task with
        state := if PollResult.of result = PollResult.ready then .done
          else if PollResult.of result = PollResult.pending then .idle
          else .cancelled }
      let task := if PollResult.of result = PollResult.panicked then task.warning "panic"
        else task
      let task := task.closeSegment sequence
      if PollResult.of result = PollResult.pending then task.pushSegment .idle sequence else task)
    ?_
  · apply hrecord.updateWorker hexact.workers
    intro v r hvr hv
    refine { hvr.agrees with polls := ?_, busyNs := ?_ }
    · dsimp only
      rw [hvr.agrees.polls]
      exact add_toNat hv.1 rfl
    · dsimp only
      rw [hvr.agrees.busyNs]
      exact add_toNat hv.2.1 rfl
  intro v r hvr hv
  cases result with
  | ready =>
    have hpolled := hvr.polled worker durationNs rfl hv
    refine ⟨.closeSegment ?_ _, { hpolled.kept with }⟩
    exact { hpolled.agrees with state := rfl }
  | pending =>
    have hpolled := hvr.polled worker durationNs rfl hv
    refine ⟨.pushSegment (.closeSegment ?_ _) _ _, { hpolled.kept with }⟩
    exact { hpolled.agrees with state := rfl }
  | panicked =>
    have hpolled := hvr.polled worker durationNs rfl (TotalsExact.of_warning hv)
    have hkept := hpolled.kept.warning "panic"
    refine ⟨.closeSegment ?_ _, { hkept with }⟩
    exact hpolled.agrees.panicked

theorem taskWoken (h : Simulates m p) (id : UInt64) (source : Console.WakeSource)
    (hexact : ModelTotalsExact (m.applyMatch (.taskWoken id source))) (sequence : ℤ) :
    Simulates (m.applyMatch (.taskWoken id source))
      (applyCase p (.of (.taskWoken id source)) sequence) := by
  have hrecord := (h.clearWokenPending id source).updateTask (i := id) hexact.tasks
    (g := fun task =>
      { task with
        state := .queued
        scheduled := add task.scheduled 1
        wakeSources := appendBounded task.wakeSources (wakeLabel (.of source)) maxDetailHistory
        wakeHistory := appendBounded task.wakeHistory ⟨sequence, wakeLabel (.of source)⟩
          maxDetailHistory }.addSegment .queued sequence) ?_
  · cases source <;> exact ⟨hrecord.unpaused, hrecord.tasks, hrecord.workers⟩
  intro v r hvr hv
  refine ⟨.addSegment ?_ _ _,
    { hvr.kept with scheduled_pos := ?_, sources_bounded := ?_ }⟩
  · refine { hvr.agrees with state := rfl, scheduled := ?_, wakeSources := ?_ }
    · dsimp only
      rw [hvr.agrees.scheduled]
      exact add_toNat hv.2.2.2 rfl
    · dsimp only
      rw [hvr.agrees.wakeSources, wakeLabel_of]
      simpa using appendBounded_eq_pushHistory hvr.kept.sources_bounded (fun name => name)
        (wakeSourceName source)
  · exact scheduled_pos_succ v.scheduled
  · exact pushHistory_length hvr.kept.sources_bounded _

theorem applyMatch (h : Simulates m p) (e : Event) (hexact : ModelTotalsExact (m.applyMatch e))
    (sequence : ℤ) : Simulates (m.applyMatch e) (applyCase p (.of e) sequence) := by
  cases e with
  | taskSpawned id name location parent =>
    apply h.updateTask hexact.tasks
    intro v r hvr _
    dsimp only
    rw [max_scheduled hvr.kept]
    refine ⟨?_, { hvr.kept with }⟩
    split
    · apply TaskAgrees.addSegment
      exact { hvr.agrees with name := rfl, state := rfl, location := rfl }
    · exact { hvr.agrees with name := rfl, state := rfl, location := rfl }
  | taskPollStart id worker atNs =>
    have hrecord := (h.retainPending fun operation => operation.task != id).updateTask (i := id)
      (f := fun task => { task with worker, state := .running })
      (g := fun task =>
        { task with worker := ofU32 worker, state := .running }.addSegment .running sequence)
      hexact.tasks ?_
    · exact hrecord.ensureWorker worker hexact.workers
    intro v r hvr _
    refine ⟨.addSegment ?_ _ _, { hvr.kept with }⟩
    exact { hvr.agrees with worker := rfl, state := rfl }
  | taskPollEnd id worker durationNs result =>
    exact h.taskPollEnd id worker durationNs result hexact sequence
  | taskWoken id source => exact h.taskWoken id source hexact sequence
  | taskDropped id totalPolls totalBusyNs totalIdleNs =>
    apply (h.retainPending fun operation => operation.task != id).updateTask hexact.tasks
    intro v r hvr _
    refine ⟨.closeSegment ?_ _, { hvr.kept with }⟩
    exact { hvr.agrees with state := rfl, polls := rfl, busyNs := rfl, idleNs := rfl }
  | taskAborted id =>
    apply (h.retainPending fun operation => operation.task != id).updateTask hexact.tasks
    intro v r hvr _
    refine ⟨.closeSegment ?_ _, { hvr.kept with }⟩
    exact { hvr.agrees with state := rfl }
  | workerPark worker timeoutNs =>
    apply h.updateWorker hexact.workers
    intro v r hvr hv
    refine { hvr.agrees with parks := ?_ }
    dsimp only
    rw [hvr.agrees.parks]
    have hparks := saturatingAdd_one hvr.parks_exact
    exact add_toNat (hparks ▸ hv.2.2.1) hparks
  | workerUnpark worker reason => exact h.ensureWorker worker hexact.workers
  | workerSteal thief victim count =>
    have hrecord := h.updateWorker (i := thief)
      (f := fun view => { view with steals := saturatingAdd view.steals count })
      (g := fun worker => { worker with steals := add worker.steals (ofU64 count) })
      (fun hv => hexact.workers (lookup_ensureWorker hv)) ?_
    · exact hrecord.ensureWorker victim hexact.workers
    intro v r hvr hv
    refine { hvr.agrees with steals := ?_ }
    dsimp only
    rw [hvr.agrees.steals]
    exact add_toNat hv.2.2.2 rfl
  | queueDepth worker localDepth globalDepth lifo =>
    apply h.updateWorker hexact.workers
    intro v r hvr _
    exact { hvr.agrees with localQueue := rfl, globalQueue := rfl }
  | ioRegistered fd interest task =>
    have hrecord := h.ensureTask task
    exact ⟨hrecord.unpaused, hrecord.tasks, hrecord.workers⟩
  | ioReady fd readiness woke =>
    have hrecord := h.ensureTasks woke
    exact ⟨hrecord.unpaused, hrecord.tasks, hrecord.workers⟩
  | timerSet id deadlineNs task =>
    have hrecord := h.ensureTask task
    exact ⟨hrecord.unpaused, hrecord.tasks, hrecord.workers⟩
  | timerFired id latenessNs | timerCancelled id => exact h.retainPending _
  | blockingDetected task pollDurationNs location =>
    apply h.updateTask hexact.tasks
    intro v r hvr _
    have hkept := hvr.kept.warning "blocking"
    refine ⟨(hvr.agrees.warning "blocking").rememberDuration hkept pollDurationNs,
      { hkept with durations_bounded := ?_ }⟩
    exact pushHistory_length hkept.durations_bounded _
  | budgetExhausted task =>
    apply h.updateTask hexact.tasks
    intro v r hvr _
    exact ⟨hvr.agrees.warning "budget", hvr.kept.warning "budget"⟩
  | resourceContended kind holder waiters => exact ⟨h.unpaused, h.tasks, h.workers⟩

theorem applyEvent (h : Simulates m p) {e : Event}
    (hnumbers : ∀ n ∈ (RuntimeEvent.of e).numbers, n < exactBound)
    (hexact : ModelTotalsExact (m.apply e)) (sequence : ℤ) :
    Simulates (m.apply e) (ConsoleUi.applyEvent p (.received e) sequence) := by
  have hcount : Simulates { m with eventCount := saturatingAdd m.eventCount 1 }
      { p with sequence } := ⟨h.unpaused, h.tasks, h.workers⟩
  rw [RuntimeEvent.received_eq hnumbers]
  have happly : m.apply e =
      { m with eventCount := saturatingAdd m.eventCount 1 }.applyMatch e :=
    if_neg (by rw [h.unpaused]; exact Bool.false_ne_true)
  rw [happly] at hexact ⊢
  have hnext := hcount.applyMatch e hexact sequence
  exact ⟨hnext.unpaused, hnext.tasks, hnext.workers⟩

end Simulates

theorem projectEvents_append (events : List RuntimeEvent) (e : RuntimeEvent) :
    projectEvents (events ++ [e]) = applyEvent (projectEvents events) e (events.length + 1) := by
  simp [projectEvents, List.zipIdx_append]

theorem simulates_fold {events : List Event}
    (hnumbers : ∀ e ∈ events, ∀ n ∈ (RuntimeEvent.of e).numbers, n < exactBound)
    (hexact : ∀ before, before <+: events →
      ModelTotalsExact (before.foldl ConsoleModel.apply .new)) :
    Simulates (events.foldl ConsoleModel.apply .new)
      (projectEvents (events.map RuntimeEvent.received)) := by
  induction events using List.reverseRecOn with
  | nil => exact .initial
  | append_singleton events e ih =>
    have hfold := ih (fun e' he' => hnumbers e' (List.mem_append_left _ he')) fun before hbefore =>
      hexact before (hbefore.trans (List.prefix_append _ _))
    have hlast := hexact _ (List.prefix_refl _)
    rw [List.foldl_append] at hlast ⊢
    rw [List.map_append, List.map_singleton, projectEvents_append]
    exact hfold.applyEvent (hnumbers e (by simp)) hlast _

/-- The projections hold the same workers and, for every task the terminal knows, the same task;
a task only the browser knows is as it was created. -/
theorem projections_agree {events : List Event}
    (hnumbers : ∀ e ∈ events, ∀ n ∈ (RuntimeEvent.of e).numbers, n < exactBound)
    (hexact : ∀ before, before <+: events →
      ModelTotalsExact (before.foldl ConsoleModel.apply .new)) :
    let model := events.foldl ConsoleModel.apply .new
    let projection := projectEvents (events.map RuntimeEvent.received)
    Covers workerKey WorkerAgrees (fun _ _ => False) model.workers projection.workers ∧
      Covers taskKey TaskAgrees Fresh model.tasks projection.tasks := by
  have h := simulates_fold hnumbers hexact
  exact ⟨h.workers.mono WorkerTracks.agrees, h.tasks.mono TaskTracks.agrees⟩

theorem projections_agree_poll :
    let events := [Event.taskSpawned 7 (some "accept") ⟨"main.rs", 12⟩ none,
      .taskPollEnd 7 1 100 .pending, .ioRegistered 3 "readable" 9, .workerPark 1 none]
    let model := events.foldl ConsoleModel.apply .new
    let projection := projectEvents (events.map RuntimeEvent.received)
    Covers workerKey WorkerAgrees (fun _ _ => False) model.workers projection.workers ∧
      Covers taskKey TaskAgrees Fresh model.tasks projection.tasks := by
  intro events
  have hexact : ∀ before ∈ events.inits,
      ModelTotalsExact (before.foldl ConsoleModel.apply .new) := by decide
  exact projections_agree (by decide) fun before h => hexact before ((List.mem_inits _ _).mpr h)

end Eddy.ConsoleUi
