import Eddy.BlockingPool

/-!
# The steps of the blocking pool

What a step of the pool can do, and the counts that every step keeps: the idle count is of the
threads that wait or were woken, the thread count of the threads that have not taken themselves
out of it and of the spawns under way or failed, and it never exceeds the cap.
-/

namespace Eddy.BlockingPool
open Interleaving TaskState TaskState.Snapshot

namespace State

/-- The state after a step of `poll`. -/
def setTask (s : State) (job : ℕ) (task : Task) : State := { s with tasks := s.tasks.set job task }

theorem poll_eq_some {s t : State} {p : Poll} {panics : Bool} {next : Next}
    (h : s.poll p panics = some (t, next)) :
    ∃ task, s.tasks[p.job]? = some task ∧ t = s.setTask p.job (task.poll panics p).1 ∧
      next = (task.poll panics p).2 := by
  obtain ⟨task, htask, heq⟩ := Option.map_eq_some_iff.mp h
  cases heq
  exact ⟨task, htask, rfl, rfl⟩

inductive Takes (s : State) : Label → State → Prop
  | submit : Takes s .submit { s with
      callers := s.callers ++ [.enters s.tasks.length]
      tasks := s.tasks ++ [.new] }
  | reject {i job panics} (hi : s.callers[i]? = some (.enters job)) (hclosed : s.closed = true) :
      Takes s (.caller i panics) (s.setCaller i (.cancels job))
  | enqueue {i job panics} (hi : s.callers[i]? = some (.enters job)) (hopen : s.closed = false)
      (hno : s.idle ≠ 0 ∨ s.maxThreads ≤ s.numThreads) :
      Takes s (.caller i panics)
        ({ s with jobs := s.jobs ++ [job] }.setCaller i (.notifies false))
  | enqueueSpawn {i job panics} (hi : s.callers[i]? = some (.enters job))
      (hopen : s.closed = false) (hidle : s.idle = 0) (hcap : s.numThreads < s.maxThreads) :
      Takes s (.caller i panics)
        ({ s with jobs := s.jobs ++ [job], numThreads := s.numThreads + 1 }.setCaller i
          (.notifies true))
  | cancelTask {i job panics} (hi : s.callers[i]? = some (.cancels job)) :
      Takes s (.caller i panics) ((s.shutdownTask job).setCaller i (.polls (.begins job)))
  | callerPoll {i poll panics task} (hi : s.callers[i]? = some (.polls poll))
      (htask : s.tasks[poll.job]? = some task) :
      Takes s (.caller i panics) ((s.setTask poll.job (task.poll panics poll).1).setCaller i
        (task.poll panics poll).2.caller)
  | unspawned {i} (hi : s.callers[i]? = some .spawns) :
      Takes s (.caller i true) (s.setCaller i .unspawned)
  | spawn {i} (hi : s.callers[i]? = some .spawns) :
      Takes s (.caller i false)
        ({ s with threads := s.threads ++ [Thread.top .spawned] }.setCaller i
          (.pushes s.threads.length))
  | push {i panics thread} (hi : s.callers[i]? = some (.pushes thread)) :
      Takes s (.caller i panics)
        ({ s with handles := s.handles ++ [thread] }.setCaller i .returned)
  | notify {i spawn t} (hi : s.callers[i]? = some (.notifies spawn))
      (ht : s.threads[t]? = some .waits) :
      Takes s (.notify i (some t))
        ((s.setThread t (.woken false)).setCaller i (if spawn then .spawns else .returned))
  | notifyNone {i spawn} (hi : s.callers[i]? = some (.notifies spawn))
      (hnone : Thread.waits ∉ s.threads) :
      Takes s (.notify i none) (s.setCaller i (if spawn then .spawns else .returned))
  | pop {i panics origin job jobs} (hi : s.threads[i]? = some (.top origin))
      (hjobs : s.jobs = job :: jobs) :
      Takes s (.thread i panics) ({ s with jobs }.setThread i (.polls (.begins job)))
  | leaveClosed {i panics origin} (hi : s.threads[i]? = some (.top origin)) (hjobs : s.jobs = [])
      (hclosed : s.closed = true) : Takes s (.thread i panics) (s.setThread i .leaves)
  | wait {i panics origin} (hi : s.threads[i]? = some (.top origin)) (hjobs : s.jobs = [])
      (hopen : s.closed = false) :
      Takes s (.thread i panics) ({ s with idle := s.idle + 1 }.setThread i .waits)
  | threadPoll {i poll panics task} (hi : s.threads[i]? = some (.polls poll))
      (htask : s.tasks[poll.job]? = some task) :
      Takes s (.thread i panics) ((s.setTask poll.job (task.poll panics poll).1).setThread i
        (task.poll panics poll).2.thread)
  | relockLeave {i panics} (hi : s.threads[i]? = some (.woken true)) (hjobs : s.jobs = [])
      (hopen : s.closed = false) :
      Takes s (.thread i panics) ({ s with idle := s.idle - 1 }.setThread i .leaves)
  | relock {i panics timedOut} (hi : s.threads[i]? = some (.woken timedOut)) :
      Takes s (.thread i panics) ({ s with idle := s.idle - 1 }.setThread i (.top .woken))
  | exit {i panics} (hi : s.threads[i]? = some .leaves) :
      Takes s (.thread i panics) ({ s with numThreads := s.numThreads - 1 }.setThread i .exited)
  | wake {i timedOut} (hi : s.threads[i]? = some .waits) :
      Takes s (.wake i timedOut) (s.setThread i (.woken timedOut))
  | shutdown (h : s.shutdown = .ready) : Takes s .shutdown { s with shutdown := .closes }
  | shutdownAgain (h : s.shutdown = .returned) : Takes s .shutdown s
  | shutdownUnwound {lost} (h : s.shutdown = .unwound lost) :
      Takes s .shutdown { s with shutdown := .closes }
  | close {panics} (h : s.shutdown = .closes) (hopen : s.closed = false) :
      Takes s (.closing panics) { s with closed := true, shutdown := .drains }
  | closeAgain {panics} (h : s.shutdown = .closes) (hclosed : s.closed = true) :
      Takes s (.closing panics) { s with shutdown := .returned }
  | drain {panics} (h : s.shutdown = .drains) :
      Takes s (.closing panics) { s with jobs := [], shutdown := .cancels s.jobs }
  | cancelQueued {panics job queued} (h : s.shutdown = .cancels (job :: queued)) :
      Takes s (.closing panics)
        { s.shutdownTask job with shutdown := .polls (.begins job) queued }
  | notifyAll {panics} (h : s.shutdown = .cancels []) :
      Takes s (.closing panics) { s.notifyAll with shutdown := .takes }
  | closingPoll {panics poll queued task} (h : s.shutdown = .polls poll queued)
      (htask : s.tasks[poll.job]? = some task) :
      Takes s (.closing panics) { s.setTask poll.job (task.poll panics poll).1 with
        shutdown := (task.poll panics poll).2.shutdown queued }
  | take {panics} (h : s.shutdown = .takes) :
      Takes s (.closing panics) { s with handles := [], shutdown := .joins s.handles }
  | join {panics i handles} (h : s.shutdown = .joins (i :: handles))
      (hi : s.threads[i]? = some .exited) :
      Takes s (.closing panics) { s with shutdown := .joins handles }
  | joinDied {panics i handles lost} (h : s.shutdown = .joins (i :: handles))
      (hi : s.threads[i]? = some (.died lost)) :
      Takes s (.closing panics) { s with shutdown := .unwound [] }
  | joined {panics} (h : s.shutdown = .joins []) :
      Takes s (.closing panics) { s with shutdown := .returned }
  | abort {job} : Takes s (.abort job) (s.shutdownTask job)

theorem takes_enter {s : State} {i job : ℕ} {panics : Bool}
    (hi : s.callers[i]? = some (.enters job)) : Takes s (.caller i panics) (s.enter i job) := by
  unfold enter
  split
  case isTrue hclosed => exact .reject hi hclosed
  case isFalse hclosed =>
    rw [Bool.not_eq_true] at hclosed
    dsimp only
    by_cases hspawn : s.idle = 0 ∧ s.numThreads < s.maxThreads
    · rw [if_pos hspawn]
      exact .enqueueSpawn hi hclosed hspawn.1 hspawn.2
    · rw [if_neg hspawn]
      apply Takes.enqueue hi hclosed
      omega

theorem takes_look {s : State} {i : ℕ} {panics : Bool} {origin : Origin}
    (hi : s.threads[i]? = some (.top origin)) : Takes s (.thread i panics) (s.look i) := by
  unfold look
  split
  case h_1 hjobs => exact .pop hi hjobs
  case h_2 hjobs =>
    split
    case isTrue hclosed => exact .leaveClosed hi hjobs hclosed
    case isFalse hclosed => exact .wait hi hjobs (Bool.eq_false_iff.mpr hclosed)

theorem takes_relock {s : State} {i : ℕ} {panics timedOut : Bool}
    (hi : s.threads[i]? = some (.woken timedOut)) :
    Takes s (.thread i panics) (s.relock i timedOut) := by
  unfold relock
  dsimp only
  split
  case isTrue h =>
    simp only [Bool.and_eq_true, List.isEmpty_iff, Bool.not_eq_true'] at h
    obtain ⟨⟨rfl, hjobs⟩, hopen⟩ := h
    exact .relockLeave hi hjobs hopen
  case isFalse => exact .relock hi

theorem takes_caller {s t : State} {i : ℕ} {panics : Bool} {caller : Caller}
    (hi : s.callers[i]? = some caller) (h : s.callerStep i panics caller = some t) :
    Takes s (.caller i panics) t := by
  cases caller with
  | enters job =>
    cases h
    exact takes_enter hi
  | cancels job =>
    cases h
    exact .cancelTask hi
  | polls poll =>
    obtain ⟨⟨s', next⟩, hpoll, rfl⟩ := Option.map_eq_some_iff.mp h
    obtain ⟨task, htask, rfl, rfl⟩ := poll_eq_some hpoll
    exact .callerPoll hi htask
  | spawns =>
    cases panics with
    | true =>
      cases h
      exact .unspawned hi
    | false =>
      cases h
      exact .spawn hi
  | pushes thread =>
    cases h
    exact .push hi
  | notifies _ | returned | unspawned | unwound _ => cases h

theorem takes_thread {s t : State} {i : ℕ} {panics : Bool} {thread : Thread}
    (hi : s.threads[i]? = some thread) (h : s.threadStep i panics thread = some t) :
    Takes s (.thread i panics) t := by
  cases thread with
  | top origin =>
    cases h
    exact takes_look hi
  | polls poll =>
    obtain ⟨⟨s', next⟩, hpoll, rfl⟩ := Option.map_eq_some_iff.mp h
    obtain ⟨task, htask, rfl, rfl⟩ := poll_eq_some hpoll
    exact .threadPoll hi htask
  | woken timedOut =>
    cases h
    exact takes_relock hi
  | leaves =>
    cases h
    exact .exit hi
  | waits | exited | died _ => cases h

theorem takes_closing {s t : State} {panics : Bool} (h : s.closingStep panics = some t) :
    Takes s (.closing panics) t := by
  unfold closingStep at h
  split at h
  case h_1 hs =>
    split at h
    case isTrue hclosed =>
      cases h
      exact .closeAgain hs hclosed
    case isFalse hclosed =>
      cases h
      exact .close hs (Bool.eq_false_iff.mpr hclosed)
  case h_2 hs =>
    cases h
    exact .drain hs
  case h_3 hs =>
    cases h
    exact .cancelQueued hs
  case h_4 hs =>
    cases h
    exact .notifyAll hs
  case h_5 hs =>
    obtain ⟨⟨s', next⟩, hpoll, rfl⟩ := Option.map_eq_some_iff.mp h
    obtain ⟨task, htask, rfl, rfl⟩ := poll_eq_some hpoll
    exact .closingPoll hs htask
  case h_6 hs =>
    cases h
    exact .take hs
  case h_7 hs =>
    split at h
    case h_1 hi =>
      cases h
      exact .join hs hi
    case h_2 hi =>
      cases h
      exact .joinDied hs hi
    case h_3 => cases h
  case h_8 hs =>
    cases h
    exact .joined hs
  all_goals cases h

theorem step_takes {s t : State} {l : Label} (h : s.step l = some t) : Takes s l t := by
  cases l with
  | submit =>
    cases h
    exact .submit
  | caller i panics =>
    obtain ⟨caller, hi, h⟩ := Option.bind_eq_some_iff.mp h
    exact takes_caller hi h
  | notify i waiter =>
    obtain ⟨caller, hi, h⟩ := Option.bind_eq_some_iff.mp h
    cases caller with
    | notifies spawn =>
      obtain ⟨s', hs', rfl⟩ := Option.map_eq_some_iff.mp h
      cases waiter with
      | some t =>
        simp only [notifyOne] at hs'
        split at hs'
        · cases hs'
          exact .notify hi ‹_›
        · cases hs'
      | none =>
        simp only [notifyOne] at hs'
        split at hs'
        · cases hs'
        · cases hs'
          exact .notifyNone hi ‹_›
    | _ => cases h
  | thread i panics =>
    obtain ⟨thread, hi, h⟩ := Option.bind_eq_some_iff.mp h
    exact takes_thread hi h
  | wake i timedOut =>
    unfold step at h
    dsimp only at h
    split at h
    · cases h
      exact .wake ‹_›
    · cases h
  | shutdown =>
    unfold step at h
    dsimp only at h
    split at h
    · cases h
      exact .shutdown ‹_›
    · cases h
      exact .shutdownUnwound ‹_›
    · cases h
      exact .shutdownAgain ‹_›
    · cases h
  | closing panics => exact takes_closing h
  | abort job =>
    cases h
    exact .abort

end State

def Thread.idles : Thread → ℕ
  | .waits | .woken _ => 1
  | _ => 0

def Thread.counted : Thread → ℕ
  | .exited => 0
  | _ => 1

def Thread.live : Thread → ℕ
  | .exited | .died _ => 0
  | _ => 1

def Caller.counted : Caller → ℕ
  | .notifies true | .spawns | .unspawned => 1
  | _ => 0

def Caller.spawning : Caller → ℕ
  | .notifies true | .spawns => 1
  | _ => 0

theorem Thread.live_le_counted (thread : Thread) : thread.live ≤ thread.counted := by
  cases thread <;> simp [Thread.live, Thread.counted]

theorem Caller.spawning_le_counted (caller : Caller) : caller.spawning ≤ caller.counted := by
  cases caller with
  | notifies spawn => cases spawn <;> simp [Caller.spawning, Caller.counted]
  | _ => simp [Caller.spawning, Caller.counted]

theorem Caller.spawning_of_over {caller : Caller} (h : caller.over = true) :
    caller.spawning = 0 := by
  cases caller <;> first | rfl | cases h

theorem spawning_notified (spawn : Bool) :
    (Caller.notifies spawn).spawning = (if spawn then Caller.spawns else .returned).spawning := by
  cases spawn <;> rfl

theorem counted_notified (spawn : Bool) :
    (Caller.notifies spawn).counted = (if spawn then Caller.spawns else .returned).counted := by
  cases spawn <;> rfl

theorem Next.caller_spawning (next : Next) : next.caller.spawning = 0 := by
  cases next <;> rfl

theorem Next.caller_counted (next : Next) : next.caller.counted = 0 := by
  cases next <;> rfl

/-- The step of `poll` that a destructor can leave by a panic. -/
def Poll.finishing : Poll → Bool
  | .finishes _ _ => true
  | _ => false

def Thread.finishing : Thread → Bool
  | .polls poll => poll.finishing
  | _ => false

theorem finishing_of_unwinds {task : Task} {panics : Bool} {poll : Poll} {lost : Option Poll}
    (h : (task.poll panics poll).2 = .unwinds lost) : panics = true ∧ poll.finishing = true := by
  cases poll with
  | begins job =>
    simp only [Task.poll] at h
    split at h
    · cases h
    · split at h <;> cases h
  | runs job => cases h
  | finishes job outcome =>
    cases panics with
    | true => exact ⟨rfl, rfl⟩
    | false => cases h

/-- A weight that waiting and woken threads share does not see `notify_all`. -/
theorem total_notifyAll {w : Thread → ℕ} (hw : w .waits = w (.woken false)) (s : State) :
    total w s.notifyAll.threads = total w s.threads := by
  have hmap : ∀ p : Thread, w (if p = .waits then .woken false else p) = w p := by
    intro p
    split
    case isTrue hp => rw [hp, hw]
    case isFalse => rfl
  simp [total, State.notifyAll, Function.comp_def, hmap]

structure Accounts (s : State) : Prop where
  idle : s.idle = total Thread.idles s.threads
  threads : s.numThreads = total Thread.counted s.threads + total Caller.counted s.callers
  cap : s.numThreads ≤ s.maxThreads

namespace Accounts
variable {s t : State}

theorem setThread (h : Accounts s) {i : ℕ} {p q : Thread} (hi : s.threads[i]? = some p)
    (hthreads : t.threads = s.threads.set i q) (hcallers : t.callers = s.callers)
    (hmax : t.maxThreads = s.maxThreads) (hidle : t.idle + p.idles = s.idle + q.idles)
    (hnum : t.numThreads + p.counted = s.numThreads + q.counted)
    (hle : t.numThreads ≤ s.numThreads) : Accounts t := by
  have hidles := total_set Thread.idles hi q
  have hcounted := total_set Thread.counted hi q
  rw [← hthreads] at hidles hcounted
  obtain ⟨hi', hn', hc'⟩ := h
  refine ⟨?_, ?_, ?_⟩
  · omega
  · rw [hcallers]
    omega
  · omega

theorem setCaller (h : Accounts s) {i : ℕ} {p q : Caller} (hi : s.callers[i]? = some p)
    (hcallers : t.callers = s.callers.set i q) (hthreads : t.threads = s.threads)
    (hmax : t.maxThreads = s.maxThreads) (hidle : t.idle = s.idle)
    (hnum : t.numThreads + p.counted = s.numThreads + q.counted)
    (hle : t.numThreads ≤ s.maxThreads) : Accounts t := by
  have hcounted := total_set Caller.counted hi q
  rw [← hcallers] at hcounted
  obtain ⟨hi', hn', hc'⟩ := h
  refine ⟨?_, ?_, ?_⟩
  · rw [hthreads, hidle, hi']
  · rw [hthreads]
    omega
  · omega

/-- Neither threads nor calls move. -/
theorem congr (h : Accounts s) (hthreads : t.threads = s.threads) (hcallers : t.callers = s.callers)
    (hmax : t.maxThreads = s.maxThreads) (hidle : t.idle = s.idle)
    (hnum : t.numThreads = s.numThreads) : Accounts t := by
  refine ⟨?_, ?_, ?_⟩
  · rw [hthreads, hidle, h.idle]
  · rw [hthreads, hcallers, hnum, h.threads]
  · rw [hmax, hnum]
    exact h.cap

theorem idle_pos (h : Accounts s) {i : ℕ} {p : Thread} (hi : s.threads[i]? = some p)
    (hp : p.idles = 1) : 1 ≤ s.idle := by
  rw [h.idle, ← hp]
  exact le_total Thread.idles hi

theorem numThreads_pos (h : Accounts s) {i : ℕ} {p : Thread} (hi : s.threads[i]? = some p)
    (hp : p.counted = 1) : 1 ≤ s.numThreads := by
  have := le_total Thread.counted hi
  rw [h.threads]
  omega

theorem live_le (h : Accounts s) :
    total Thread.live s.threads + total Caller.spawning s.callers ≤ s.numThreads := by
  have hthreads := total_mono Thread.live_le_counted s.threads
  have hcallers := total_mono Caller.spawning_le_counted s.callers
  have := h.threads
  omega

theorem notifyAll (h : Accounts s) : Accounts s.notifyAll := by
  refine ⟨?_, ?_, h.cap⟩
  · rw [total_notifyAll rfl]
    exact h.idle
  · rw [total_notifyAll rfl]
    exact h.threads

theorem notifyOne (h : Accounts s) {i : ℕ} {spawn : Bool}
    (hi : s.callers[i]? = some (.notifies spawn)) :
    Accounts (s.setCaller i (if spawn then .spawns else .returned)) := by
  refine h.setCaller hi rfl rfl rfl rfl ?_ h.cap
  rw [counted_notified]
  rfl

theorem spawn (h : Accounts s) {i : ℕ} (hi : s.callers[i]? = some .spawns) :
    Accounts ({ s with threads := s.threads ++ [Thread.top .spawned] }.setCaller i
      (.pushes s.threads.length)) := by
  have hcounted := total_set Caller.counted hi (.pushes s.threads.length)
  have hcount := h.threads
  refine ⟨?_, ?_, h.cap⟩
  · simpa [State.setCaller, Thread.idles] using h.idle
  · simp only [State.setCaller, total_append, total_cons, total_nil, Thread.counted,
      Caller.counted] at hcounted ⊢
    omega

theorem init (maxThreads : ℕ) : Accounts (.init maxThreads) := ⟨rfl, rfl, Nat.zero_le _⟩

theorem step {l : Label} (h : Accounts s) (hstep : s.step l = some t) : Accounts t := by
  cases State.step_takes hstep with
  | submit =>
    refine ⟨h.idle, ?_, h.cap⟩
    simpa [Caller.counted] using h.threads
  | reject hi | cancelTask hi | push hi | unspawned hi
  | enqueue hi => exact h.setCaller hi rfl rfl rfl rfl rfl h.cap
  | enqueueSpawn hi _ _ hcap => exact h.setCaller hi rfl rfl rfl rfl rfl hcap
  | callerPoll hi =>
    refine h.setCaller hi rfl rfl rfl rfl ?_ h.cap
    rw [Next.caller_counted]
    rfl
  | spawn hi => exact h.spawn hi
  | notify hi ht =>
    have hwoken : Accounts (s.setThread _ (.woken false)) :=
      h.setThread ht rfl rfl rfl rfl rfl le_rfl
    exact hwoken.notifyOne hi
  | notifyNone hi => exact h.notifyOne hi
  | pop hi | leaveClosed hi | wake hi =>
    exact h.setThread hi rfl rfl rfl rfl rfl le_rfl
  | wait hi => exact h.setThread hi rfl rfl rfl rfl rfl le_rfl
  | threadPoll hi =>
    refine h.setThread hi rfl rfl rfl ?_ ?_ le_rfl
    all_goals
      generalize (Task.poll _ _ _).2 = next
      cases next <;> rfl
  | relockLeave hi | relock hi =>
    have := h.idle_pos hi rfl
    exact h.setThread hi rfl rfl rfl (Nat.sub_add_cancel this) rfl le_rfl
  | exit hi =>
    have := h.numThreads_pos hi rfl
    exact h.setThread hi rfl rfl rfl rfl (Nat.sub_add_cancel this) (Nat.sub_le _ _)
  | notifyAll => exact h.notifyAll.congr rfl rfl rfl rfl rfl
  | _ => exact h.congr rfl rfl rfl rfl rfl

end Accounts

end Eddy.BlockingPool
