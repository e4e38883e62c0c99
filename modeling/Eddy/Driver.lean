import Eddy.TimerSharedFirings

/-!
# Parking in the driver

`park_worker` and `notify_driver` of `io/driver.rs`, with any number of workers and of threads that
arm timers or unpark a worker. A step is an access to the lock of the park state, to `wake_pending`,
to the timers, or to the poller. A sleeper on the condvar may time out at any moment, so that
`notify_one` does not show in the state, and a kernel wait may return at any moment.
-/

namespace Eddy.Driver
open Interleaving TimerWheel

/-- A timeout in nanoseconds, and the clock reading from which it was computed. -/
structure KernelWait where
  now : ℕ
  timeout : Option ℕ
  deriving DecidableEq

/-- Whether the wait lasts beyond a time in milliseconds. -/
def KernelWait.outlasts (w : KernelWait) (time : ℕ) : Bool :=
  match w.timeout with
  | none => true
  | some nanos => nanos != 0 && decide (time * 1000000 < w.now * 1000000 + nanos)

/-- Whether the wait lasts beyond the next event of the wheel. -/
def KernelWait.late (w : KernelWait) (next : Option ℕ) : Bool := next.any w.outlasts

/-- Where a worker is in `park_worker`. -/
inductive Worker where
  | running
  /-- It is the holder and has released the lock. -/
  | claimed
  /-- Time is paused: before `wake_pending` is cleared. -/
  | clears
  /-- Time is paused: before `paused_advance`. -/
  | advances
  /-- Before `wake_pending` is swapped. -/
  | swaps
  /-- Before `next_timeout`. -/
  | reads
  /-- Before the kernel wait. -/
  | enters (wait : KernelWait)
  /-- In the kernel wait. -/
  | waits (wait : KernelWait)
  /-- Before `advance_to_now`. -/
  | returned
  /-- Before the holder is cleared. -/
  | releases
  /-- On the condvar. -/
  | sleeps
  deriving DecidableEq

/-- Where a thread is in `notify_driver`. -/
inductive Notify where
  /-- Before `wake_pending` is set. -/
  | starts
  /-- Before `waiters` is read. -/
  | stored
  /-- Before the condvar is notified or the poller is woken. -/
  | decided (condvar : Bool)
  deriving DecidableEq

structure Caller where
  /-- The timer that it has armed. -/
  timer : Option ℕ
  notify : Notify

structure DriverShared where
  timer : TimerShared
  holder : Option ℕ
  waiters : ℕ
  wakePending : Bool
  /-- The poller was woken, and no kernel wait has taken notice. -/
  pollerWoken : Bool
  workers : List Worker
  callers : List Caller

inductive Label where
  | park (i : ℕ)
  /-- The next step of the worker that is the holder. -/
  | worker (i : ℕ)
  /-- The kernel wait returns; it may have drained the poller's waker. -/
  | returns (i : ℕ) (drains : Bool)
  /-- The condvar was notified, or the sleeper timed out. -/
  | wakes (i : ℕ)
  | arm (id : ℕ) (deadline : ℤ) (waker : ℕ)
  | cancel (id : ℕ)
  | unpark
  /-- The next step of a thread in `notify_driver`. -/
  | caller (j : ℕ)
  | clock (real : ℕ)
  | pause
  | resume
  | setAutoAdvance (enabled : Bool)

namespace DriverShared

def new (workers : ℕ) : DriverShared :=
  ⟨.new, none, 0, false, false, List.replicate workers .running, []⟩

def setWorker (s : DriverShared) (i : ℕ) (p : Worker) : DriverShared :=
  { s with workers := s.workers.set i p }

def hold (s : DriverShared) (i : ℕ) : Worker → Option DriverShared
  | .claimed => some (s.setWorker i (if s.timer.paused then .clears else .swaps))
  | .clears => some ({ s with wakePending := false }.setWorker i .advances)
  | .advances => (s.timer.step .pausedAdvance).map fun timer =>
      { s with timer := timer }.setWorker i .releases
  | .swaps =>
    -- A wake arrived before the holder was claimed: drain with a zero timeout.
    some ({ s with wakePending := false }.setWorker i
      (if s.wakePending then .enters ⟨s.timer.nowMs, some 0⟩ else .reads))
  | .reads => some (s.setWorker i (.enters ⟨s.timer.nowMs, s.timer.nextTimeout⟩))
  | .enters wait => some (s.setWorker i (.waits wait))
  | .returned => (s.timer.step .advanceToNow).map fun timer =>
      { s with timer := timer }.setWorker i .releases
  | .releases => some ({ s with holder := none }.setWorker i .running)
  | .running | .waits _ | .sleeps => none

/-- The steps of `notify_driver`. -/
def notify (s : DriverShared) (j : ℕ) (c : Caller) : DriverShared :=
  match c.notify with
  | .starts => { s with
      wakePending := true
      callers := s.callers.set j { c with notify := .stored } }
  | .stored => { s with
      callers := s.callers.set j { c with notify := .decided (decide (0 < s.waiters)) } }
  | .decided true => { s with callers := s.callers.eraseIdx j }
  | .decided false => { s with
      pollerWoken := true
      callers := s.callers.eraseIdx j }

/-- `TimerShared::arm` up to the release of its lock. -/
def arm (s : DriverShared) (id : ℕ) (deadline : ℤ) (waker : ℕ) : DriverShared :=
  let (fired, timer) := s.timer.arm id deadline waker
  { s with
    timer := timer
    callers := if fired then s.callers else s.callers ++ [⟨some id, .starts⟩] }

def step (s : DriverShared) : Label → Option DriverShared
  | .park i =>
    if s.workers[i]? = some .running then
      if s.holder = none then some ({ s with holder := some i }.setWorker i .claimed)
      else some ({ s with waiters := s.waiters + 1 }.setWorker i .sleeps)
    else none
  | .worker i => s.workers[i]?.bind (s.hold i)
  | .returns i drains =>
    match s.workers[i]? with
    | some (.waits _) =>
      some ({ s with pollerWoken := !drains && s.pollerWoken }.setWorker i .returned)
    | _ => none
  | .wakes i =>
    if s.workers[i]? = some .sleeps then
      some ({ s with waiters := s.waiters - 1 }.setWorker i .running)
    else none
  | .arm id deadline waker =>
    -- A timer is armed by the only owner of its entry, which is in one call at a time.
    if s.callers.all (·.timer ≠ some id) then some (s.arm id deadline waker) else none
  | .unpark => some { s with callers := s.callers ++ [⟨none, .starts⟩] }
  | .caller j => s.callers[j]?.map (s.notify j)
  | .clock real => (s.timer.step (.clock real)).map fun timer => { s with timer := timer }
  | .pause => (s.timer.step .pause).map fun timer => { s with timer := timer }
  | .resume => (s.timer.step .resume).map fun timer => { s with timer := timer }
  | .setAutoAdvance enabled =>
    (s.timer.step (.setAutoAdvance enabled)).map fun timer => { s with timer := timer }
  | .cancel id => (s.timer.step (.cancel id)).map fun timer => { s with timer := timer }

/-- Every label with the conditions under which it is possible and what it leaves. -/
inductive Steps (s : DriverShared) : Label → DriverShared → Prop
  | claims {i : ℕ} (hi : s.workers[i]? = some .running) (hholder : s.holder = none) :
      Steps s (.park i) ({ s with holder := some i }.setWorker i .claimed)
  | sleeps {i : ℕ} (hi : s.workers[i]? = some .running) (hholder : s.holder ≠ none) :
      Steps s (.park i) ({ s with waiters := s.waiters + 1 }.setWorker i .sleeps)
  | worker {i : ℕ} {p : Worker} {t : DriverShared} (hi : s.workers[i]? = some p)
      (hhold : s.hold i p = some t) : Steps s (.worker i) t
  | returns {i : ℕ} {wait : KernelWait} (hi : s.workers[i]? = some (.waits wait)) (drains : Bool) :
      Steps s (.returns i drains)
        ({ s with pollerWoken := !drains && s.pollerWoken }.setWorker i .returned)
  | wakes {i : ℕ} (hi : s.workers[i]? = some .sleeps) :
      Steps s (.wakes i) ({ s with waiters := s.waiters - 1 }.setWorker i .running)
  | arm {id waker : ℕ} {deadline : ℤ} (hfree : s.callers.all (·.timer ≠ some id)) :
      Steps s (.arm id deadline waker) (s.arm id deadline waker)
  | unpark : Steps s .unpark { s with callers := s.callers ++ [⟨none, .starts⟩] }
  | caller {j : ℕ} {c : Caller} (hj : s.callers[j]? = some c) : Steps s (.caller j) (s.notify j c)
  | clock {real : ℕ} {timer : TimerShared} (htimer : s.timer.step (.clock real) = some timer) :
      Steps s (.clock real) { s with timer := timer }
  | pause : Steps s .pause { s with timer := s.timer.pause }
  | resume : Steps s .resume { s with timer := s.timer.resume }
  | setAutoAdvance (enabled : Bool) :
      Steps s (.setAutoAdvance enabled) { s with timer := { s.timer with autoAdvance := enabled } }
  | cancel (id : ℕ) : Steps s (.cancel id) { s with timer := s.timer.cancel id }

theorem steps {s t : DriverShared} {l : Label} (h : s.step l = some t) : s.Steps l t := by
  cases l with
  | park i =>
    obtain ⟨hi, h⟩ := Option.ite_none_right_eq_some.mp h
    split_ifs at h with hholder
    · cases h
      exact .claims hi hholder
    · cases h
      exact .sleeps hi hholder
  | worker i =>
    obtain ⟨p, hi, hhold⟩ := Option.bind_eq_some_iff.mp h
    exact .worker hi hhold
  | returns i drains =>
    simp only [step] at h
    split at h
    case h_1 wait hi =>
      cases h
      exact .returns hi drains
    case h_2 => cases h
  | wakes i =>
    obtain ⟨hi, h⟩ := Option.ite_none_right_eq_some.mp h
    cases h
    exact .wakes hi
  | arm id deadline waker =>
    obtain ⟨hfree, h⟩ := Option.ite_none_right_eq_some.mp h
    cases h
    exact .arm hfree
  | unpark =>
    cases h
    exact .unpark
  | caller j =>
    obtain ⟨c, hj, rfl⟩ := Option.map_eq_some_iff.mp h
    exact .caller hj
  | clock real =>
    obtain ⟨timer, htimer, rfl⟩ := Option.map_eq_some_iff.mp h
    exact .clock htimer
  | pause =>
    cases h
    exact .pause
  | resume =>
    cases h
    exact .resume
  | setAutoAdvance enabled =>
    cases h
    exact .setAutoAdvance enabled
  | cancel id =>
    cases h
    exact .cancel id

end DriverShared

end Eddy.Driver
