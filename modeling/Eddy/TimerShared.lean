import Eddy.TimerWheelRefinement

/-!
# The runtime's timers

`TimerShared` of `time/wheel.rs`, one call at a time. The clock is the real one, or the one
that `pause` has frozen and `advance` moves. An `Instant` is a number of nanoseconds since
the driver's origin, which may be negative; a `Duration` is a number of nanoseconds. The
history records every timer whose `fired` flag is set, with the clock reading of that call.
-/

namespace Eddy.TimerWheel
open DeadlineMap Interleaving

/-- A number of nanoseconds in milliseconds, rounded up. -/
def roundUpMs (nanos : ℕ) : ℕ :=
  min (nanos / 1000000 + if nanos % 1000000 ≠ 0 then 1 else 0) u64Max

structure Firing where
  id : ℕ
  now : ℕ
  deadline : ℕ
  deriving DecidableEq

structure TimerShared where
  wheel : Wheel
  paused : Bool
  pausedElapsed : ℕ
  autoAdvance : Bool
  /-- Nanoseconds since `origin`. -/
  real : ℕ
  firings : List Firing

namespace TimerShared

def new : TimerShared where
  wheel := .new
  paused := false
  pausedElapsed := 0
  autoAdvance := false
  real := 0
  firings := []

def realElapsedMs (s : TimerShared) : ℕ := min (s.real / 1000000) u64Max

def nowMs (s : TimerShared) : ℕ := if s.paused then s.pausedElapsed else s.realElapsedMs

def nowInstant (s : TimerShared) : ℤ := s.nowMs * 1000000

def instantToMs (instant : ℤ) : ℕ := if instant < 0 then 0 else roundUpMs instant.toNat

def pause (s : TimerShared) : TimerShared :=
  if s.paused then s else { s with paused := true, pausedElapsed := s.realElapsedMs }

def resume (s : TimerShared) : TimerShared := { s with paused := false }

/-- The flags of timers that are due, and their wakers. -/
def fire (w : Wheel) (ids : List ℕ) : Wheel :=
  { w with
    entries := fun id =>
      if id ∈ ids then { w.entries id with fired := true, waker := none } else w.entries id }

def advanceToNow (s : TimerShared) : Option TimerShared :=
  let now := s.nowMs
  (s.wheel.advanceTo now).map fun wheel =>
    let (ids, wheel) := wheel.takePending
    { s with
      wheel := fire wheel ids
      firings := s.firings ++ ids.map fun id => ⟨id, now, wheel.deadline id⟩ }

/-- `none` also stands for the panic when time is not paused. -/
def advance (s : TimerShared) (duration : ℕ) : Option TimerShared :=
  if s.paused then
    advanceToNow { s with pausedElapsed := (s.pausedElapsed + roundUpMs duration) % 2 ^ 64 }
  else none

/-- In nanoseconds. -/
def nextTimeout (s : TimerShared) : Option ℕ :=
  s.wheel.nextEventAt.map fun time => (time - s.nowMs) * 1000000

def pausedAdvance (s : TimerShared) : Option (Bool × TimerShared) :=
  if !s.paused then some (false, s)
  else match s.nextTimeout with
    | some timeout => (s.advance timeout).map (true, ·)
    | none => if s.autoAdvance then (s.advance 1000000).map (true, ·) else some (false, s)

def setTimer (w : Wheel) (id deadline : ℕ) (fired : Bool) (waker : Option ℕ) : Wheel :=
  { w with
    entries := Function.update w.entries id
      { w.entries id with deadline := deadline, fired := fired, waker := waker } }

/-- The section of `arm` under the lock, once the deadline was compared with the clock. -/
def armLocked (s : TimerShared) (alreadyDue : Bool) (id : ℕ) (deadline : ℤ) (waker : ℕ) :
    Bool × TimerShared :=
  let deadline := instantToMs deadline
  let wheel := (s.wheel.remove id).2
  if alreadyDue || deadline ≤ wheel.elapsed then
    (true, { s with
      wheel := setTimer wheel id deadline true none
      firings := s.firings ++ [⟨id, s.nowMs, deadline⟩] })
  else (false, { s with wheel := (setTimer wheel id deadline false (some waker)).insert id })

def arm (s : TimerShared) (id : ℕ) (deadline : ℤ) (waker : ℕ) : Bool × TimerShared :=
  s.armLocked (decide (deadline ≤ s.nowInstant)) id deadline waker

def cancel (s : TimerShared) (id : ℕ) : TimerShared :=
  let wheel := (s.wheel.remove id).2
  { s with
    wheel :=
      { wheel with
        entries := Function.update wheel.entries id { wheel.entries id with waker := none } } }

inductive Action where
  /-- Real time passes. -/
  | clock (real : ℕ)
  | pause
  | resume
  | setAutoAdvance (enabled : Bool)
  | advance (duration : ℕ)
  | pausedAdvance
  | advanceToNow
  | arm (id : ℕ) (deadline : ℤ) (waker : ℕ)
  | cancel (id : ℕ)

def step (s : TimerShared) : Action → Option TimerShared
  | .clock real => if s.real ≤ real then some { s with real := real } else none
  | .pause => some s.pause
  | .resume => some s.resume
  | .setAutoAdvance enabled => some { s with autoAdvance := enabled }
  | .advance duration => s.advance duration
  | .pausedAdvance => s.pausedAdvance.map Prod.snd
  | .advanceToNow => s.advanceToNow
  | .arm id deadline waker => some (s.arm id deadline waker).2
  | .cancel id => some (s.cancel id)

end TimerShared

end Eddy.TimerWheel
