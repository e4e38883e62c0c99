import Eddy.FairRuns
import Eddy.TimerDriverClock

/-!
# A sleep that is reset

`Sleep` of `time/mod.rs` on one thread, with the calls of `advance_to_now` on other threads. A call
of `reset` or of `poll` stops before each access to the timer's entry, to the clock and to the
wheel. The runtime has a timer driver, whose clock is the real one.
-/

namespace Eddy.Sleeps
open Interleaving TimerWheel FairRuns

structure Sleep where
  deadline : ℤ
  /-- The identity of the timer. -/
  entry : ℕ
  /-- The driver was resolved. -/
  driver : Bool

/-- Who calls `arm`. -/
inductive Caller where
  | reset
  | poll
  deriving DecidableEq

inductive Place where
  | idle
  /-- `reset` once the flag is cleared, before `clone_waker`. -/
  | clones
  /-- `reset` before `cancel`. -/
  | cancels (waker : Option ℕ)
  /-- `arm` before it reads the clock. -/
  | reads (caller : Caller) (waker : ℕ)
  /-- `arm` before the mutex of the wheel. -/
  | arms (caller : Caller) (waker : ℕ) (alreadyDue : Bool)
  /-- `reset` before it wakes the task itself. -/
  | wakes (waker : ℕ)
  deriving DecidableEq

structure State where
  timers : Timers
  sleep : Sleep
  place : Place
  /-- The waker of the latest poll when that returned `Pending` and no `reset` since has found the
  sleep fired. -/
  registered : Option ℕ
  /-- What the polls that returned `Ready` found: the deadline and the clock. -/
  readies : List (ℤ × ℕ)
  /-- The wakers that were woken, each with the clock. -/
  woken : List (ℕ × ℕ)
  /-- How many were woken when the timer was last armed. -/
  mark : ℕ

/-- `TimerEntry::reset` -/
def resetEntry (timers : Timers) (id : ℕ) : Timers :=
  { timers with shared := Timers.setEntry timers.shared id { timers.entry id with fired := false } }

namespace State

/-- A sleep that was not polled yet. -/
def new (entry : ℕ) (deadline : ℤ) : State where
  timers := .new
  sleep := ⟨deadline, entry, false⟩
  place := .idle
  registered := none
  readies := []
  woken := []
  mark := 0

def now (s : State) : ℕ := s.timers.shared.nowMs

def entry (s : State) : TimerEntry := s.timers.entry s.sleep.entry

def deadlineMs (s : State) : ℕ := TimerShared.instantToMs s.sleep.deadline

/-- `reset` up to the check for a driver. -/
def reset (s : State) (deadline : ℤ) : State :=
  { s with
    timers := resetEntry s.timers s.sleep.entry
    sleep := { s.sleep with deadline }
    place := if s.sleep.driver then .clones else .idle
    registered := if s.entry.fired then none else s.registered }

/-- `poll` returns `Ready`. -/
def ready (s : State) : State :=
  { s with
    place := .idle
    registered := none
    readies := s.readies ++ [(s.sleep.deadline, s.now)] }

/-- `poll` up to the clock reading of `arm`. -/
def poll (s : State) (waker : ℕ) : State :=
  if s.entry.fired then s.ready
  else { s with sleep := { s.sleep with driver := true }, place := .reads .poll waker }

/-- After the section of `arm`. -/
def armed (s : State) (caller : Caller) (waker : ℕ) (due : Bool) : State :=
  match caller, due with
  | .poll, true => s.ready
  | .poll, false =>
    { s with place := .idle, registered := some waker, mark := s.woken.length }
  | .reset, true => { s with place := .wakes waker, mark := s.woken.length }
  | .reset, false => { s with place := .idle, mark := s.woken.length }

/-- The next step of the call under way. -/
def go (s : State) : Option State :=
  match s.place with
  | .idle => none
  | .clones => some { s with place := .cancels s.entry.waker }
  | .cancels waker =>
    (s.timers.cancel s.sleep.entry).map fun timers =>
      { s with timers, place := waker.elim .idle (.reads .reset) }
  | .reads caller waker =>
    let alreadyDue := decide (s.sleep.deadline ≤ s.timers.shared.nowInstant)
    some { s with place := .arms caller waker alreadyDue }
  | .arms caller waker alreadyDue =>
    (s.timers.arm alreadyDue s.sleep.entry s.sleep.deadline waker).map fun (due, timers) =>
      { s with timers }.armed caller waker due
  | .wakes waker => some { s with place := .idle, woken := s.woken ++ [(waker, s.now)] }

/-- A call of `advance_to_now` wakes the next waker that it has taken. -/
def wake (s : State) (i : ℕ) : Option State :=
  (s.timers.wake i).map fun ((_, waker), timers) =>
    { s with timers, woken := s.woken ++ [(waker, s.now)] }

/-- The rest of the runtime has no access to the timer of the sleep. -/
def permits (s : State) (l : Timers.Label) : Bool :=
  l.isReal && decide (l.timer ≠ some s.sleep.entry)

end State

inductive Label where
  | reset (deadline : ℤ)
  | poll (waker : ℕ)
  /-- The call under way goes on. -/
  | go
  | driver (l : Timers.Label)
  | wake (i : ℕ)

namespace State

def step (s : State) : Label → Option State
  | .reset deadline => if s.place = .idle then some (s.reset deadline) else none
  | .poll waker => if s.place = .idle then some (s.poll waker) else none
  | .go => s.go
  | .driver l => if s.permits l then (s.timers.step l).map fun timers => { s with timers } else none
  | .wake i => s.wake i

/-- No fire has set the flag and taken the waker since `reset` cleared the flag. -/
def Heeds (s : State) : Label → Prop
  | .go => s.place = .clones → s.entry.fired = true → s.entry.waker ≠ none
  | _ => True

instance (s : State) : (l : Label) → Decidable (s.Heeds l)
  | .go => inferInstanceAs (Decidable (_ → _ → _))
  | .reset _ | .poll _ | .driver _ | .wake _ => .isTrue trivial

/-- The polls that returned `Ready` did so no earlier than the deadline. -/
def NeverEarly (s : State) : Prop :=
  ∀ poll ∈ s.readies, TimerShared.instantToMs poll.1 ≤ poll.2

/-- The waker was woken at the deadline or later, after the timer was armed. -/
def Woken (s : State) (waker : ℕ) : Prop :=
  ∃ now, (waker, now) ∈ s.woken.drop s.mark ∧ s.deadlineMs ≤ now

end State

/-- A call of `reset` or `poll` begins. -/
def Label.IsCall : Label → Prop
  | .reset _ | .poll _ => True
  | _ => False

/-- A call of `advance_to_now` enters its section. -/
def Label.IsLock : Label → Prop
  | .driver (.lock _) => True
  | _ => False

/-- The driver calls `advance_to_now` as long as the timer is in the wheel and due, and its calls go
on. -/
structure Drives (ρ : ℕ → State) (act : ℕ → Option Label) : Prop where
  locks : Fair Label.IsLock
    (fun s => s.entry.linked = true ∧ s.entry.deadline ≤ s.now) ρ act
  fires : Fair (· = .driver .fire) (fun s => s.timers.holder.isSome = true) ρ act
  wakes : ∀ i, Fair (· = .wake i) (fun s => ∃ wakers, s.timers.waking[i]? = some wakers ∧
    wakers ≠ []) ρ act

/-- When no call is under way and the latest poll of the sleep is pending, its waker is woken once
the clock has reached the deadline, or the sleep is reset or polled before. -/
def WokenInTime (ρ : ℕ → State) (act : ℕ → Option Label) : Prop :=
  ∀ n waker, (ρ n).place = .idle → (ρ n).registered = some waker →
    (∃ m, n ≤ m ∧ (ρ n).deadlineMs ≤ (ρ m).now) →
      ∃ m, n ≤ m ∧ ((ρ m).Woken waker ∨ Acts Label.IsCall act m)

end Eddy.Sleeps
