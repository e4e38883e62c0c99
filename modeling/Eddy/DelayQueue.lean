import Mathlib.Data.List.AList
import Eddy.TimerSharedFirings

/-!
# The delay queue

`DelayQueue` of `time/delay_queue.rs`, over the runtime's timer driver, one call at a time. An item
whose timer is not due when it is armed waits in a hash map; `poll_expired` moves the items whose
timers have fired into a FIFO, in the order in which it meets them in the map. The queue is used
within a runtime that has a timer driver.
-/

namespace Eddy.DelayQueue
open Interleaving TimerWheel

inductive Poll (α : Type) where
  | ready (output : α)
  | pending

/-- The waker of the task that polls the queue, and the wakers that were woken. -/
structure FireSink where
  waker : Option ℕ
  notified : Bool
  woken : List ℕ

def FireSink.notify (sink : FireSink) : FireSink :=
  match sink.waker with
  | some waker => { sink with waker := none, woken := sink.woken ++ [waker] }
  | none => { sink with notified := true }

/-- An item with the identity of its timer. -/
structure Entry (T : Type) where
  when : ℤ
  timer : ℕ
  value : T

structure Expired (T : Type) where
  key : ℕ
  deadline : ℤ
  item : T
  deriving DecidableEq

variable {T : Type}

/-- `x` is due no later than `y`. -/
def Expired.Le (x y : Expired T) : Prop := x.deadline ≤ y.deadline

instance (x y : Expired T) : Decidable (x.Le y) :=
  inferInstanceAs (Decidable (x.deadline ≤ y.deadline))

structure Queue (T : Type) where
  entries : AList fun _ : ℕ => Entry T
  expired : List (Expired T)
  /-- The driver was resolved. -/
  driver : Bool
  closed : Bool
  nextKey : ℕ
  sink : FireSink

namespace Queue

def new : Queue T where
  entries := ∅
  expired := []
  driver := false
  closed := false
  nextKey := 0
  sink := ⟨none, false, []⟩

/-- The item with a key, as `poll_expired` passes it on. -/
def item (q : Queue T) (key : ℕ) : Option (Expired T) :=
  (q.entries.lookup key).map fun entry => ⟨key, entry.when, entry.value⟩

/-- The body of the loop over the fired keys. -/
def moveExpired (q : Queue T) (key : ℕ) : Queue T :=
  match q.entries.lookup key with
  | some entry =>
    { q with
      entries := q.entries.erase key
      expired := q.expired ++ [⟨key, entry.when, entry.value⟩] }
  | none => q

end Queue

/-- A queue and the timer driver of its runtime. -/
structure System (T : Type) where
  timers : TimerShared
  /-- The timers with a smaller identity were created. -/
  nextTimer : ℕ
  queue : Queue T
  /-- What the polls have returned. -/
  delivered : List (Expired T)

namespace System

def new : System T := ⟨.new, 0, .new, []⟩

def isFired (s : System T) (entry : Entry T) : Bool := (s.timers.wheel.entries entry.timer).fired

/-- The waker made from the `FireSink`. -/
def sinkWaker : ℕ := 0

def insertInner (s : System T) (when : ℤ) (value : T) : Option (ℕ × System T) :=
  if s.queue.closed then none
  else
    let key := s.queue.nextKey
    let queue := { s.queue with nextKey := (key + 1) % 2 ^ 64, driver := true }
    let (due, timers) := s.timers.arm s.nextTimer when sinkWaker
    let queue :=
      if due then
        { queue with
          expired := queue.expired ++ [⟨key, when, value⟩]
          sink := queue.sink.notify }
      else { queue with entries := queue.entries.insert key ⟨when, s.nextTimer, value⟩ }
    some (key, { s with timers := timers, nextTimer := s.nextTimer + 1, queue := queue })

def removeIf (s : System T) (key : ℕ) (predicate : T → Bool) : Option T × System T :=
  match s.queue.entries.lookup key with
  | none => (none, s)
  | some entry =>
    if s.isFired entry || !predicate entry.value then (none, s)
    else
      (some entry.value, { s with
        timers := if s.queue.driver then s.timers.cancel entry.timer else s.timers
        queue := { s.queue with entries := s.queue.entries.erase key } })

def remove (s : System T) (key : ℕ) : Option T × System T := s.removeIf key fun _ => true

/-- The keys of the fired entries, in the order `iter` in which the map is walked. -/
def fired (s : System T) (iter : List ℕ) : List ℕ :=
  iter.filter fun key => (s.queue.entries.lookup key).any s.isFired

def collect (s : System T) (iter : List ℕ) : Queue T := (s.fired iter).foldl .moveExpired s.queue

/-- The loop body of `poll_expired`. There is no answer when it continues. -/
def pollOnce (s : System T) (iter : List ℕ) (cx : ℕ) :
    Option (Poll (Option (Expired T))) × System T :=
  let queue := s.collect iter
  match queue.expired with
  | item :: expired =>
    (some (.ready (some item)), { s with queue := { queue with expired := expired } })
  | [] =>
    if queue.closed && queue.entries.keys.isEmpty then
      (some (.ready none), { s with queue := queue })
    else
      let sink := { queue.sink with waker := some cx }
      if sink.notified then
        (none, { s with queue := { queue with sink := { sink with notified := false } } })
      else (some .pending, { s with queue := { queue with sink := sink } })

def pollLoop (iter : List ℕ) (cx : ℕ) :
    ℕ → System T → Option (Poll (Option (Expired T)) × System T)
  | 0, _ => none
  | n + 1, s =>
    match s.pollOnce iter cx with
    | (some answer, s') => some (answer, s')
    | (none, s') => pollLoop iter cx n s'

/-- The loop continues once at most: it has then cleared `notified`. -/
def pollExpired (s : System T) (iter : List ℕ) (cx : ℕ) :
    Option (Poll (Option (Expired T)) × System T) :=
  pollLoop iter cx 2 s

def close (s : System T) : System T := { s with queue := { s.queue with closed := true } }

/-- A call of the timer driver by the rest of the runtime. The timers of the queue that it fires
wake the sink. -/
def runDriver (s : System T) (a : TimerShared.Action) : Option (System T) :=
  (s.timers.step a).map fun timers =>
    let fires := s.queue.entries.entries.countP fun entry =>
      !s.isFired entry.2 && (timers.wheel.entries entry.2.timer).fired
    { s with
      timers := timers
      queue := { s.queue with sink := FireSink.notify^[fires] s.queue.sink } }

end System

def timer? : TimerShared.Action → Option ℕ
  | .arm id _ _ => some id
  | .cancel id => some id
  | _ => none

/-- The rest of the runtime has no access to the timers in the queue. -/
def System.permits (s : System T) (a : TimerShared.Action) : Bool :=
  (timer? a).all fun id =>
    decide (id < s.nextTimer) && s.queue.entries.entries.all fun entry => entry.2.timer ≠ id

inductive Label (T : Type) where
  /-- `insert` or `insert_at` -/
  | insert (when : ℤ) (value : T)
  | remove (key : ℕ)
  | removeIf (key : ℕ) (predicate : T → Bool)
  /-- The map is walked in the order `iter`. -/
  | poll (iter : List ℕ) (cx : ℕ)
  | close
  /-- Another part of the runtime creates a timer. -/
  | newTimer
  | driver (a : TimerShared.Action)

namespace System

/-- What a poll has returned is recorded. -/
def answer : Poll (Option (Expired T)) × System T → System T
  | (.ready (some item), s) => { s with delivered := s.delivered ++ [item] }
  | (_, s) => s

def step (s : System T) : Label T → Option (System T)
  | .insert when value => (s.insertInner when value).map Prod.snd
  | .remove key => some (s.remove key).2
  | .removeIf key predicate => some (s.removeIf key predicate).2
  | .poll iter cx =>
    if iter.Perm s.queue.entries.keys then (s.pollExpired iter cx).map answer else none
  | .close => some s.close
  | .newTimer => some { s with nextTimer := s.nextTimer + 1 }
  | .driver a => if s.permits a then s.runDriver a else none

end System

end Eddy.DelayQueue
