import Eddy.DelayQueue
import Eddy.TimerDriver

/-!
# The delay queue beside its timers

`DelayQueue` of `time/delay_queue.rs` where timers fire on other threads while a call of the queue
is under way. The calls of the queue exclude one another; a call stops before each access to a
timer, to the wheel and to the `FireSink`. The logs say which item has been where, each with its
timer.
-/

namespace Eddy.DelayQueueRaces
open Interleaving TimerWheel
open DelayQueue (Queue Entry Expired FireSink)
open DelayQueue.System (sinkWaker)

/-- A call of `poll_expired`. -/
structure Call where
  cx : ℕ
  /-- How many wakers the sink had woken when the call began, and when it last began to walk the
  map. -/
  woken : ℕ
  pass : ℕ
  /-- How many timers had fired when the call began. -/
  firings : ℕ
  deriving DecidableEq

variable {T : Type}

inductive Place (T : Type) where
  | idle
  /-- `insert_inner` before the mutex of the wheel, with the comparison with the clock. -/
  | arms (key : ℕ) (entry : Entry T) (alreadyDue : Bool)
  | inserts (key : ℕ) (entry : Entry T) (due : Bool)
  /-- Before the sink is notified of an item that was due. -/
  | notifies (timer : ℕ)
  /-- `remove` after the check of the flag. -/
  | removes (key : ℕ) (entry : Entry T)
  /-- `poll_expired` in the walk over the map. -/
  | scans (call : Call) (rest found : List ℕ)
  /-- Before the waker is stored. -/
  | registers (call : Call)
  /-- Before the swap of `notified`. -/
  | swaps (call : Call)

/-- An item of the queue with its timer. -/
def logged (key : ℕ) (entry : Entry T) : ℕ × Expired T :=
  (entry.timer, ⟨key, entry.when, entry.value⟩)

structure State (T : Type) where
  timers : Timers
  /-- The timers with a smaller identity were created. -/
  nextTimer : ℕ
  queue : Queue T
  place : Place T
  /-- The latest call of `poll_expired`, once it has returned `Pending`. -/
  latest : Option Call
  /-- The timers that `insert` has made. -/
  own : List ℕ
  inserted : List (ℕ × Expired T)
  /-- What went into `expired`. -/
  expiry : List (ℕ × Expired T)
  removed : List (ℕ × Expired T)
  /-- What the polls have returned. -/
  delivered : List (Expired T)

namespace State

def new : State T where
  timers := .new
  nextTimer := 0
  queue := .new
  place := .idle
  latest := none
  own := []
  inserted := []
  expiry := []
  removed := []
  delivered := []

def isFired (s : State T) (entry : Entry T) : Bool := (s.timers.entry entry.timer).fired

/-- `insert_inner` up to the comparison with the clock. A closed queue panics. -/
def insert (s : State T) (when : ℤ) (value : T) : Option (State T) :=
  if s.queue.closed then none
  else
    let key := s.queue.nextKey
    let entry : Entry T := ⟨when, s.nextTimer, value⟩
    some { s with
      queue := { s.queue with nextKey := (key + 1) % 2 ^ 64, driver := true }
      nextTimer := s.nextTimer + 1
      own := s.own ++ [s.nextTimer]
      place := .arms key entry (decide (when ≤ s.timers.shared.nowInstant)) }

/-- The section of `insert_inner` after `arm`. -/
def enqueue (s : State T) (key : ℕ) (entry : Entry T) (due : Bool) : State T :=
  if due then
    { s with
      queue := { s.queue with expired := s.queue.expired ++ [⟨key, entry.when, entry.value⟩] }
      place := .notifies entry.timer
      inserted := s.inserted ++ [logged key entry]
      expiry := s.expiry ++ [logged key entry] }
  else
    { s with
      queue := { s.queue with entries := s.queue.entries.insert key entry }
      place := .idle
      inserted := s.inserted ++ [logged key entry] }

/-- `remove_if` up to the check of the flag and of the value. -/
def removeIf (s : State T) (key : ℕ) (predicate : T → Bool) : State T :=
  match s.queue.entries.lookup key with
  | none => s
  | some entry =>
    if s.isFired entry || !predicate entry.value then s
    else { s with place := .removes key entry }

/-- The rest of `remove_if`. -/
def finishRemove (s : State T) (key : ℕ) (entry : Entry T) : Option (State T) :=
  let timers := if s.queue.driver then s.timers.cancel entry.timer else some s.timers
  timers.map fun timers =>
    { s with
      timers
      queue := { s.queue with entries := s.queue.entries.erase key }
      place := .idle
      removed := s.removed ++ [logged key entry] }

/-- `poll_expired` begins to walk the map in the order `iter`. -/
def scan (s : State T) (call : Call) (iter : List ℕ) : Option (State T) :=
  if iter.Perm s.queue.entries.keys then
    some { s with place := .scans { call with pass := s.queue.sink.woken.length } iter [] }
  else none

def poll (s : State T) (iter : List ℕ) (cx : ℕ) : Option (State T) :=
  let woken := s.queue.sink.woken.length
  { s with latest := none }.scan ⟨cx, woken, woken, s.timers.shared.firings.length⟩ iter

/-- The flag of one entry is read. -/
def read (s : State T) (call : Call) (key : ℕ) (rest found : List ℕ) : State T :=
  let fired := (s.queue.entries.lookup key).any s.isFired
  { s with place := .scans call rest (if fired then found ++ [key] else found) }

def moveExpired (s : State T) (key : ℕ) : State T :=
  { s with
    queue := s.queue.moveExpired key
    expiry := s.expiry ++ ((s.queue.entries.lookup key).map (logged key)).toList }

/-- `pop_front`, and where the call goes on without an item. -/
def popExpired (s : State T) (call : Call) : State T :=
  match s.queue.expired with
  | item :: expired =>
    { s with
      queue := { s.queue with expired }
      place := .idle
      delivered := s.delivered ++ [item] }
  | [] =>
    if s.queue.closed && s.queue.entries.keys.isEmpty then { s with place := .idle }
    else { s with place := .registers call }

/-- The next step of the call under way; a walk over the map is in the order `iter`. -/
def go (s : State T) (iter : List ℕ) : Option (State T) :=
  match s.place with
  | .idle => none
  | .arms key entry alreadyDue =>
    (s.timers.arm alreadyDue entry.timer entry.when sinkWaker).map fun (due, timers) =>
      { s with timers, place := .inserts key entry due }
  | .inserts key entry due => some (s.enqueue key entry due)
  | .notifies _ =>
    some { s with queue := { s.queue with sink := s.queue.sink.notify }, place := .idle }
  | .removes key entry => s.finishRemove key entry
  | .scans call (key :: rest) found => some (s.read call key rest found)
  | .scans call [] found => some ((found.foldl moveExpired s).popExpired call)
  | .registers call =>
    let sink := { s.queue.sink with waker := some call.cx }
    some { s with queue := { s.queue with sink }, place := .swaps call }
  | .swaps call =>
    if s.queue.sink.notified then
      let sink := { s.queue.sink with notified := false }
      { s with queue := { s.queue with sink } }.scan call iter
    else some { s with place := .idle, latest := some call }

/-- A call of `advance_to_now` wakes the next waker that it has taken. -/
def wake (s : State T) (i : ℕ) : Option (State T) :=
  (s.timers.wake i).map fun ((_, waker), timers) =>
    let sink := if waker = sinkWaker then s.queue.sink.notify else s.queue.sink
    { s with timers, queue := { s.queue with sink } }

/-- The rest of the runtime has no access to the timers of the queue, and not its waker. -/
def permits (s : State T) : Timers.Label → Bool
  | .arm _ id _ waker => decide (id < s.nextTimer ∧ id ∉ s.own ∧ waker ≠ sinkWaker)
  | .cancel id => decide (id < s.nextTimer ∧ id ∉ s.own)
  | _ => true

end State

inductive Label (T : Type) where
  /-- `insert` or `insert_at` -/
  | insert (when : ℤ) (value : T)
  | remove (key : ℕ)
  | removeIf (key : ℕ) (predicate : T → Bool)
  | poll (iter : List ℕ) (cx : ℕ)
  /-- The call under way goes on. -/
  | go (iter : List ℕ)
  | close
  /-- Another part of the runtime creates a timer. -/
  | newTimer
  | driver (l : Timers.Label)
  | wake (i : ℕ)

namespace State

def isIdle (s : State T) : Bool :=
  match s.place with
  | .idle => true
  | _ => false

def step (s : State T) : Label T → Option (State T)
  | .insert when value => if s.isIdle then s.insert when value else none
  | .remove key => if s.isIdle then some (s.removeIf key fun _ => true) else none
  | .removeIf key predicate => if s.isIdle then some (s.removeIf key predicate) else none
  | .poll iter cx => if s.isIdle then s.poll iter cx else none
  | .go iter => s.go iter
  | .close => if s.isIdle then some { s with queue := { s.queue with closed := true } } else none
  | .newTimer => some { s with nextTimer := s.nextTimer + 1 }
  | .driver l => if s.permits l then (s.timers.step l).map fun timers => { s with timers } else none
  | .wake i => s.wake i

def waiting (s : State T) : List (ℕ × Expired T) :=
  s.queue.entries.entries.map fun entry => logged entry.1 entry.2

/-- The timers that have fired since a call of `poll_expired` began. -/
def recent (s : State T) (call : Call) : List ℕ :=
  (s.timers.shared.firings.drop call.firings).map Firing.id

/-- The timer is in the wheel for an item that `insert_inner` has not put into the map yet. -/
def Enters (s : State T) (timer : ℕ) : Prop :=
  match s.place with
  | .inserts _ entry false => entry.timer = timer
  | _ => False

/-- The timer was due when it was armed, and its insert has not notified the sink yet. -/
def Notifies (s : State T) (timer : ℕ) : Prop :=
  match s.place with
  | .inserts _ entry true => entry.timer = timer
  | .notifies timer' => timer' = timer
  | _ => False

/-- Every item is in the map, or was removed, or has expired after its timer fired; the polls have
returned the expired items in order. -/
def ExactlyOnce (s : State T) : Prop :=
  (s.inserted.map Prod.fst).Nodup ∧ s.inserted.Perm (s.expiry ++ s.removed ++ s.waiting) ∧
    s.expiry.map Prod.snd = s.delivered ++ s.queue.expired ∧
      ∀ item ∈ s.expiry, (s.timers.entry item.1).fired = true

/-- A timer of the queue has fired: since the call began, or of an item that is in the map. -/
def Expires (s : State T) (call : Call) (timer : ℕ) : Prop :=
  timer ∈ s.own ∧ (timer ∈ s.recent call ∨
    (timer ∈ s.waiting.map Prod.fst ∧ (s.timers.entry timer).fired = true))

/-- When the latest call of `poll_expired` has returned `Pending` and a timer of the queue has fired
and has woken, the waker of that call was woken since the call began. -/
def NoLostExpiry (s : State T) : Prop :=
  ∀ call ∈ s.latest, ∀ timer, s.Expires call timer → ¬ s.timers.Wakes timer → ¬ s.Notifies timer →
    call.cx ∈ s.queue.sink.woken.drop call.woken

def hasFired (s : State T) : Bool := s.queue.entries.entries.any fun entry => s.isFired entry.2

/-- An item does not go under the key of another one that is in the map, and a call of
`poll_expired` does not return `Pending` with a fired timer in the map when another waker than its
own was woken since it began to walk the map. -/
def HeedsAt (s : State T) : Place T → Prop
  | .inserts key _ false => (s.queue.entries.lookup key).isNone = true
  | .swaps call => s.queue.sink.notified = false → s.hasFired = true →
    ∀ waker ∈ s.queue.sink.woken.drop call.pass, waker = call.cx
  | _ => True

def Heeds (s : State T) : Label T → Prop
  | .go _ => s.HeedsAt s.place
  | _ => True

instance (s : State T) : (p : Place T) → Decidable (s.HeedsAt p)
  | .inserts _ _ false => inferInstanceAs (Decidable (_ = _))
  | .swaps _ => inferInstanceAs (Decidable (_ → _ → _))
  | .inserts _ _ true | .idle | .arms _ _ _ | .notifies _ | .removes _ _ | .scans _ _ _
  | .registers _ => .isTrue trivial

instance (s : State T) : (l : Label T) → Decidable (s.Heeds l)
  | .go _ => inferInstanceAs (Decidable (s.HeedsAt s.place))
  | .insert _ _ | .remove _ | .removeIf _ _ | .poll _ _ | .close | .newTimer | .driver _
  | .wake _ => .isTrue trivial

end State

end Eddy.DelayQueueRaces
