import Eddy.CurrentThreadQueues
import Eddy.DriverWakes
import Eddy.LocalQueue

/-!
# The loop of the workers

`worker_loop`, `search_and_steal`, `take_injected`, `IdleState` and `schedule` of
`scheduler/multi_thread/worker.rs`, with any number of workers over the driver. A step is an access
to the injector, to a local queue, to `searching`, to the bitmap of parked workers, or to the
driver; the LIFO slot and the tick belong to their worker.

A local queue is the list of the tasks that nobody has claimed, oldest first, and the number of those
that a thief has claimed and not committed. A thief may compute its claim from a tail that it has
read before. Shutdown and `block_in_place` are left out; what a task does is up to the labels.
-/

namespace Eddy.WorkerLoop
open Interleaving Driver

def MAX_LIFO_POLLS_PER_TICK : ℕ := 3

/-- `LOCAL_QUEUE_CAPACITY`. -/
def capacity : ℕ := LocalQueue.localQueueCapacity.size

inductive Source where
  | lifo
  | queue
  | injected
  | stolen
  deriving DecidableEq

/-- What a thread goes on with after `schedule` or `notify_driver`. -/
inductive Resume where
  | polls (task : ℕ)
  /-- The poll has returned. -/
  | ended
  /-- In the driver, where timers and events wake tasks. -/
  | parked
  /-- After the search of an iteration. -/
  | searched (globalFirst : Bool)
  deriving DecidableEq

inductive Place where
  | nextLifo
  | pop
  /-- Of `take_injected`: the pop of the injector, the push and the pop of the local queue. -/
  | takeInjected (globalFirst : Bool)
  | keep (globalFirst : Bool) (task : ℕ)
  | retake (globalFirst : Bool) (task : ℕ)
  /-- Of `search_and_steal`: the first load of `searching`, the one of the loop, the exchange. -/
  | search (globalFirst : Bool)
  | count (globalFirst : Bool)
  | claim (globalFirst : Bool) (count : ℕ)
  /-- Of `steal_work`: the victims to go, the copy of a claim, the end of the search. -/
  | steal (globalFirst : Bool) (victims : List ℕ)
  | copy (globalFirst : Bool) (victim count task : ℕ) (rest : List ℕ)
  | leave (globalFirst : Bool) (task : Option ℕ)
  /-- Of `unpark_any`: the load and the `fetch_and`. -/
  | unparkAny (globalFirst : Bool)
  | unmark (globalFirst : Bool) (id : ℕ)
  | notify (n : Notify) (resume : Resume)
  /-- Of `park`: the `fetch_or`, both looks of `has_work`, `park_worker`, the `fetch_and`. -/
  | mark
  | checkInject
  | checkLocal
  | retreat
  | enter
  | parked
  /-- Of `run_task`: before the owner is set, and in the poll. -/
  | run (task : ℕ) (source : Source)
  | poll (task : ℕ)
  /-- Of `schedule`: the local path, `push_overflow`, and the path through the injector. -/
  | schedule (task target : ℕ) (resume : Resume)
  | push (task : ℕ) (resume : Resume)
  | overflow (task : ℕ) (overflow : List ℕ) (resume : Resume)
  | spill (task : ℕ) (overflow : List ℕ) (resume : Resume)
  | injectBatch (overflow : List ℕ) (resume : Resume)
  | inject (task : ℕ) (resume : Resume)
  deriving DecidableEq

/-- After a search that came back without a task. -/
def searched (globalFirst : Bool) : Place :=
  if globalFirst then .mark else .takeInjected false

/-- After a `take_injected` that came back without a task. -/
def injectorEmpty (globalFirst : Bool) : Place :=
  if globalFirst then .search true else .mark

def Resume.place : Resume → Place
  | .polls task => .poll task
  | .ended => .nextLifo
  | .parked => .parked
  | .searched globalFirst => WorkerLoop.searched globalFirst

/-- After a step of `notify_driver`. -/
def Resume.after (resume : Resume) : Option Notify → Place
  | some n => .notify n resume
  | none => resume.place

structure Worker where
  place : Place
  lifo : Option ℕ
  queue : List ℕ
  claimed : ℕ
  tick : UInt32
  lifoPolls : ℕ

namespace Worker

def new : Worker := ⟨.nextLifo, none, [], 0, 0, 0⟩

/-- `Local::len`. -/
def len (w : Worker) : ℕ := w.queue.length + w.claimed

def goTo (w : Worker) (place : Place) : Worker := { w with place }

/-- The owner's pop finds nothing while a claim is in flight. -/
def popped (w : Worker) : Option ℕ := if w.claimed = 0 then w.queue.getLast? else none

end Worker

structure State where
  lifoSlotEnabled : Bool
  workers : List Worker
  /-- The injector. -/
  injector : List ℕ
  searching : ℕ
  /-- The bitmap of `IdleState`. -/
  parked : UInt64
  /-- `owner_id` of each task. -/
  owner : ℕ → ℕ
  driver : DriverShared

/-- What a step of a worker does not determine itself. -/
inductive Choice where
  | next
  /-- The weak exchange of `searching` fails. -/
  | spurious
  /-- The search starts at a random victim. -/
  | start (victim : ℕ)
  /-- How many tasks a thief claims; none if the victim seems empty or there is no room. -/
  | claim (count : ℕ)
  /-- The poll, or a wake made in the driver, calls `schedule`. -/
  | schedule (task target : ℕ)
  /-- The poll returns; the task was woken in the meantime or not. -/
  | returns (woken : Bool)

inductive Label where
  | worker (i : ℕ) (choice : Choice)
  /-- Another thread schedules a task. -/
  | push (task : ℕ)
  | driver (l : Driver.Label)

/-- The victims of `steal_work` from a start on. -/
def victims (workers i start : ℕ) : List ℕ :=
  ((List.range workers).map fun offset => (start + offset) % workers).filter fun v => v ≠ i

def bit (id : ℕ) : UInt64 := (1 : UInt64) <<< UInt64.ofNat id

def trailingZeros (bits : UInt64) : ℕ :=
  ((List.range 64).find? fun b => bits.toBitVec.getLsbD b).getD 64

namespace State

def new (workers : ℕ) (lifoSlotEnabled : Bool) : State :=
  ⟨lifoSlotEnabled, List.replicate workers .new, [], 0, 0, fun _ => workers, .new workers⟩

def setWorker (s : State) (i : ℕ) (w : Worker) : State := { s with workers := s.workers.set i w }

/-- The worker to which `schedule` routes a task. -/
def target (s : State) (task target : ℕ) : ℕ :=
  if s.owner task < s.workers.length then s.owner task else target

/-- The claims of `steal_into` from `victim`; `count` tasks for the queue of `w`. -/
def claimFrom (s : State) (i : ℕ) (w : Worker) (globalFirst : Bool) (victim : ℕ) (rest : List ℕ)
    (count : ℕ) : Option State :=
  match count, s.workers[victim]? with
  | 0, _ => some (s.setWorker i (w.goTo (.steal globalFirst rest)))
  | _, none => none
  | _, some v =>
      match v.queue.take count with
      | [] => none
      | task :: stolen =>
          if victim ≠ i ∧ count ≤ v.queue.length ∧ count ≤ capacity / 2 ∧
              w.len + count ≤ capacity then
            some ((s.setWorker victim { v with
              queue := v.queue.drop count, claimed := v.claimed + count }).setWorker i
                (w.goTo (.copy globalFirst victim count task stolen)))
          else none

def next (s : State) (i : ℕ) (w : Worker) : Choice → Option State
  | .next =>
    match w.place with
    | .nextLifo =>
        if MAX_LIFO_POLLS_PER_TICK ≤ w.lifoPolls then
          some (s.setWorker i { w with lifoPolls := 0, place := .pop })
        else
          match w.lifo with
          | some task => some (s.setWorker i { w with
              lifo := none, lifoPolls := w.lifoPolls + 1, place := .run task .lifo })
          | none => some (s.setWorker i (w.goTo .pop))
    | .pop =>
        match w.popped with
        | some task => some (s.setWorker i { w with
            queue := w.queue.dropLast, lifoPolls := 0, place := .run task .queue })
        | none => some (s.setWorker i { w with
            tick := w.tick + 1
            place :=
              if (w.tick + 1) % CurrentThread.GLOBAL_QUEUE_INTERVAL = 0 then .takeInjected true
              else .search false })
    | .takeInjected globalFirst =>
        match s.injector with
        | task :: injector =>
            some ({ s with injector }.setWorker i (w.goTo (.keep globalFirst task)))
        | [] => some (s.setWorker i (w.goTo (injectorEmpty globalFirst)))
    | .keep globalFirst task =>
        if capacity ≤ w.len then some (s.setWorker i (w.goTo (.run task .injected)))
        else some (s.setWorker i { w with
          queue := w.queue ++ [task], place := .retake globalFirst task })
    | .retake globalFirst task =>
        match w.popped with
        | some popped => some (s.setWorker i { w with
            queue := w.queue.dropLast
            place := .run popped (if popped = task then .injected else .queue) })
        | none => some (s.setWorker i (w.goTo (injectorEmpty globalFirst)))
    | .search globalFirst =>
        if s.workers.length / 2 ≤ s.searching then
          some (s.setWorker i (w.goTo (searched globalFirst)))
        else some (s.setWorker i (w.goTo (.count globalFirst)))
    | .count globalFirst =>
        if s.workers.length / 2 ≤ s.searching then
          some (s.setWorker i (w.goTo (searched globalFirst)))
        else some (s.setWorker i (w.goTo (.claim globalFirst s.searching)))
    | .steal globalFirst [] => some (s.setWorker i (w.goTo (.leave globalFirst none)))
    | .copy globalFirst victim count task (stolen :: rest) =>
        some (s.setWorker i { w with
          queue := w.queue ++ [stolen], place := .copy globalFirst victim count task rest })
    | .copy globalFirst victim count task [] =>
        s.workers[victim]?.map fun v =>
          (s.setWorker victim { v with claimed := v.claimed - count }).setWorker i
            (w.goTo (.leave globalFirst (some task)))
    | .leave globalFirst task =>
        some ({ s with searching := s.searching - 1 }.setWorker i (w.goTo
          (match task with
          | some task => .run task .stolen
          | none => if s.searching = 1 then .unparkAny globalFirst else searched globalFirst)))
    | .unparkAny globalFirst =>
        some (s.setWorker i (w.goTo
          (if s.parked = 0 then searched globalFirst
          else if s.workers.length ≤ trailingZeros s.parked then searched globalFirst
          else .unmark globalFirst (trailingZeros s.parked))))
    | .unmark globalFirst id =>
        some ({ s with parked := s.parked &&& ~~~(bit id) }.setWorker i
          (w.goTo (.notify .starts (.searched globalFirst))))
    | .notify n resume =>
        some ({ s with driver := (s.driver.signal n).1 }.setWorker i
          (w.goTo (resume.after (s.driver.signal n).2)))
    | .mark => some ({ s with parked := s.parked ||| bit i }.setWorker i (w.goTo .checkInject))
    | .checkInject =>
        some (s.setWorker i (w.goTo (if s.injector = [] then .checkLocal else .retreat)))
    | .checkLocal =>
        some (s.setWorker i (w.goTo (if w.lifo = none ∧ w.len = 0 then .enter else .retreat)))
    | .retreat =>
        some ({ s with parked := s.parked &&& ~~~(bit i) }.setWorker i (w.goTo .nextLifo))
    | .enter => (s.driver.step (.park i)).map fun driver =>
        { s with driver }.setWorker i (w.goTo .parked)
    | .parked =>
        if s.driver.workers[i]? = some .running then
          some ({ s with parked := s.parked &&& ~~~(bit i) }.setWorker i (w.goTo .nextLifo))
        else none
    | .run task _ => some ({ s with owner := Function.update s.owner task i }.setWorker i
        (w.goTo (.poll task)))
    | .schedule task target resume =>
        if s.target task target = i then
          if s.lifoSlotEnabled ∧ w.lifo = none then
            some (s.setWorker i { w with lifo := some task, place := resume.place })
          else some (s.setWorker i (w.goTo (.push task resume)))
        else some (s.setWorker i (w.goTo (.inject task resume)))
    | .push task resume =>
        if capacity ≤ w.len then some (s.setWorker i (w.goTo (.overflow task [] resume)))
        else some (s.setWorker i { w with queue := w.queue ++ [task], place := resume.place })
    | .overflow task overflow resume =>
        if capacity ≤ w.len then some (s.setWorker i (w.goTo (.spill task overflow resume)))
        else some (s.setWorker i { w with
          queue := w.queue ++ [task], place := .injectBatch overflow resume })
    | .spill task overflow resume =>
        -- the owner moves the older half to a queue of its own and pops that empty
        match w.queue.take (LocalQueue.stealCount w.queue.length capacity) with
        | [] => some (s.setWorker i (w.goTo (.overflow task overflow resume)))
        | first :: staged => some (s.setWorker i { w with
            queue := w.queue.drop (LocalQueue.stealCount w.queue.length capacity)
            place := .overflow task (overflow ++ first :: staged.reverse) resume })
    | .injectBatch overflow resume =>
        some ({ s with injector := s.injector ++ overflow }.setWorker i
          (w.goTo (.notify .starts resume)))
    | .inject task resume =>
        some ({ s with injector := s.injector ++ [task] }.setWorker i
          (w.goTo (.notify .starts resume)))
    | .claim .. | .steal .. | .poll _ => none
  | .spurious =>
    match w.place with
    | .claim globalFirst _ => some (s.setWorker i (w.goTo (.count globalFirst)))
    | _ => none
  | .start victim =>
    match w.place with
    | .claim globalFirst count =>
        if s.searching = count then
          some ({ s with searching := count + 1 }.setWorker i
            (w.goTo (.steal globalFirst (victims s.workers.length i victim))))
        else some (s.setWorker i (w.goTo (.count globalFirst)))
    | _ => none
  | .claim count =>
    match w.place with
    | .steal globalFirst (victim :: rest) => s.claimFrom i w globalFirst victim rest count
    | _ => none
  | .schedule task target =>
    match w.place with
    | .poll polled => some (s.setWorker i (w.goTo (.schedule task target (.polls polled))))
    | .parked =>
        if s.driver.workers[i]? = some .releases then
          some (s.setWorker i (w.goTo (.schedule task target .parked)))
        else none
    | _ => none
  | .returns woken =>
    match w.place with
    | .poll task => some (s.setWorker i (w.goTo
        (if woken then .schedule task i .ended else .nextLifo)))
    | _ => none

def ownedBy (s : State) : Driver.Label → Bool
  | .park _ => false
  | .worker i | .returns i _ | .wakes i => s.workers[i]?.any fun w => w.place = .parked
  | .arm .. | .cancel _ | .unpark | .caller _ | .clock _ | .pause | .resume
  | .setAutoAdvance _ => true

def step (s : State) : Label → Option State
  | .worker i choice => s.workers[i]?.bind fun w => s.next i w choice
  | .push task => (s.driver.step .unpark).map fun driver =>
      { s with injector := s.injector ++ [task], driver }
  | .driver l =>
      if s.ownedBy l then (s.driver.step l).map fun driver => { s with driver } else none

inductive Goes (s : State) (i : ℕ) (w : Worker) : Place → Choice → Place → Prop where
  | noLifo (few : w.lifoPolls < MAX_LIFO_POLLS_PER_TICK) (none : w.lifo = none) :
      Goes s i w .nextLifo .next .pop
  | keepsNone (globalFirst : Bool) (task : ℕ) (full : capacity ≤ w.len) :
      Goes s i w (.keep globalFirst task) .next (.run task .injected)
  | tooMany (globalFirst : Bool) (many : s.workers.length / 2 ≤ s.searching) :
      Goes s i w (.search globalFirst) .next (searched globalFirst)
  | searches (globalFirst : Bool) (few : s.searching < s.workers.length / 2) :
      Goes s i w (.search globalFirst) .next (.count globalFirst)
  | counted (globalFirst : Bool) (many : s.workers.length / 2 ≤ s.searching) :
      Goes s i w (.count globalFirst) .next (searched globalFirst)
  | counts (globalFirst : Bool) (few : s.searching < s.workers.length / 2) :
      Goes s i w (.count globalFirst) .next (.claim globalFirst s.searching)
  | fails (globalFirst : Bool) (count : ℕ) :
      Goes s i w (.claim globalFirst count) .spurious (.count globalFirst)
  | loses (globalFirst : Bool) (count victim : ℕ) (other : s.searching ≠ count) :
      Goes s i w (.claim globalFirst count) (.start victim) (.count globalFirst)
  | passes (globalFirst : Bool) (victim : ℕ) (rest : List ℕ) :
      Goes s i w (.steal globalFirst (victim :: rest)) (.claim 0) (.steal globalFirst rest)
  | stealsNone (globalFirst : Bool) :
      Goes s i w (.steal globalFirst []) .next (.leave globalFirst none)
  | noneParked (globalFirst : Bool) :
      Goes s i w (.unparkAny globalFirst) .next (searched globalFirst)
  | finds (globalFirst : Bool) (id : ℕ) :
      Goes s i w (.unparkAny globalFirst) .next (.unmark globalFirst id)
  | offTarget (task target : ℕ) (resume : Resume) (other : s.target task target ≠ i) :
      Goes s i w (.schedule task target resume) .next (.inject task resume)
  | onTarget (task target : ℕ) (resume : Resume) (own : s.target task target = i)
      (slot : ¬ (s.lifoSlotEnabled ∧ w.lifo = none)) :
      Goes s i w (.schedule task target resume) .next (.push task resume)
  | full (task : ℕ) (resume : Resume) (full : capacity ≤ w.len) :
      Goes s i w (.push task resume) .next (.overflow task [] resume)
  | stillFull (task : ℕ) (overflow : List ℕ) (resume : Resume) (full : capacity ≤ w.len) :
      Goes s i w (.overflow task overflow resume) .next (.spill task overflow resume)
  | spillsNone (task : ℕ) (overflow : List ℕ) (resume : Resume)
      (none : w.queue.take (LocalQueue.stealCount w.queue.length capacity) = []) :
      Goes s i w (.spill task overflow resume) .next (.overflow task overflow resume)

/-- The cases of `next`, by the place of the worker. -/
inductive Steps (s : State) (i : ℕ) (w : Worker) : Place → Choice → State → Prop where
  | goes {p q : Place} {c : Choice} (goes : s.Goes i w p c q) :
      Steps s i w p c (s.setWorker i (w.goTo q))
  | capped (enough : MAX_LIFO_POLLS_PER_TICK ≤ w.lifoPolls) :
      Steps s i w .nextLifo .next (s.setWorker i { w with lifoPolls := 0, place := .pop })
  | takesLifo (task : ℕ) (few : w.lifoPolls < MAX_LIFO_POLLS_PER_TICK) (some : w.lifo = some task) :
      Steps s i w .nextLifo .next (s.setWorker i { w with
        lifo := none, lifoPolls := w.lifoPolls + 1, place := .run task .lifo })
  | pops (task : ℕ) (popped : w.popped = some task) :
      Steps s i w .pop .next (s.setWorker i { w with
        queue := w.queue.dropLast, lifoPolls := 0, place := .run task .queue })
  | ticks (popped : w.popped = none) :
      Steps s i w .pop .next (s.setWorker i { w with
        tick := w.tick + 1
        place :=
          if (w.tick + 1) % CurrentThread.GLOBAL_QUEUE_INTERVAL = 0 then .takeInjected true
          else .search false })
  | takes (globalFirst : Bool) (task : ℕ) (injector : List ℕ) (some : s.injector = task :: injector) :
      Steps s i w (.takeInjected globalFirst) .next
        ({ s with injector }.setWorker i (w.goTo (.keep globalFirst task)))
  | misses (globalFirst : Bool) (none : s.injector = []) :
      Steps s i w (.takeInjected globalFirst) .next
        (s.setWorker i (w.goTo (injectorEmpty globalFirst)))
  | keeps (globalFirst : Bool) (task : ℕ) (room : w.len < capacity) :
      Steps s i w (.keep globalFirst task) .next (s.setWorker i { w with
        queue := w.queue ++ [task], place := .retake globalFirst task })
  | retakes (globalFirst : Bool) (task popped : ℕ) (some : w.popped = some popped) :
      Steps s i w (.retake globalFirst task) .next (s.setWorker i { w with
        queue := w.queue.dropLast
        place := .run popped (if popped = task then .injected else .queue) })
  | robbed (globalFirst : Bool) (task : ℕ) (none : w.popped = none) :
      Steps s i w (.retake globalFirst task) .next
        (s.setWorker i (w.goTo (injectorEmpty globalFirst)))
  | wins (globalFirst : Bool) (count victim : ℕ) (same : s.searching = count) :
      Steps s i w (.claim globalFirst count) (.start victim)
        ({ s with searching := count + 1 }.setWorker i
          (w.goTo (.steal globalFirst (victims s.workers.length i victim))))
  | claims (globalFirst : Bool) (victim count task : ℕ) (rest stolen : List ℕ) (v : Worker)
      (found : s.workers[victim]? = some v) (taken : v.queue.take count = task :: stolen)
      (other : victim ≠ i) (pos : 0 < count) (enough : count ≤ v.queue.length)
      (room : w.len + count ≤ capacity) :
      Steps s i w (.steal globalFirst (victim :: rest)) (.claim count)
        ((s.setWorker victim { v with
          queue := v.queue.drop count, claimed := v.claimed + count }).setWorker i
            (w.goTo (.copy globalFirst victim count task stolen)))
  | copies (globalFirst : Bool) (victim count task stolen : ℕ) (rest : List ℕ) :
      Steps s i w (.copy globalFirst victim count task (stolen :: rest)) .next
        (s.setWorker i { w with
          queue := w.queue ++ [stolen], place := .copy globalFirst victim count task rest })
  | commits (globalFirst : Bool) (victim count task : ℕ) (v : Worker)
      (found : s.workers[victim]? = some v) :
      Steps s i w (.copy globalFirst victim count task []) .next
        ((s.setWorker victim { v with claimed := v.claimed - count }).setWorker i
          (w.goTo (.leave globalFirst (some task))))
  | leaves (globalFirst : Bool) (task : Option ℕ) :
      Steps s i w (.leave globalFirst task) .next
        ({ s with searching := s.searching - 1 }.setWorker i (w.goTo
          (match task with
          | some task => .run task .stolen
          | none => if s.searching = 1 then .unparkAny globalFirst else searched globalFirst)))
  | unmarks (globalFirst : Bool) (id : ℕ) :
      Steps s i w (.unmark globalFirst id) .next
        ({ s with parked := s.parked &&& ~~~(bit id) }.setWorker i
          (w.goTo (.notify .starts (.searched globalFirst))))
  | notifies (n : Notify) (resume : Resume) :
      Steps s i w (.notify n resume) .next
        ({ s with driver := (s.driver.signal n).1 }.setWorker i
          (w.goTo (resume.after (s.driver.signal n).2)))
  | marks : Steps s i w .mark .next
      ({ s with parked := s.parked ||| bit i }.setWorker i (w.goTo .checkInject))
  | looks : Steps s i w .checkInject .next
      (s.setWorker i (w.goTo (if s.injector = [] then .checkLocal else .retreat)))
  | decides : Steps s i w .checkLocal .next
      (s.setWorker i (w.goTo (if w.lifo = none ∧ w.len = 0 then .enter else .retreat)))
  | retreats : Steps s i w .retreat .next
      ({ s with parked := s.parked &&& ~~~(bit i) }.setWorker i (w.goTo .nextLifo))
  | enters (driver : DriverShared) (parks : s.driver.step (.park i) = some driver) :
      Steps s i w .enter .next ({ s with driver }.setWorker i (w.goTo .parked))
  | unparks (running : s.driver.workers[i]? = some .running) :
      Steps s i w .parked .next
        ({ s with parked := s.parked &&& ~~~(bit i) }.setWorker i (w.goTo .nextLifo))
  | runs (task : ℕ) (source : Source) :
      Steps s i w (.run task source) .next
        ({ s with owner := Function.update s.owner task i }.setWorker i (w.goTo (.poll task)))
  | wakes (task target polled : ℕ) :
      Steps s i w (.poll polled) (.schedule task target)
        (s.setWorker i (w.goTo (.schedule task target (.polls polled))))
  | releases (task target : ℕ) (releases : s.driver.workers[i]? = some .releases) :
      Steps s i w .parked (.schedule task target)
        (s.setWorker i (w.goTo (.schedule task target .parked)))
  | returns (task : ℕ) (woken : Bool) :
      Steps s i w (.poll task) (.returns woken)
        (s.setWorker i (w.goTo (if woken then .schedule task i .ended else .nextLifo)))
  | fills (task target : ℕ) (resume : Resume) (own : s.target task target = i)
      (slot : s.lifoSlotEnabled ∧ w.lifo = none) :
      Steps s i w (.schedule task target resume) .next
        (s.setWorker i { w with lifo := some task, place := resume.place })
  | pushes (task : ℕ) (resume : Resume) (room : w.len < capacity) :
      Steps s i w (.push task resume) .next
        (s.setWorker i { w with queue := w.queue ++ [task], place := resume.place })
  | overflows (task : ℕ) (overflow : List ℕ) (resume : Resume) (room : w.len < capacity) :
      Steps s i w (.overflow task overflow resume) .next (s.setWorker i { w with
        queue := w.queue ++ [task], place := .injectBatch overflow resume })
  | spills (task first : ℕ) (overflow staged : List ℕ) (resume : Resume)
      (taken : w.queue.take (LocalQueue.stealCount w.queue.length capacity) = first :: staged) :
      Steps s i w (.spill task overflow resume) .next (s.setWorker i { w with
        queue := w.queue.drop (LocalQueue.stealCount w.queue.length capacity)
        place := .overflow task (overflow ++ first :: staged.reverse) resume })
  | injects (tasks : List ℕ) (resume : Resume) (p : Place)
      (before : p = .injectBatch tasks resume ∨ ∃ task, p = .inject task resume ∧ tasks = [task]) :
      Steps s i w p .next ({ s with injector := s.injector ++ tasks }.setWorker i
        (w.goTo (.notify .starts resume)))

variable {s t : State} {i : ℕ} {w : Worker} {c : Choice}

/-- A victim without tasks is passed over; from another one at least one task is claimed. -/
theorem steps_of_claimFrom {globalFirst : Bool} {victim count : ℕ} {rest : List ℕ}
    (h : s.claimFrom i w globalFirst victim rest count = some t) :
    s.Steps i w (.steal globalFirst (victim :: rest)) (.claim count) t := by
  unfold claimFrom at h
  split at h
  · cases h
    exact .goes (.passes globalFirst victim rest)
  · cases h
  · rename_i count _ _ v hcount hv
    split at h
    · cases h
    · rename_i task stolen hstolen
      split_ifs at h with hclaim
      cases h
      exact .claims globalFirst victim count task rest stolen v hv hstolen hclaim.1
        (Nat.pos_of_ne_zero hcount) hclaim.2.1 hclaim.2.2.2

theorem steps_of_next (h : s.next i w c = some t) : s.Steps i w w.place c t := by
  obtain ⟨place, lifo, queue, claimed, tick, lifoPolls⟩ := w
  cases c with
  | next =>
    cases place with
    | nextLifo =>
      simp only [next] at h
      split_ifs at h with hcap
      · cases h
        exact .capped hcap
      · cases lifo with
        | some task =>
          cases h
          exact .takesLifo task (not_le.mp hcap) rfl
        | none =>
          cases h
          exact .goes (.noLifo (not_le.mp hcap) rfl)
    | pop =>
      simp only [next] at h
      split at h
      · rename_i task hpopped
        cases h
        exact .pops task hpopped
      · rename_i hpopped
        cases h
        exact .ticks hpopped
    | takeInjected globalFirst =>
      simp only [next] at h
      split at h
      · rename_i task injector hinjector
        cases h
        exact .takes globalFirst task injector hinjector
      · rename_i hinjector
        cases h
        exact .misses globalFirst hinjector
    | keep globalFirst task =>
      simp only [next] at h
      split_ifs at h with hfull
      · cases h
        exact .goes (.keepsNone globalFirst task hfull)
      · cases h
        exact .keeps globalFirst task (not_le.mp hfull)
    | retake globalFirst task =>
      simp only [next] at h
      split at h
      · rename_i popped hpopped
        cases h
        exact .retakes globalFirst task popped hpopped
      · rename_i hpopped
        cases h
        exact .robbed globalFirst task hpopped
    | search globalFirst =>
      simp only [next] at h
      split_ifs at h with hmany
      · cases h
        exact .goes (.tooMany globalFirst hmany)
      · cases h
        exact .goes (.searches globalFirst (not_le.mp hmany))
    | count globalFirst =>
      simp only [next] at h
      split_ifs at h with hmany
      · cases h
        exact .goes (.counted globalFirst hmany)
      · cases h
        exact .goes (.counts globalFirst (not_le.mp hmany))
    | steal globalFirst victims =>
      cases victims with
      | nil =>
        cases h
        exact .goes (.stealsNone globalFirst)
      | cons victim rest => cases h
    | copy globalFirst victim count task rest =>
      cases rest with
      | nil =>
        obtain ⟨v, hv, rfl⟩ := Option.map_eq_some_iff.mp h
        exact .commits globalFirst victim count task v hv
      | cons stolen rest =>
        cases h
        exact .copies globalFirst victim count task stolen rest
    | leave globalFirst task =>
      cases h
      exact .leaves globalFirst task
    | unparkAny globalFirst =>
      cases h
      split_ifs
      · exact .goes (.noneParked globalFirst)
      · exact .goes (.noneParked globalFirst)
      · exact .goes (.finds globalFirst _)
    | unmark globalFirst id =>
      cases h
      exact .unmarks globalFirst id
    | notify n resume =>
      cases h
      exact .notifies n resume
    | mark =>
      cases h
      exact .marks
    | checkInject =>
      cases h
      exact .looks
    | checkLocal =>
      cases h
      exact .decides
    | retreat =>
      cases h
      exact .retreats
    | enter =>
      obtain ⟨driver, hparks, rfl⟩ := Option.map_eq_some_iff.mp h
      exact .enters driver hparks
    | parked =>
      simp only [next] at h
      split_ifs at h with hrunning
      cases h
      exact .unparks hrunning
    | run task source =>
      cases h
      exact .runs task source
    | schedule task target resume =>
      simp only [next] at h
      split_ifs at h with hown hslot
      · cases h
        exact .fills task target resume hown hslot
      · cases h
        exact .goes (.onTarget task target resume hown hslot)
      · cases h
        exact .goes (.offTarget task target resume hown)
    | push task resume =>
      simp only [next] at h
      split_ifs at h with hfull
      · cases h
        exact .goes (.full task resume hfull)
      · cases h
        exact .pushes task resume (not_le.mp hfull)
    | overflow task overflow resume =>
      simp only [next] at h
      split_ifs at h with hfull
      · cases h
        exact .goes (.stillFull task overflow resume hfull)
      · cases h
        exact .overflows task overflow resume (not_le.mp hfull)
    | spill task overflow resume =>
      simp only [next] at h
      split at h
      · rename_i hnone
        cases h
        exact .goes (.spillsNone task overflow resume hnone)
      · rename_i first staged htaken
        cases h
        exact .spills task first overflow staged resume htaken
    | injectBatch overflow resume =>
      cases h
      exact .injects overflow resume _ (.inl rfl)
    | inject task resume =>
      cases h
      exact .injects [task] resume _ (.inr ⟨task, rfl, rfl⟩)
    | claim | poll => cases h
  | spurious =>
    cases place with
    | claim globalFirst count =>
      cases h
      exact .goes (.fails globalFirst count)
    | _ => cases h
  | start victim =>
    cases place with
    | claim globalFirst count =>
      simp only [next] at h
      split_ifs at h with hsame
      · cases h
        exact .wins globalFirst count victim hsame
      · cases h
        exact .goes (.loses globalFirst count victim hsame)
    | _ => cases h
  | claim count =>
    cases place with
    | steal globalFirst victims =>
      cases victims with
      | nil => cases h
      | cons victim rest => exact steps_of_claimFrom h
    | _ => cases h
  | schedule task target =>
    cases place with
    | poll polled =>
      cases h
      exact .wakes task target polled
    | parked =>
      simp only [next] at h
      split_ifs at h with hreleases
      cases h
      exact .releases task target hreleases
    | _ => cases h
  | returns woken =>
    cases place with
    | poll task =>
      cases h
      exact .returns task woken
    | _ => cases h

end State

end Eddy.WorkerLoop
