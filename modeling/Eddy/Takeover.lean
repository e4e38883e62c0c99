import Eddy.LocalQueueExactlyOnce

/-!
# The hand-off of a worker's queue in `block_in_place`

`block_in_place_on_worker` and `takeover_thread` of `scheduler/multi_thread/worker.rs`. The worker
moves its local queue out of `workers[id].queue` and leaves a fresh one behind, the takeover
thread puts it back, serves it and moves it out again, and the worker puts it back at the end.
Each access of a thief inside `steal_into` goes through the cell and meets the queue that is in it
at that moment. The queue that the worker owns is called home, and the fresh ones spares.

A takeover thread is the worker of its number while it serves, so that a task it polls may call
`block_in_place` again: the hand-offs form a stack, and only the innermost thread has anything in
its LIFO slot. When the takeover thread cannot be started, the queue that was moved out is dropped
with its tasks, and the worker goes on with the one that it left behind.

The history records what was placed in a LIFO slot and taken out of it, and for each thief the
objects that its head, its tail and its compare-and-swap belong to.
-/

namespace Eddy.Takeover
open LocalQueue WrappingIndex

variable {T : Type}

inductive Object where
  | home
  | spare (n : ℕ)
  deriving DecidableEq

/-- Where the blocked thread is in `block_in_place_on_worker`, after it has replaced the queue. -/
inductive WorkerPc (T : Type) where
  | takesLifo
  /-- Before the `Takeover` is made and its thread spawned. -/
  | spawns (lifo : Option T)
  /-- It polls the future. -/
  | polls
  | locks
  /-- It holds the lock and is about to load `returned`. -/
  | loads
  /-- It holds the lock and has found `returned` false. -/
  | startsWait
  | waits
  /-- Notified, or awake for no reason, and not in possession of the lock yet. -/
  | woken
  /-- It holds the lock and has found `returned` true. -/
  | takesQueue
  | takesLifoBack
  | restores (lifo : Option T)
  | setsLifo (lifo : Option T)
  | joins
  deriving DecidableEq

/-- What `notify_one` does to the blocked thread. -/
def WorkerPc.notified : WorkerPc T → WorkerPc T
  | .waits => .woken
  | pc => pc

inductive TakeoverPc (T : Type) where
  | absent
  | takesQueue
  | restores
  | takesLifo
  | serves
  /-- It has left its loop with the contents of its LIFO slot. -/
  | storesLifo (lifo : Option T)
  | replaces
  | storesQueue
  | storesReturned
  | notifies
  | finished
  deriving DecidableEq

/-- `Takeover`. Its `queue` holds the home queue or nothing. -/
structure Shared (T : Type) where
  queue : Bool
  lifo : Option T
  requested : Bool
  returned : Bool
  /-- The blocked thread holds the lock of `queue`. -/
  locked : Bool

/-- A call of `block_in_place_on_worker`. -/
structure HandOff (T : Type) where
  worker : WorkerPc T
  takeover : TakeoverPc T
  shared : Shared T

def HandOff.new : HandOff T := ⟨.takesLifo, .absent, ⟨false, none, false, false, false⟩⟩

/-- A compare-and-swap by which a thief claims: the object it is applied to, and those that the
head and the tail were loaded from. -/
structure Applied where
  object : Object
  headFrom : Object
  tailFrom : Object
  deriving DecidableEq

/-- The home queue and spare `n` change their names. -/
def Object.exchange (n : ℕ) (object : Object) : Object :=
  if object = .home then .spare n else if object = .spare n then .home else object

def Applied.exchange (n : ℕ) (claim : Applied) : Applied :=
  ⟨claim.object.exchange n, claim.headFrom.exchange n, claim.tailFrom.exchange n⟩

structure State (T : Type) where
  /-- The home queue, its owner's operation and the thieves. -/
  home : LocalQueue.State T
  /-- The spare in the cell and its number; without one the cell holds the home queue. -/
  spare : Option (ℕ × Queue T)
  spares : ℕ
  /-- The innermost comes first. -/
  handOffs : List (HandOff T)
  /-- The LIFO slot of the innermost thread. -/
  slot : Option T
  placed : List T
  ran : List T
  headFrom : ℕ → Object
  tailFrom : ℕ → Object
  applied : List Applied

inductive Label (T : Type) where
  /-- The thread that serves the home queue starts an operation on it, or takes a step of it. -/
  | push (value : T)
  | pushOverflow (value : T)
  | pop
  | owner
  | placeLifo (value : T)
  | takeLifo
  /-- A task that is polled calls `block_in_place`: the queue is replaced. -/
  | blockInPlace
  /-- The next step of the thread blocked in hand-off `j`. -/
  | worker (j : ℕ)
  /-- The thread blocked in hand-off `j` wakes from the condvar for no reason. -/
  | spurious (j : ℕ)
  /-- The `expect` of hand-off `j` on its new thread. -/
  | spawnFails (j : ℕ)
  /-- The next step of the innermost takeover thread outside its loop. -/
  | takeover
  /-- The innermost takeover thread leaves its loop. -/
  | leave (shutdown : Bool)
  | steal (room : ℕ)
  | thief (i : ℕ)
  | drain (i freed : ℕ)

namespace State

def init : State T where
  home := .init
  spare := none
  spares := 0
  handOffs := []
  slot := none
  placed := []
  ran := []
  headFrom := fun _ => .home
  tailFrom := fun _ => .home
  applied := []

/-- The object in the cell. -/
def cell (s : State T) : Object :=
  match s.spare with
  | none => .home
  | some (n, _) => .spare n

/-- `mem::replace(&mut *workers[id].queue.get(), Local::new())`. -/
def moveOut (s : State T) : State T :=
  { s with spare := some (s.spares, .new), spares := s.spares + 1 }

/-- `*workers[id].queue.get() = queue`, which drops the spare. -/
def moveBack (s : State T) : State T := { s with spare := none }

/-- Some thread runs the loop of worker `id`. -/
def served (s : State T) : Bool :=
  match s.handOffs with
  | [] => true
  | h :: _ => match h.takeover with
    | .serves => true
    | _ => false

def serve (cap : Capacity) (s : State T) (a : Action T) : Option (State T) :=
  if s.served then (LocalQueue.step cap s.home a).map fun home => { s with home := home }
  else none

def setHandOff (s : State T) (j : ℕ) (h : HandOff T) : State T :=
  { s with handOffs := s.handOffs.set j h }

/-- The next step of the thread that is blocked in hand-off `j`. An absent queue is a panic, as in
`takeoverStep`. -/
def workerStep (s : State T) (j : ℕ) (h : HandOff T) : Option (State T) :=
  match h.worker with
  | .waits => none
  | .takesLifo => some ({ s with slot := none }.setHandOff j { h with worker := .spawns s.slot })
  | .spawns lifo =>
      some (s.setHandOff j ⟨.polls, .takesQueue, ⟨true, lifo, false, false, false⟩⟩)
  | .polls =>
      some (s.setHandOff j { h with
        worker := .locks, shared := { h.shared with requested := true } })
  | .locks | .woken =>
      if h.shared.locked then none
      else some (s.setHandOff j { h with
        worker := .loads, shared := { h.shared with locked := true } })
  | .loads =>
      some (s.setHandOff j { h with
        worker := if h.shared.returned then .takesQueue else .startsWait })
  | .startsWait =>
      some (s.setHandOff j { h with
        worker := .waits, shared := { h.shared with locked := false } })
  | .takesQueue =>
      if h.shared.queue then
        some (s.setHandOff j { h with
          worker := .takesLifoBack, shared := { h.shared with queue := false, locked := false } })
      else none
  | .takesLifoBack =>
      some (s.setHandOff j { h with
        worker := .restores h.shared.lifo, shared := { h.shared with lifo := none } })
  | .restores lifo => some (s.moveBack.setHandOff j { h with worker := .setsLifo lifo })
  | .setsLifo lifo => some ({ s with slot := lifo }.setHandOff j { h with worker := .joins })
  | .joins =>
      match h.takeover with
      | .finished => some { s with handOffs := s.handOffs.eraseIdx j }
      | _ => none

/-- The next step of the innermost `takeover_thread` outside its loop. -/
def takeoverStep (s : State T) (h : HandOff T) : Option (State T) :=
  match h.takeover with
  | .absent | .serves | .finished => none
  | .takesQueue =>
      if h.shared.queue && !h.shared.locked then
        some (s.setHandOff 0 { h with
          takeover := .restores, shared := { h.shared with queue := false } })
      else none
  | .restores => some (s.moveBack.setHandOff 0 { h with takeover := .takesLifo })
  | .takesLifo =>
      some ({ s with slot := h.shared.lifo }.setHandOff 0 { h with
        takeover := .serves, shared := { h.shared with lifo := none } })
  | .storesLifo lifo =>
      some (s.setHandOff 0 { h with
        takeover := .replaces, shared := { h.shared with lifo := lifo } })
  | .replaces => some (s.moveOut.setHandOff 0 { h with takeover := .storesQueue })
  | .storesQueue =>
      if h.shared.locked then none
      else some (s.setHandOff 0 { h with
        takeover := .storesReturned, shared := { h.shared with queue := true } })
  | .storesReturned =>
      some (s.setHandOff 0 { h with
        takeover := .notifies, shared := { h.shared with returned := true } })
  | .notifies =>
      some (s.setHandOff 0 { h with
        takeover := .finished, worker := h.worker.notified })

/-- The takeover thread leaves its loop when it is asked to, or at shutdown, and has nothing
left to poll. The operation of the owner is over at that point. -/
def leave (s : State T) (h : HandOff T) (shutdown : Bool) : Option (State T) :=
  match h.takeover, s.home.owner with
  | .serves, .idle =>
      if (h.shared.requested || shutdown) && s.slot.isNone &&
          decide (s.home.queue.tail = s.home.queue.realHead) then
        some ({ s with slot := none }.setHandOff 0 { h with takeover := .storesLifo s.slot })
      else none
  | _, _ => none

/-- Unwinding from the spawn of the takeover thread drops the `Takeover`. The queue in the cell is
the worker's from now on. -/
def abandon (s : State T) (j : ℕ) : State T :=
  match s.spare with
  | none => s
  | some (n, fresh) =>
    { s with
      home := { s.home with queue := { fresh with
        accepted := s.home.queue.accepted ++ fresh.accepted
        popped := s.home.queue.popped ++ fresh.popped
        stolen := s.home.queue.stolen ++ fresh.stolen } }
      spare := none
      handOffs := s.handOffs.eraseIdx j
      headFrom := fun i => (s.headFrom i).exchange n
      tailFrom := fun i => (s.tailFrom i).exchange n
      applied := s.applied.map (Applied.exchange n) }

/-- What the access of thief `i` at `pc` adds to the history. -/
def observe (s : State T) (i : ℕ) : StealPc → State T
  | .loadHead => { s with headFrom := Function.update s.headFrom i s.cell }
  | .loadTail _ _ => { s with tailFrom := Function.update s.tailFrom i s.cell }
  | .claim _ _ _ =>
      { s with applied := s.applied ++ [⟨s.cell, s.headFrom i, s.tailFrom i⟩] }
  | _ => s

/-- The queue in the cell. -/
def target (s : State T) : Queue T :=
  match s.spare with
  | none => s.home.queue
  | some (_, q) => q

def setTarget (s : State T) (q : Queue T) : State T :=
  match s.spare with
  | none => { s with home := { s.home with queue := q } }
  | some (n, _) => { s with spare := some (n, q) }

def setThief (s : State T) (i : ℕ) (th : Thief T) : State T :=
  { s with home := { s.home with thieves := s.home.thieves.set i th } }

/-- One access of thief `i` to the queue in the cell. -/
def thiefStep (cap : Capacity) (s : State T) (i : ℕ) (th : Thief T) : Option (State T) :=
  (stealStep cap (some i) s.target th).map fun (q, th') =>
    ((s.observe i th.pc).setTarget q).setThief i th'

def step (cap : Capacity) (s : State T) : Label T → Option (State T)
  | .push value => s.serve cap (.push value)
  | .pushOverflow value => s.serve cap (.pushOverflow value)
  | .pop => s.serve cap .pop
  | .owner => s.serve cap .owner
  | .placeLifo value =>
      if s.served && s.slot.isNone then
        some { s with slot := some value, placed := s.placed ++ [value] }
      else none
  | .takeLifo =>
      if s.served then s.slot.map fun task => { s with slot := none, ran := s.ran ++ [task] }
      else none
  | .blockInPlace =>
      match s.home.owner with
      | .idle =>
          if s.served then some { s.moveOut with handOffs := .new :: s.handOffs } else none
      | _ => none
  | .worker j => s.handOffs[j]?.bind fun h => s.workerStep j h
  | .spurious j => s.handOffs[j]?.bind fun h =>
      match h.worker with
      | .waits => some (s.setHandOff j { h with worker := .woken })
      | _ => none
  | .spawnFails j => s.handOffs[j]?.bind fun h =>
      match h.worker with
      | .spawns _ => some (s.abandon j)
      | _ => none
  | .takeover => s.handOffs[0]?.bind fun h => s.takeoverStep h
  | .leave shutdown => s.handOffs[0]?.bind fun h => s.leave h shutdown
  | .steal room =>
      (LocalQueue.step cap s.home (.steal room)).map fun home => { s with home := home }
  | .thief i => s.home.thieves[i]?.bind fun th => s.thiefStep cap i th
  | .drain i freed =>
      (LocalQueue.step cap s.home (.drain i freed)).map fun home => { s with home := home }

/-- Every label with the conditions under which it is possible and what it leaves. -/
inductive Steps (cap : Capacity) (s : State T) : Label T → State T → Prop
  | push {value : T} {home : LocalQueue.State T} (hserved : s.served)
      (hhome : LocalQueue.step cap s.home (.push value) = some home) :
      Steps cap s (.push value) { s with home := home }
  | pushOverflow {value : T} {home : LocalQueue.State T} (hserved : s.served)
      (hhome : LocalQueue.step cap s.home (.pushOverflow value) = some home) :
      Steps cap s (.pushOverflow value) { s with home := home }
  | pop {home : LocalQueue.State T} (hserved : s.served)
      (hhome : LocalQueue.step cap s.home .pop = some home) :
      Steps cap s .pop { s with home := home }
  | owner {home : LocalQueue.State T} (hserved : s.served)
      (hhome : LocalQueue.step cap s.home .owner = some home) :
      Steps cap s .owner { s with home := home }
  | placeLifo (hserved : s.served) (hslot : s.slot = none) (value : T) :
      Steps cap s (.placeLifo value)
        { s with slot := some value, placed := s.placed ++ [value] }
  | takeLifo {task : T} (hserved : s.served) (hslot : s.slot = some task) :
      Steps cap s .takeLifo { s with slot := none, ran := s.ran ++ [task] }
  | blockInPlace (howner : s.home.owner = .idle) (hserved : s.served) :
      Steps cap s .blockInPlace { s.moveOut with handOffs := .new :: s.handOffs }
  | worker {j : ℕ} {h : HandOff T} {t : State T} (hj : s.handOffs[j]? = some h)
      (hs : s.workerStep j h = some t) : Steps cap s (.worker j) t
  | spurious {j : ℕ} {h : HandOff T} (hj : s.handOffs[j]? = some h) (hw : h.worker = .waits) :
      Steps cap s (.spurious j) (s.setHandOff j { h with worker := .woken })
  | spawnFails {j : ℕ} {h : HandOff T} {lifo : Option T} (hj : s.handOffs[j]? = some h)
      (hw : h.worker = .spawns lifo) : Steps cap s (.spawnFails j) (s.abandon j)
  | takeover {h : HandOff T} {t : State T} (hj : s.handOffs[0]? = some h)
      (hs : s.takeoverStep h = some t) : Steps cap s .takeover t
  | leave {h : HandOff T} {shutdown : Bool} {t : State T} (hj : s.handOffs[0]? = some h)
      (hs : s.leave h shutdown = some t) : Steps cap s (.leave shutdown) t
  | steal {room : ℕ} {home : LocalQueue.State T}
      (hhome : LocalQueue.step cap s.home (.steal room) = some home) :
      Steps cap s (.steal room) { s with home := home }
  | thief {i : ℕ} {th : Thief T} {t : State T} (hi : s.home.thieves[i]? = some th)
      (hs : s.thiefStep cap i th = some t) : Steps cap s (.thief i) t
  | drain {i freed : ℕ} {home : LocalQueue.State T}
      (hhome : LocalQueue.step cap s.home (.drain i freed) = some home) :
      Steps cap s (.drain i freed) { s with home := home }

theorem serve_eq_some {cap : Capacity} {s t : State T} {op : Action T}
    (h : s.serve cap op = some t) :
    ∃ home, s.served ∧ LocalQueue.step cap s.home op = some home ∧ t = { s with home := home } := by
  obtain ⟨hserved, h⟩ := Option.ite_none_right_eq_some.mp h
  obtain ⟨home, hhome, rfl⟩ := Option.map_eq_some_iff.mp h
  exact ⟨home, hserved, hhome, rfl⟩

theorem steps {cap : Capacity} {s t : State T} {a : Label T} (h : s.step cap a = some t) :
    s.Steps cap a t := by
  cases a with
  | push value =>
    obtain ⟨home, hserved, hhome, rfl⟩ := serve_eq_some h
    exact .push hserved hhome
  | pushOverflow value =>
    obtain ⟨home, hserved, hhome, rfl⟩ := serve_eq_some h
    exact .pushOverflow hserved hhome
  | pop =>
    obtain ⟨home, hserved, hhome, rfl⟩ := serve_eq_some h
    exact .pop hserved hhome
  | owner =>
    obtain ⟨home, hserved, hhome, rfl⟩ := serve_eq_some h
    exact .owner hserved hhome
  | placeLifo value =>
    obtain ⟨hfree, h⟩ := Option.ite_none_right_eq_some.mp h
    obtain ⟨hserved, hslot⟩ := Bool.and_eq_true_iff.mp hfree
    cases h
    exact .placeLifo hserved (Option.isNone_iff_eq_none.mp hslot) value
  | takeLifo =>
    obtain ⟨hserved, h⟩ := Option.ite_none_right_eq_some.mp h
    obtain ⟨task, hslot, rfl⟩ := Option.map_eq_some_iff.mp h
    exact .takeLifo hserved hslot
  | blockInPlace =>
    simp only [step] at h
    split at h
    case h_1 howner =>
      obtain ⟨hserved, h⟩ := Option.ite_none_right_eq_some.mp h
      cases h
      exact .blockInPlace howner hserved
    case h_2 => cases h
  | worker j =>
    obtain ⟨x, hj, h⟩ := Option.bind_eq_some_iff.mp h
    exact .worker hj h
  | spurious j =>
    obtain ⟨x, hj, h⟩ := Option.bind_eq_some_iff.mp h
    split at h
    case h_1 hw =>
      cases h
      exact .spurious hj hw
    case h_2 => cases h
  | spawnFails j =>
    obtain ⟨x, hj, h⟩ := Option.bind_eq_some_iff.mp h
    split at h
    case h_1 hw =>
      cases h
      exact .spawnFails hj hw
    case h_2 => cases h
  | takeover =>
    obtain ⟨x, hj, h⟩ := Option.bind_eq_some_iff.mp h
    exact .takeover hj h
  | leave shutdown =>
    obtain ⟨x, hj, h⟩ := Option.bind_eq_some_iff.mp h
    exact .leave hj h
  | steal room =>
    simp only [step] at h
    obtain ⟨home, hhome, rfl⟩ := Option.map_eq_some_iff.mp h
    exact .steal hhome
  | thief i =>
    obtain ⟨th, hi, h⟩ := Option.bind_eq_some_iff.mp h
    exact .thief hi h
  | drain i freed =>
    simp only [step] at h
    obtain ⟨home, hhome, rfl⟩ := Option.map_eq_some_iff.mp h
    exact .drain hhome

end State

end Eddy.Takeover
