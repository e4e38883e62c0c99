import Eddy.Interleaving
import Eddy.TaskState

/-!
# A task and the operations on it, one atomic access at a time

`task/harness.rs`, `task/raw.rs`, `task/join.rs`, `task/waker.rs`. Any number of operations
are in progress at once, each on its own thread; one that is nested in another is an operation
of its own. An access is an atomic update of the state word, a critical section of the stage
lock, of the trailer's waker lock or of the scheduler's registry, or an access to a scheduler
queue. While the future is polled the stage lock is held.

The task is generic in its scheduler, as the source is in `S: Schedule`: the environment `Env` of
a step is what it reads of the scheduler's shared state. The history fields count what has
happened; no step reads them. Instrumentation is left out.
-/

namespace Eddy.TaskHarness
open TaskState Interleaving

/-- What the next access inside `schedule` does with the queue entry in hand. -/
inductive Routing (Place Pre Post : Type) where
  | goOn (pre : Pre)
  | queue (place : Place) (rest : Option Post)
  | drop (rest : Option Post)

/-- The side of `Schedule` that a task's operations see. -/
structure Scheduler where
  Env : Type
  Thread : Type
  /-- Where a queue entry can be. -/
  Place : Type
  /-- The next access of `schedule` as long as it holds the entry. -/
  Pre : Type
  /-- What is left of `schedule` once the entry is queued. -/
  Post : Type
  enter : Pre
  pre : Env → Thread → (target owner : ℕ) → Pre → Routing Place Pre Post
  post : Post → Option Post
  /-- Who may run an entry of a place. -/
  mayTake : Env → Thread → Place → Bool
  /-- Whether the scheduler moves entries between two places. -/
  mayMove : Env → Place → Place → Bool
  /-- Whether the scheduler may drop an entry of a place. -/
  mayDiscard : Env → Place → Bool
  /-- Who may run a deferred deallocation. -/
  runsDeferred : Env → Thread → Bool
  /-- The owner number that `run_task` records before it polls. -/
  claimOwner : Thread → ℕ → ℕ
  /-- `register_task` panics. -/
  refuses : Env → Bool
  /-- `register_task` holds the registry's lock from its check to its push. -/
  registersLocked : Bool
  /-- `is_owner_thread() || can_dealloc_remotely()`, as long as no lock is poisoned. -/
  deallocHere : Env → Thread → Bool
  /-- `defer_dealloc` leaks the entry. -/
  forgets : Env → Thread → Bool
  /-- A thread other than the one the task's future is confined to, while it is confined. -/
  foreign : Env → Thread → Bool

inductive Outcome where
  | ok
  | panicked
  | cancelled
  deriving DecidableEq

inductive Stage where
  | running
  | finished (outcome : Outcome)
  | consumed
  deriving DecidableEq

/-- The task's entry in the scheduler's registry. `taken` is the entry that a scheduler
shutdown has moved to its own list. -/
inductive Registry where
  | absent
  | listed
  | taken
  | removed
  deriving DecidableEq

/-- The cell, the references outside of running operations, and the history. -/
structure Shared (S : Scheduler) where
  word : UInt64
  stage : Stage
  stageLocked : Bool
  trailer : Option ℕ
  target : ℕ
  ownerId : ℕ
  freed : Bool
  entries : List S.Place
  deferred : ℕ
  leaked : ℕ
  registry : Registry
  joinHandle : Bool
  wakers : ℕ
  aborts : ℕ
  polls : ℕ
  finalized : ℕ
  sawCancelled : Bool
  dropped : ℕ
  foreignTouches : ℕ
  outputsRead : ℕ
  outputsDiscarded : ℕ
  joinWoken : List ℕ

/-- The call that `schedule` was made from. -/
inductive Caller where
  | spawn
  | wakeByVal
  | wakeByRef
  | poll
  deriving DecidableEq

/-- The path on which `finalize` was reached. -/
inductive Via where
  /-- The poll was ready or panicked. -/
  | ready
  /-- The poll was pending and found the task cancelled. -/
  | idle
  /-- A queue entry found the task cancelled. -/
  | entry
  /-- `shutdown` found the task idle. -/
  | abort
  deriving DecidableEq

/-- Whether `finalize` was called by `complete`, which goes on to drop a reference. -/
def Via.spends : Via → Bool
  | .abort => false
  | _ => true

/-- What an operation goes on with after it has dropped a reference. -/
inductive After (S : Scheduler) where
  | return
  /-- It drops a second reference. -/
  | again
  /-- It is still inside the `schedule` that dropped the entry. -/
  | scheduled (caller : Caller) (post : S.Post)

/-- The next access of an operation. -/
inductive Pc (S : Scheduler) where
  | register
  | registerPush
  | schedule (caller : Caller) (pre : S.Pre)
  | scheduled (caller : Caller) (post : S.Post)
  | toRunning
  | lockStage
  | polling
  | toIdle
  | finalizeStage (via : Via) (outcome : Outcome)
  | finalizeComplete (via : Via)
  | finalizeWake (via : Via) (joinInterest : Bool)
  | finalizeDiscard (via : Via)
  | finalizeRemove (via : Via)
  | dropReference (after : After S)
  | dealloc (after : After S)
  | deferInc (after : After S)
  | deferPush (after : After S)
  | deallocNow
  | wakeByVal
  | wakeByRef
  | shutdown
  | readOutput (waker : ℕ)
  | joinStore (waker : ℕ)
  | joinFlag
  | joinRewake
  | dropJoinInterest
  | dropJoinFlag (complete : Bool)
  | dropJoinWaker (complete : Bool)
  | dropJoinDiscard
  | finished
  /-- `unreachable!` in `poll`. -/
  | unreachable

/-- The handle that an operation works through without owning it. -/
inductive Lender where
  | waker
  | abort
  | join
  | registry
  | poll
  deriving DecidableEq

structure Op (S : Scheduler) where
  thread : S.Thread
  lender : Option Lender
  pc : Pc S

structure Task (S : Scheduler) where
  shared : Shared S
  ops : List (Op S)

variable {S : Scheduler}

/-- `spawn_with_name`: the task with its `JoinHandle`, and the spawning call that holds
the first queue entry and is about to register the task. -/
def Task.new (thread : S.Thread) (target : ℕ) : Task S where
  shared :=
    { word := State.new, stage := .running, stageLocked := false, trailer := none
      target := target, ownerId := target, freed := false, entries := [], deferred := 0
      leaked := 0, registry := .absent, joinHandle := true, wakers := 0, aborts := 0, polls := 0
      finalized := 0, sawCancelled := false, dropped := 0, foreignTouches := 0
      outputsRead := 0, outputsDiscarded := 0, joinWoken := [] }
  ops := [⟨thread, none, .register⟩]

namespace Shared

def touchFuture (sh : Shared S) (env : S.Env) (thread : S.Thread) : Shared S :=
  { sh with foreignTouches := sh.foreignTouches + (S.foreign env thread).toNat }

def dropFuture (sh : Shared S) (env : S.Env) (thread : S.Thread) : Shared S :=
  match sh.stage with
  | .running => sh.touchFuture env thread
  | _ => sh

/-- Take the `JoinHandle`'s waker out of the trailer and wake it. -/
def wakeJoinHandle (sh : Shared S) : Shared S :=
  { sh with trailer := none, joinWoken := sh.joinWoken ++ sh.trailer.toList }

def discardFinishedOutput (sh : Shared S) : Shared S :=
  match sh.stage with
  | .finished _ => { sh with stage := .consumed, outputsDiscarded := sh.outputsDiscarded + 1 }
  | _ => sh

end Shared

def After.pc : After S → Pc S
  | .return => .finished
  | .again => .dropReference .return
  | .scheduled caller post => .scheduled caller post

/-- The call returns, or goes on with the rest of `schedule`. -/
def After.ofRest (caller : Caller) : Option S.Post → After S
  | none => .return
  | some post => .scheduled caller post

/-- One atomic access of an operation. -/
def opStep (env : S.Env) (thread : S.Thread) (sh : Shared S) : Pc S → Option (Shared S × Pc S)
  | .register =>
      if S.refuses env then some ({ sh with dropped := sh.dropped + 1 }, .dropReference .return)
      else (State.refInc sh.word).map fun word =>
        if S.registersLocked then
          ({ sh with word := word, registry := .listed }, .schedule .spawn S.enter)
        else ({ sh with word := word }, .registerPush)
  | .registerPush => some ({ sh with registry := .listed }, .schedule .spawn S.enter)
  | .schedule caller pre =>
      match S.pre env thread sh.target sh.ownerId pre with
      | .goOn pre => some (sh, .schedule caller pre)
      | .queue place rest =>
          some ({ sh with entries := sh.entries ++ [place] }, (After.ofRest caller rest).pc)
      | .drop rest =>
          some ({ sh with dropped := sh.dropped + 1 }, .dropReference (After.ofRest caller rest))
  | .scheduled caller post =>
      match S.post post with
      | none => some (sh, .finished)
      | some post => some (sh, .scheduled caller post)
  | .toRunning =>
      match State.transitionToRunning sh.word with
      | (.success, word) => some ({ sh with word := word, polls := sh.polls + 1 }, .lockStage)
      | (.failed snap, _) =>
          if Snapshot.isCancelled snap && !Snapshot.isComplete snap then
            some ({ sh with sawCancelled := true }, .finalizeStage .entry .cancelled)
          else some (sh, .dropReference .return)
  | .lockStage =>
      if sh.stageLocked then none
      else match sh.stage with
        | .running => some ({ sh with stageLocked := true }.touchFuture env thread, .polling)
        | _ => some (sh, .unreachable)
  | .polling => none
  | .toIdle =>
      match State.transitionToIdle sh.word with
      | (.ok, word) => some ({ sh with word := word }, .dropReference .return)
      | (.okNotified, word) => some ({ sh with word := word }, .schedule .poll S.enter)
      | (.cancelled, word) =>
          some ({ sh with word := word, sawCancelled := true }, .finalizeStage .idle .cancelled)
  | .finalizeStage via outcome =>
      if sh.stageLocked then none
      else some ({ sh.dropFuture env thread with
          stage := .finished outcome, finalized := sh.finalized + 1 }, .finalizeComplete via)
  | .finalizeComplete via =>
      let word := State.transitionToComplete sh.word
      some ({ sh with word := word }, .finalizeWake via (Snapshot.hasJoinInterest word))
  | .finalizeWake via joinInterest =>
      some (sh.wakeJoinHandle,
        if joinInterest then .finalizeRemove via else .finalizeDiscard via)
  | .finalizeDiscard via =>
      if sh.stageLocked then none else some (sh.discardFinishedOutput, .finalizeRemove via)
  | .finalizeRemove via =>
      -- `task_complete`
      match sh.registry with
      | .listed =>
          some ({ sh with registry := .removed },
            .dropReference (if via.spends then .again else .return))
      | _ => some (sh, if via.spends then .dropReference .return else .finished)
  | .dropReference after =>
      match State.refDec sh.word with
      | (true, word) => some ({ sh with word := word }, .dealloc after)
      | (false, word) => some ({ sh with word := word }, after.pc)
  | .dealloc after =>
      if S.deallocHere env thread then
        some ({ sh.dropFuture env thread with freed := true }, after.pc)
      else some (sh, .deferInc after)
  | .deferInc after =>
      (State.refInc sh.word).map fun word => ({ sh with word := word }, .deferPush after)
  | .deferPush after =>
      if S.forgets env thread then some ({ sh with leaked := sh.leaked + 1 }, after.pc)
      else some ({ sh with deferred := sh.deferred + 1 }, after.pc)
  | .deallocNow => some ({ sh.dropFuture env thread with freed := true }, .finished)
  | .wakeByVal =>
      match State.transitionToNotifiedByVal sh.word with
      | (.submit, word) => some ({ sh with word := word }, .schedule .wakeByVal S.enter)
      | (.doNothing, word) => some ({ sh with word := word }, .dropReference .return)
  | .wakeByRef =>
      (State.transitionToNotifiedByRef sh.word).map fun
        | (.submit, word) => ({ sh with word := word }, .schedule .wakeByRef S.enter)
        | (.doNothing, word) => ({ sh with word := word }, .finished)
  | .shutdown =>
      let before := sh.word
      let sh := { sh with word := Snapshot.setCancelled before }
      if Snapshot.isComplete before || Snapshot.isCancelled before then some (sh, .finished)
      else if Snapshot.isRunning before then some (sh, .finished)
      else if Snapshot.isNotified before then some (sh, .finished)
      else some (sh, .finalizeStage .abort .cancelled)
  | .readOutput waker =>
      if sh.stageLocked then none
      else match sh.stage with
        | .finished _ =>
            some ({ sh with stage := .consumed, outputsRead := sh.outputsRead + 1 },
              .dropReference .return)
        | _ => some (sh, .joinStore waker)
  | .joinStore waker => some ({ sh with trailer := some waker }, .joinFlag)
  | .joinFlag =>
      match State.setJoinWaker sh.word with
      | (true, word) => some ({ sh with word := word, joinHandle := true }, .finished)
      | (false, _) => some (sh, .joinRewake)
  | .joinRewake => some ({ sh.wakeJoinHandle with joinHandle := true }, .finished)
  | .dropJoinInterest =>
      some ({ sh with word := Snapshot.unsetJoinInterest sh.word },
        .dropJoinFlag (Snapshot.isComplete sh.word))
  | .dropJoinFlag complete =>
      some ({ sh with word := Snapshot.unsetJoinWaker sh.word }, .dropJoinWaker complete)
  | .dropJoinWaker complete =>
      some ({ sh with trailer := none },
        if complete then .dropJoinDiscard else .dropReference .return)
  | .dropJoinDiscard =>
      if sh.stageLocked then none else some (sh.discardFinishedOutput, .dropReference .return)
  | .finished => none
  | .unreachable => none

inductive PollResult where
  | pending
  | ready
  | panicked
  deriving DecidableEq

def PollResult.next : PollResult → Pc S
  | .pending => .toIdle
  | .ready => .finalizeStage .ready .ok
  | .panicked => .finalizeStage .ready .panicked

def Pc.isFinished : Pc S → Bool
  | .finished => true
  | _ => false

def Pc.isPolling : Pc S → Bool
  | .polling => true
  | _ => false

/-- The operation at its next access; a call that returns gives back what it borrowed. -/
def Op.next (op : Op S) (pc : Pc S) : Op S :=
  { op with pc := pc, lender := if pc.isFinished then none else op.lender }

namespace Task

/-- Whether the handle exists, so that an operation can work through it. -/
def lends (t : Task S) : Lender → Bool
  | .waker => 0 < t.shared.wakers
  | .abort => 0 < t.shared.aborts
  | .join => t.shared.joinHandle
  | .registry => t.shared.registry = .taken
  | .poll => t.ops.any fun op => op.pc.isPolling

def borrowed (t : Task S) (lender : Lender) : Bool :=
  t.ops.any fun op => op.lender = some lender

/-- A handle may be given up when no operation works through it: there is a second one,
or nothing is borrowed at all. -/
def mayGiveUp (t : Task S) (lender : Lender) (handles : ℕ) : Bool :=
  1 < handles || (0 < handles && !t.borrowed lender)

/-- A new operation, with what it takes over from the shared part removed from there. -/
def begin (t : Task S) (shared : Shared S) (thread : S.Thread) (pc : Pc S) : Task S :=
  { shared := shared, ops := t.ops ++ [⟨thread, none, pc⟩] }

/-- A new operation that works through a handle. -/
def borrow (t : Task S) (thread : S.Thread) (lender : Lender) (pc : Pc S) : Task S :=
  { t with ops := t.ops ++ [⟨thread, some lender, pc⟩] }

end Task

inductive Action (S : Scheduler) where
  /-- The next access of operation `i`. -/
  | advance (i : ℕ)
  /-- The future's poll in operation `i` returns. -/
  | pollReturns (i : ℕ) (result : PollResult)
  /-- `run_task` of entry `k`. -/
  | take (thread : S.Thread) (k : ℕ)
  /-- The scheduler moves entry `k` to another of its queues. -/
  | move (k : ℕ) (place : S.Place)
  /-- The scheduler drops entry `k`. -/
  | discard (thread : S.Thread) (k : ℕ)
  /-- A deferred deallocation is run. -/
  | runDeferred (thread : S.Thread)
  | wake (thread : S.Thread)
  | wakeByRef (thread : S.Thread) (lender : Lender)
  | cloneWaker (lender : Lender)
  | dropWaker (thread : S.Thread)
  | abort (thread : S.Thread) (lender : Lender)
  | cloneAbort (lender : Lender)
  | dropAbort (thread : S.Thread)
  | pollJoin (thread : S.Thread) (waker : ℕ)
  | dropJoin (thread : S.Thread)
  /-- A scheduler shutdown moves the registry to its own list, and later releases it. -/
  | takeRegistry
  | releaseRegistry (thread : S.Thread)

def Action.startThread : Action S → Option S.Thread
  | .take thread _ | .discard thread _ | .runDeferred thread | .wake thread
  | .wakeByRef thread _ | .dropWaker thread | .abort thread _ | .dropAbort thread
  | .pollJoin thread _ | .dropJoin thread | .releaseRegistry thread => some thread
  | _ => none

def Action.ofShutdown : Action S → Bool
  | .takeRegistry | .releaseRegistry _ | .abort _ .registry => true
  | _ => false

/-- The handles through which a waker can be cloned or woken by reference. -/
def Lender.lendsWaker : Lender → Bool
  | .waker | .poll => true
  | _ => false

/-- The handles through which a task can be aborted. -/
def Lender.lendsAbort : Lender → Bool
  | .abort | .join | .registry => true
  | _ => false

/-- The handles from which an `AbortHandle` can be made. -/
def Lender.lendsAbortHandle : Lender → Bool
  | .abort | .join => true
  | _ => false

def step (env : S.Env) (t : Task S) : Action S → Option (Task S)
  | .advance i =>
      t.ops[i]?.bind fun op => (opStep env op.thread t.shared op.pc).map fun (sh, pc) =>
        { shared := sh, ops := t.ops.set i (op.next pc) }
  | .pollReturns i result =>
      t.ops[i]?.bind fun op =>
        if op.pc.isPolling && !t.borrowed .poll then
          some { shared := { t.shared with stageLocked := false },
                 ops := t.ops.set i (op.next result.next) }
        else none
  | .take thread k =>
      t.shared.entries[k]?.bind fun place =>
        if S.mayTake env thread place then
          let sh := { t.shared with
            entries := t.shared.entries.eraseIdx k
            ownerId := S.claimOwner thread t.shared.ownerId }
          some (t.begin sh thread .toRunning)
        else none
  | .move k place =>
      t.shared.entries[k]?.bind fun source =>
        if S.mayMove env source place then
          some { t with shared := { t.shared with entries := t.shared.entries.set k place } }
        else none
  | .discard thread k =>
      t.shared.entries[k]?.bind fun place =>
        if S.mayDiscard env place then
          let sh := { t.shared with
            entries := t.shared.entries.eraseIdx k
            dropped := t.shared.dropped + 1 }
          some (t.begin sh thread (.dropReference .return))
        else none
  | .runDeferred thread =>
      if 0 < t.shared.deferred && S.runsDeferred env thread then
        some (t.begin { t.shared with deferred := t.shared.deferred - 1 } thread .deallocNow)
      else none
  | .wake thread =>
      if t.mayGiveUp .waker t.shared.wakers then
        some (t.begin { t.shared with wakers := t.shared.wakers - 1 } thread .wakeByVal)
      else none
  | .wakeByRef thread lender =>
      if lender.lendsWaker && t.lends lender then some (t.borrow thread lender .wakeByRef)
      else none
  | .cloneWaker lender =>
      if lender.lendsWaker && t.lends lender then
        (State.refInc t.shared.word).map fun word =>
          { t with shared := { t.shared with word := word, wakers := t.shared.wakers + 1 } }
      else none
  | .dropWaker thread =>
      if t.mayGiveUp .waker t.shared.wakers then
        some (t.begin { t.shared with wakers := t.shared.wakers - 1 } thread (.dropReference .return))
      else none
  | .abort thread lender =>
      if lender.lendsAbort && t.lends lender then some (t.borrow thread lender .shutdown)
      else none
  | .cloneAbort lender =>
      if lender.lendsAbortHandle && t.lends lender then
        (State.refInc t.shared.word).map fun word =>
          { t with shared := { t.shared with word := word, aborts := t.shared.aborts + 1 } }
      else none
  | .dropAbort thread =>
      if t.mayGiveUp .abort t.shared.aborts then
        some (t.begin { t.shared with aborts := t.shared.aborts - 1 } thread (.dropReference .return))
      else none
  | .pollJoin thread waker =>
      if t.mayGiveUp .join t.shared.joinHandle.toNat then
        some (t.begin { t.shared with joinHandle := false } thread (.readOutput waker))
      else none
  | .dropJoin thread =>
      if t.mayGiveUp .join t.shared.joinHandle.toNat then
        some (t.begin { t.shared with joinHandle := false } thread .dropJoinInterest)
      else none
  | .takeRegistry =>
      if t.shared.registry = .listed then
        some { t with shared := { t.shared with registry := .taken } }
      else none
  | .releaseRegistry thread =>
      if t.shared.registry = .taken && !t.borrowed .registry then
        some (t.begin { t.shared with registry := .removed } thread (.dropReference .return))
      else none

/-- One action, under whatever the scheduler's state is at that moment. -/
def stepIn (t : Task S) (a : S.Env × Action S) : Option (Task S) := step a.1 t a.2

end Eddy.TaskHarness
