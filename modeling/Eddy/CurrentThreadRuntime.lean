import Eddy.TaskRegistry

/-!
# A current-thread runtime

`scheduler/current_thread.rs`. `block_on` and `shutdown` are called by the thread that made
the runtime, the owner; every other thread is `other`. Both may also be called by a future
while it is being polled or destroyed, in the middle of an operation of the owner.
-/

namespace Eddy.CurrentThread
open TaskState TaskHarness Interleaving

inductive Thread where
  | owner
  | other
  deriving DecidableEq

inductive Place where
  | localQueue
  | injection
  deriving DecidableEq

structure Env where
  /-- The owner is inside `block_on`. -/
  blockingOn : Bool
  closed : Bool
  shutdownComplete : Bool
  /-- The owner is inside `block_on` or in the drain loop of `shutdown`. -/
  looping : Bool

inductive Pre where
  | checkOwner
  | inject
  deriving DecidableEq

inductive Post where
  | unparkOwner
  deriving DecidableEq

/-- `enqueue`: the critical section of the owner lock, then that of the injection queue. -/
def enqueue (env : Env) (thread : Thread) : Pre → Routing Place Pre Post
  | .checkOwner =>
      if env.closed && env.shutdownComplete then .drop none
      else if thread = .owner && env.blockingOn && !env.closed then .queue .localQueue none
      else .goOn .inject
  | .inject =>
      if env.closed && env.shutdownComplete then .drop none
      else .queue .injection (some .unparkOwner)

/-- A poisoned `owner` lock, at which this panics, is an event of its own in `Unwinding`. -/
def isOwnerThread (env : Env) (thread : Thread) : Bool :=
  thread = .owner && (env.blockingOn || env.closed)

abbrev scheduler : Scheduler where
  Env := Env
  Thread := Thread
  Place := Place
  Pre := Pre
  Post := Post
  enter := .checkOwner
  pre := fun env thread _ _ => enqueue env thread
  post := fun _ => none
  mayTake := fun env thread _ => thread = .owner && env.looping
  mayMove := fun _ _ _ => false
  mayDiscard := fun _ _ => false
  runsDeferred := fun env thread => thread = .owner && env.looping
  claimOwner := fun _ owner => owner
  refuses := fun env => env.closed
  registersLocked := true
  deallocHere := fun env thread => isOwnerThread env thread || env.shutdownComplete
  forgets := fun env thread =>
    env.closed && env.shutdownComplete && !isOwnerThread env thread
  foreign := fun env thread => thread = .other && !env.shutdownComplete

/-- The next step of `CurrentThread::shutdown`. -/
inductive Shutdown where
  | notCalled
  | takeTasks
  /-- The tasks of `rest` are still to be cancelled. -/
  | cancel (rest : List ℕ)
  | cancelling (j : ℕ) (rest : List ℕ)
  | drain
  | store
  | release
  | returned
  deriving DecidableEq

def Shutdown.called : Shutdown → Bool
  | .notCalled => false
  | _ => true

/-- The registry has been taken. -/
def Shutdown.taken : Shutdown → Bool
  | .notCalled | .takeTasks => false
  | _ => true

/-- The drain loop has found the queues empty. -/
def Shutdown.drained : Shutdown → Bool
  | .store | .release | .returned => true
  | _ => false

/-- `shutdown_complete` is set. -/
def Shutdown.complete : Shutdown → Bool
  | .release | .returned => true
  | _ => false

def Shutdown.pending : Shutdown → List ℕ
  | .cancel rest | .cancelling _ rest => rest
  | _ => []

structure Runtime where
  blockingOn : Bool
  tasks : List (Task scheduler)
  shutdown : Shutdown
  /-- The owner's operations that the call of `shutdown` is nested in. -/
  suspended : ℕ

def Runtime.new : Runtime where
  blockingOn := false
  tasks := []
  shutdown := .notCalled
  suspended := 0

namespace Runtime

def env (r : Runtime) : Env where
  blockingOn := r.blockingOn
  closed := r.shutdown.called
  shutdownComplete := r.shutdown.complete
  looping := r.blockingOn || r.shutdown = .drain

def ownerOps (r : Runtime) : ℕ :=
  total (fun t => t.ops.countP fun op => op.thread = .owner && !op.pc.isFinished) r.tasks

/-- Perform an action on task `j`. -/
def onTask (r : Runtime) (j : ℕ) (a : Action scheduler) : Option Runtime :=
  r.tasks[j]?.bind fun t => (step r.env t a).map fun t => { r with tasks := r.tasks.set j t }

theorem onTask_eq {r r' : Runtime} {j : ℕ} {a : Action scheduler} (h : r.onTask j a = some r') :
    ∃ t t', r.tasks[j]? = some t ∧ TaskHarness.step r.env t a = some t' ∧
      r' = { r with tasks := r.tasks.set j t' } := by
  obtain ⟨t, hj, h⟩ := Option.bind_eq_some_iff.mp h
  obtain ⟨t', hs, rfl⟩ := Option.map_eq_some_iff.mp h
  exact ⟨t, t', hj, hs, rfl⟩

end Runtime

inductive Event where
  /-- A spawn that has passed the `closed` check. -/
  | spawn (thread : Thread)
  | task (j : ℕ) (a : Action scheduler)
  | blockOn
  | blockOnReturns
  | swap
  | takeTasks
  | cancelNext
  | cancelReturns
  | startDrain
  /-- The drain loop finds the queues empty. -/
  | drained
  | storeComplete
  | release (j : ℕ)
  | return

def Runtime.step (r : Runtime) : Event → Option Runtime
  | .spawn thread =>
      if r.shutdown.called then none else some { r with tasks := r.tasks ++ [Task.new thread 0] }
  | .task j a => if a.ofShutdown then none else r.onTask j a
  | .blockOn => if r.blockingOn then none else some { r with blockingOn := true }
  | .blockOnReturns => if r.blockingOn then some { r with blockingOn := false } else none
  | .swap =>
      match r.shutdown with
      | .notCalled => some { r with shutdown := .takeTasks, suspended := r.ownerOps }
      | _ => none
  | .takeTasks =>
      match r.shutdown with
      | .takeTasks =>
          some { r with
            tasks := takeAll r.env r.tasks
            shutdown := .cancel (listedTasks r.tasks) }
      | _ => none
  | .cancelNext =>
      match r.shutdown with
      | .cancel (j :: rest) =>
          r.tasks[j]?.bind fun t => (callShutdown r.env Thread.owner t).map fun t =>
            { r with tasks := r.tasks.set j t, shutdown := .cancelling j rest }
      | _ => none
  | .cancelReturns =>
      match r.shutdown with
      | .cancelling j rest =>
          if r.tasks[j]?.any fun t => !t.borrowed .registry then
            some { r with shutdown := .cancel rest }
          else none
      | _ => none
  | .startDrain =>
      match r.shutdown with
      | .cancel [] => some { r with shutdown := .drain }
      | _ => none
  | .drained =>
      match r.shutdown with
      | .drain =>
          if (r.tasks.all fun t => t.shared.entries.isEmpty) && r.ownerOps = r.suspended then
            some { r with shutdown := .store }
          else none
      | _ => none
  | .storeComplete =>
      match r.shutdown with
      | .store => some { r with shutdown := .release }
      | _ => none
  | .release j =>
      match r.shutdown with
      | .release => r.onTask j (.releaseRegistry .owner)
      | _ => none
  | .return =>
      match r.shutdown with
      | .release =>
          if r.tasks.all fun t => t.shared.registry ≠ .taken then
            some { r with shutdown := .returned }
          else none
      | _ => none

section
variable {r r' : Runtime} {e : Event}

def ofOwner (t : Task scheduler) : Action scheduler → Prop
  | .takeRegistry => True
  | .abort thread _ | .releaseRegistry thread => thread = .owner
  | .advance i => ∃ op, t.ops[i]? = some op ∧ op.thread = .owner
  | _ => False

/-- What every action on a task preserves holds of every task after an event. -/
theorem Runtime.forall_tasks_step {P : Task scheduler → Prop} (hs : r.step e = some r')
    (h : ∀ t ∈ r.tasks, P t) (hcon : ∀ t, P t → Consistent t)
    (hnew : ∀ thread, P (Task.new thread 0))
    (hstep : ∀ t a t', P t → TaskHarness.step r.env t a = some t' →
      ofOwner t a ∨ (∃ j, e = .task j a ∧ r.tasks[j]? = some t) → P t') :
    ∀ t ∈ r'.tasks, P t := by
  have hset : ∀ j t', P t' → ∀ t ∈ r.tasks.set j t', P t := by
    intro j t' ht' t ht
    rcases List.mem_or_eq_of_mem_set ht with ht | rfl
    · exact h t ht
    · exact ht'
  cases e with
  | spawn thread =>
    simp only [Runtime.step] at hs
    split_ifs at hs
    cases hs
    intro t ht
    rcases List.mem_append.mp ht with ht | ht
    · exact h t ht
    · obtain rfl := List.mem_singleton.mp ht
      exact hnew thread
  | task j a =>
    simp only [Runtime.step] at hs
    split_ifs at hs
    obtain ⟨t, t', hj, htask, rfl⟩ := Runtime.onTask_eq hs
    exact hset j t' (hstep t a t' (h t (List.mem_of_getElem? hj)) htask (.inr ⟨j, rfl, hj⟩))
  | takeTasks =>
    simp only [Runtime.step] at hs
    split at hs <;> cases hs
    intro p hp
    obtain ⟨t, ht, rfl⟩ := List.mem_map.mp hp
    cases htake : TaskHarness.step r.env t .takeRegistry with
    | none => exact h t ht
    | some t' => exact hstep t _ t' (h t ht) htake (.inl trivial)
  | cancelNext =>
    simp only [Runtime.step] at hs
    split at hs
    · rename_i j rest hphase
      obtain ⟨t, hj, hs⟩ := Option.bind_eq_some_iff.mp hs
      obtain ⟨t₂, hcall, rfl⟩ := Option.map_eq_some_iff.mp hs
      have ht := h t (List.mem_of_getElem? hj)
      obtain ⟨t₁, habort, hadvance, hop, -⟩ := callShutdown_eq (hcon t ht) hcall
      have ht₁ := hstep t _ t₁ ht habort (.inl rfl)
      exact hset j t₂ (hstep t₁ _ t₂ ht₁ hadvance (.inl ⟨_, hop, rfl⟩))
    · cases hs
  | release j =>
    simp only [Runtime.step] at hs
    split at hs
    · obtain ⟨t, t', hj, htask, rfl⟩ := Runtime.onTask_eq hs
      exact hset j t' (hstep t _ t' (h t (List.mem_of_getElem? hj)) htask (.inl rfl))
    · cases hs
  | blockOn | blockOnReturns =>
    simp only [Runtime.step] at hs
    split_ifs at hs
    cases hs
    exact h
  | swap | startDrain | storeComplete =>
    simp only [Runtime.step] at hs
    split at hs <;> cases hs
    exact h
  | cancelReturns | drained | «return» =>
    simp only [Runtime.step] at hs
    split at hs
    · split_ifs at hs
      cases hs
      exact h
    · cases hs

/-- `shutdown_complete` is never cleared. -/
theorem Runtime.complete_mono (hs : r.step e = some r') (h : r.shutdown.complete = true) :
    r'.shutdown.complete = true := by
  cases e with
  | spawn | blockOn | blockOnReturns =>
    simp only [Runtime.step] at hs
    split_ifs at hs
    cases hs
    exact h
  | task j a =>
    simp only [Runtime.step] at hs
    split_ifs at hs
    obtain ⟨t, t', -, -, rfl⟩ := Runtime.onTask_eq hs
    exact h
  | release j =>
    simp only [Runtime.step] at hs
    split at hs
    · obtain ⟨t, t', -, -, rfl⟩ := Runtime.onTask_eq hs
      exact h
    · cases hs
  | swap | takeTasks | startDrain | storeComplete =>
    simp only [Runtime.step] at hs
    split at hs <;> cases hs
    rename_i hphase
    first | rfl | simp [hphase, Shutdown.complete] at h
  | cancelNext =>
    simp only [Runtime.step] at hs
    split at hs
    · rename_i hphase
      simp [hphase, Shutdown.complete] at h
    · cases hs
  | cancelReturns | drained | «return» =>
    simp only [Runtime.step] at hs
    split at hs
    · rename_i hphase
      split_ifs at hs
      cases hs
      first | rfl | simp [hphase, Shutdown.complete] at h
    · cases hs

end

def onFirst (as : List (Action scheduler)) : List Event := as.map fun a => .task 0 a

/-- The next `n` accesses of operation `i`. -/
def advances (i n : ℕ) : List (Action scheduler) := List.replicate n (.advance i)

/-- A task is spawned inside `block_on` and polled once; it keeps its waker. -/
def spawnAndPark : List Event :=
  .blockOn :: .spawn .owner :: onFirst (advances 0 2 ++ .take .owner 0 :: advances 1 2 ++
    .cloneWaker .poll :: .pollReturns 1 .pending :: advances 1 2)

end Eddy.CurrentThread
