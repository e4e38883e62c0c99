import Eddy.CurrentThreadRuntime

/-!
# The future of a current-thread task stays on the owner

Polls, the finalization after a poll and the deallocation of the last reference are all
routed to the owner. The exception is an abort from another thread that finds the task idle:
it finalizes the task, and destroys the future, where it was called.
-/

namespace Eddy.TaskHarness
open TaskState

variable {S : Scheduler} {sh sh' : Shared S} {pc pc' : Pc S} {env : S.Env} {thread : S.Thread}

/-- An operation that polls or destroys the future, or is about to, other than by dropping
the last reference. -/
def Pc.handlesFuture : Pc S → Bool
  | .toRunning | .lockStage | .polling | .toIdle | .finalizeStage _ _ | .deallocNow => true
  | _ => false

@[simp] theorem After.handlesFuture_pc (after : After S) : after.pc.handlesFuture = false := by
  cases after <;> rfl

/-- `shutdown` goes on to finalize the task. -/
def isIdle (word : UInt64) : Bool :=
  !Snapshot.isComplete word && !Snapshot.isCancelled word && !Snapshot.isRunning word &&
    !Snapshot.isNotified word

theorem Access.handlesFuture (h : Access env thread sh pc sh' pc')
    (hpc : pc'.handlesFuture = true) :
    pc.handlesFuture = true ∨ (pc = .shutdown ∧ isIdle sh.word = true) := by
  induction h with
  | queued | droppedReference | dealloc | forgotten | deferred => simp at hpc
  | shutdownIdle _ hc hx hr hn => exact .inr ⟨rfl, by simp [isIdle, hc, hx, hr, hn]⟩
  | pollStarts | entryCancelled | stageLocked | idleCancelled => exact .inl rfl
  | _ => simp [Pc.handlesFuture] at hpc

theorem Shared.dropFuture_foreignTouches (h : S.foreign env thread = false) :
    (sh.dropFuture env thread).foreignTouches = sh.foreignTouches := by
  unfold Shared.dropFuture
  split <;> simp [Shared.touchFuture, h]

theorem Access.foreignTouches (h : Access env thread sh pc sh' pc') :
    sh'.foreignTouches = sh.foreignTouches ∨ (S.foreign env thread = true ∧
      (pc.handlesFuture = true ∨ S.deallocHere env thread = true)) := by
  cases hforeign : S.foreign env thread with
  | false =>
    left
    induction h with
    | stageLocked => simp [Shared.touchFuture, hforeign]
    | finalizeStage _ htouches | dealloc _ htouches | deallocNow htouches =>
      exact htouches.trans (Shared.dropFuture_foreignTouches hforeign)
    | _ => rfl
  | true =>
    induction h with
    | stageLocked | finalizeStage | deallocNow => exact .inr ⟨rfl, .inl rfl⟩
    | dealloc hhere => exact .inr ⟨rfl, .inr hhere⟩
    | _ => exact .inl rfl

theorem Moves.foreignTouches {t t' : Task S} {a : Action S} (h : Moves env t a t') :
    t'.shared.foreignTouches = t.shared.foreignTouches ∨ ∃ op ∈ t.ops,
      S.foreign env op.thread = true ∧
      (op.pc.handlesFuture = true ∨ S.deallocHere env op.thread = true) := by
  induction h with
  | access hi hacc =>
    exact hacc.foreignTouches.imp_right fun hforeign => ⟨_, List.mem_of_getElem? hi, hforeign⟩
  | _ => exact .inl rfl

end Eddy.TaskHarness

namespace Eddy.CurrentThread
open TaskState TaskHarness Interleaving

/-- What holds of a task; `complete` says whether `shutdown_complete` is set. -/
structure Confined (complete : Bool) (t : Task scheduler) : Prop where
  consistent : Consistent t
  away : complete = false → ∀ op ∈ t.ops, op.thread = .other → op.pc.handlesFuture = false
  untouched : t.shared.foreignTouches = 0

/-- An access of an abort on another thread that goes on to finalize the task. -/
def abortsIdle (env : Env) (t : Task scheduler) (op : Op scheduler) : Bool :=
  match op.pc with
  | .shutdown => op.thread = .other && !env.shutdownComplete && isIdle t.shared.word
  | _ => false

section
variable {t t' : Task scheduler} {env : Env} {a : Action scheduler}

theorem Confined.away_moves (h : Confined false t) (hcomplete : env.shutdownComplete = false)
    (hm : Moves env t a t')
    (hbusy : ∀ i op, a = .advance i → t.ops[i]? = some op → abortsIdle env t op = false) :
    ∀ op ∈ t'.ops, op.thread = .other → op.pc.handlesFuture = false := by
  intro p hp hthread
  rcases hm.mem_ops hp with
    hp | ⟨i, op, pc, ha, hi, hacc, rfl⟩ | ⟨op, hop, result, hpc, rfl⟩ | ⟨hstart, -, hmay, hruns⟩
  · exact h.away rfl p hp hthread
  · have hthread : op.thread = .other := hthread
    by_contra hpc
    rcases hacc.handlesFuture (Bool.eq_true_of_not_eq_false hpc) with hold | ⟨hpc', hidle⟩
    · simp [h.away rfl op (List.mem_of_getElem? hi) hthread] at hold
    · have := hbusy i op ha hi
      simp [abortsIdle, hpc', hthread, hcomplete, hidle] at this
  · have := h.away rfl op hop hthread
    simp [hpc, Pc.handlesFuture] at this
  · have hne : p.pc ≠ .toRunning := by
      intro hpc
      obtain ⟨place, -, hmay⟩ := hmay hpc
      rw [hthread] at hmay
      cases hmay
    have hne' : p.pc ≠ .deallocNow := by
      intro hpc
      have := hruns hpc
      rw [hthread] at this
      cases this
    generalize p.pc = pc at hstart hne hne'
    cases pc <;> first | rfl | exact absurd rfl hne | exact absurd rfl hne' | simp [Pc.isStart] at hstart

theorem Confined.step (h : Confined env.shutdownComplete t)
    (hbusy : ∀ i op, a = .advance i → t.ops[i]? = some op → abortsIdle env t op = false)
    (hs : TaskHarness.step env t a = some t') : Confined env.shutdownComplete t' where
  consistent := h.consistent.step hs
  away := by
    intro hcomplete
    rw [hcomplete] at h
    exact h.away_moves hcomplete (h.consistent.moves hs) hbusy
  untouched := by
    rcases (h.consistent.moves hs).foreignTouches with hsame | ⟨op, hop, hforeign, hhandles⟩
    · exact hsame.trans h.untouched
    · simp only [Bool.and_eq_true, decide_eq_true_eq, Bool.not_eq_true'] at hforeign
      obtain ⟨hthread, hcomplete⟩ := hforeign
      rcases hhandles with hhandles | hhere
      · simp [h.away hcomplete op hop hthread] at hhandles
      · simp [isOwnerThread, hthread, hcomplete] at hhere

end

section
variable {r r' : Runtime} {e : Event}

/-- No abort on another thread finds an idle task before `shutdown_complete` is set. -/
def routed (r : Runtime) : Event → Bool
  | .task j (.advance i) => r.tasks[j]?.all fun t => t.ops[i]?.all fun op => !abortsIdle r.env t op
  | _ => true

def Routed (r : Runtime) (e : Event) : Prop := routed r e = true

instance (r : Runtime) (e : Event) : Decidable (Routed r e) :=
  inferInstanceAs (Decidable (_ = true))

theorem confined_step (h : ∀ t ∈ r.tasks, Confined r.shutdown.complete t) (hrouted : Routed r e)
    (hs : r.step e = some r') : ∀ t ∈ r'.tasks, Confined r'.shutdown.complete t := by
  have hall : ∀ t ∈ r'.tasks, Confined r.shutdown.complete t := by
    refine Runtime.forall_tasks_step hs h (fun t ht => ht.consistent) (fun thread => ?_) ?_
    · exact ⟨consistent_new _ _, by simp [Task.new, Pc.handlesFuture], rfl⟩
    · rintro t a t' ht hstep hact
      refine ht.step (fun i op ha hi => ?_) hstep
      subst ha
      rcases hact with ⟨op', hi', hthread⟩ | ⟨j, rfl, hj⟩
      · rw [hi] at hi'
        cases hi'
        cases hpc : op.pc <;> simp [abortsIdle, hpc, hthread]
      · simpa [Routed, routed, hj, hi] using hrouted
  intro t ht
  have hconf := hall t ht
  refine ⟨hconf.consistent, fun hcomplete => hconf.away ?_, hconf.untouched⟩
  by_contra hne
  simp [Runtime.complete_mono hs (by simpa using hne)] at hcomplete

theorem future_confined_to_owner (h : Reachable Runtime.step Routed Runtime.new r) :
    ∀ t ∈ r.tasks, t.shared.foreignTouches = 0 := by
  have hconf : ∀ t ∈ r.tasks, Confined r.shutdown.complete t :=
    h.invariant (I := fun r => ∀ t ∈ r.tasks, Confined r.shutdown.complete t)
      (by simp [Runtime.new]) fun _ _ _ hold hrouted hs => confined_step hold hrouted hs
  exact fun t ht => (hconf t ht).untouched

/-- Another thread wakes the parked task and aborts it; the owner finds it cancelled. -/
def abortNotified : List Event :=
  spawnAndPark ++ onFirst (.cloneAbort .join :: .wake .other :: advances 2 1 ++
    .abort .other .abort :: advances 3 1 ++ advances 2 3 ++ .take .owner 0 :: advances 4 2)

theorem future_confined_during_abort :
    ∃ r, Reachable Runtime.step Routed Runtime.new r ∧
      (∃ t ∈ r.tasks, t.shared.stage = .finished .cancelled) ∧
      ∀ t ∈ r.tasks, t.shared.foreignTouches = 0 := by
  obtain ⟨r, hreach, hr⟩ := exists_reachable_of_run
    (show (run (guarded Runtime.step Routed) Runtime.new abortNotified).any
      (fun r => r.tasks.any fun t => t.shared.stage = .finished .cancelled) = true by
      decide +kernel)
  simp only [List.any_eq_true, decide_eq_true_eq] at hr
  exact ⟨r, hreach, hr, future_confined_to_owner hreach⟩

def abortParked : List Event :=
  spawnAndPark ++ onFirst (.cloneAbort .join :: .abort .other .abort :: advances 2 2)

/-- The future is destroyed by the thread that called `abort`. -/
theorem abort_destroys_future_elsewhere :
    ∃ r, Reachable Runtime.step anyStep Runtime.new r ∧ r.shutdown = .notCalled ∧
      ∃ t ∈ r.tasks, 0 < t.shared.foreignTouches := by
  obtain ⟨r, hreach, hr⟩ := exists_reachable_of_run
    (show (run (guarded Runtime.step anyStep) Runtime.new abortParked).any
      (fun r => r.shutdown = .notCalled && r.tasks.any fun t => 0 < t.shared.foreignTouches) =
        true by decide +kernel)
  simp only [Bool.and_eq_true, decide_eq_true_eq, List.any_eq_true] at hr
  exact ⟨r, hreach, hr⟩

end

end Eddy.CurrentThread
