import Eddy.CurrentThreadRuntime

/-!
# When a current-thread shutdown completes every task

The shutdown leaves a notified task to its queue entry. The drain loop sees the entry if it
is queued by the time the loop finds the queues empty. A wake on another thread that has set
NOTIFIED and not yet enqueued is too late, and so is a task in the middle of whose poll the
shutdown was called.
-/

namespace Eddy.CurrentThread
open TaskState TaskHarness Interleaving

/-- What holds of a task; `drained` says whether the drain loop is over. -/
structure TaskOk (drained : Bool) (t : Task scheduler) : Prop where
  consistent : Consistent t
  registered : Registered t
  /-- Only the owner polls. -/
  polls : ∀ op ∈ t.ops, op.thread = .other → op.pc.load.running + op.pc.load.starting = 0
  kept : drained = false → t.shared.registry ≠ .absent → t.shared.dropped = 0
  settled : drained = true → t.shared.registry ≠ .absent → Settled t

section
variable {drained : Bool} {t t' : Task scheduler} {env : Env} {a : Action scheduler}

/-- `enqueue` drops an entry only once the shutdown is complete. -/
theorem shutdownComplete_of_drop {thread : Thread} {pre : Pre} {rest : Option Post}
    (h : enqueue env thread pre = .drop rest) : env.shutdownComplete = true := by
  cases pre with
  | checkOwner | inject =>
    simp only [enqueue] at h
    split_ifs at h with hclosed
    exact (Bool.and_eq_true_iff.mp hclosed).2

/-- The spawn that is about to register a task holds its only entry. -/
theorem dropped_of_registers (hcon : Consistent t) {i : ℕ} {op : Op scheduler}
    (hi : t.ops[i]? = some op) (hpc : op.pc = .register) :
    t.shared.dropped = 0 ∧ t.shared.registry = .absent := by
  have hclaimed := hcon.claimed
  have hcounted := hcon.counted
  rw [load_eraseIdx hi, hpc] at hclaimed hcounted
  obtain ⟨-, -, -, -, hnone⟩ := Claims.of_entry (claimed_add.mp hclaimed)
  exact ⟨by omega, (hcounted.vacant rfl).1⟩

/-- A task enters the registry only while the runtime is open, and with its entry. -/
theorem TaskOk.registers (h : TaskOk drained t) (hm : Moves env t a t')
    (habsent : t.shared.registry = .absent) (hlisted : t'.shared.registry ≠ .absent) :
    env.closed = false ∧ t'.shared.dropped = 0 := by
  induction hm with
  | access hi hacc =>
    rcases hacc.registry with hsame | ⟨hregisters, hrefuses, -⟩ | ⟨-, hlisted', -⟩
    · exact absurd (hsame.trans habsent) hlisted
    · have hpc := h.registered.not_registers rfl (List.mem_of_getElem? hi) hregisters
      have hzero := (dropped_of_registers h.consistent hi hpc).1
      refine ⟨hrefuses hpc, ?_⟩
      rcases hacc.dropped_cases with hsame | ⟨-, hrefused, -⟩ | ⟨_, _, _, hpc', -⟩
      · exact hsame.trans hzero
      · rw [hrefuses hpc] at hrefused
        cases hrefused
      · simp [hpc] at hpc'
    · simp [habsent] at hlisted'
  | takeRegistry hreg | releaseRegistry hreg => simp [habsent] at hreg
  | _ => exact absurd habsent hlisted

theorem TaskOk.kept_moves (h : TaskOk false t) (hm : Moves env t a t')
    (hcomplete : env.shutdownComplete = false) (hregistered : t.shared.registry ≠ .absent) :
    t'.shared.dropped = 0 := by
  have hkept := h.kept rfl hregistered
  induction hm with
  | access hi hacc =>
    rcases hacc.dropped_cases with hsame | ⟨hpc, -, -⟩ | ⟨caller, pre, rest, -, hdrop⟩
    · exact hsame.trans hkept
    · exact absurd (dropped_of_registers h.consistent hi hpc).2 hregistered
    · simp [shutdownComplete_of_drop hdrop] at hcomplete
  | discard _ hmay => cases hmay
  | _ => exact hkept

theorem TaskOk.step (h : TaskOk drained t)
    (hcomplete : env.shutdownComplete = true → drained = true)
    (hclosed : drained = true → env.closed = true)
    (hrelease : ∀ thread, a = .releaseRegistry thread → (view t.shared.word).cancelled = true)
    (hs : TaskHarness.step env t a = some t') : TaskOk drained t' := by
  have hm := h.consistent.moves hs
  have haway : ∀ thread place, scheduler.mayTake env thread place = true → ¬ thread = .other := by
    rintro thread place hmay rfl
    cases hmay
  refine ⟨h.consistent.step hs, h.registered.moves hm hrelease, hm.poll_eq_zero h.polls haway,
    ?_, ?_⟩
  · rintro rfl hregistered
    by_cases habsent : t.shared.registry = .absent
    · exact (h.registers hm habsent hregistered).2
    · exact h.kept_moves hm (by simpa using hcomplete) habsent
  · rintro rfl hregistered
    have hpresent : t.shared.registry ≠ .absent := by
      intro habsent
      simp [(h.registers hm habsent hregistered).1] at hclosed
    exact (h.settled rfl hpresent).moves hm

end

structure Ok (r : Runtime) : Prop where
  tasks : ∀ t ∈ r.tasks, TaskOk r.shutdown.drained t
  cancels : Cancels r.tasks r.shutdown.taken r.shutdown.pending
  suspended : r.suspended = 0
  done : r.shutdown = .returned → ∀ t ∈ r.tasks, t.shared.registry ≠ .absent →
    (view t.shared.word).complete = true

theorem ok_new : Ok Runtime.new where
  tasks := by simp [Runtime.new]
  cancels := cancels_nil
  suspended := rfl
  done := by simp [Runtime.new]

/-- The shutdown is not called in the middle of one of the owner's operations; when the drain
loop finds the queues empty, no call is still bringing an entry of a registered task to a
queue; and when the shutdown returns, no call is still finalizing a registered task. -/
def orderly (r : Runtime) : Event → Bool
  | .swap => r.ownerOps = 0
  | .drained => r.tasks.all fun t => t.shared.registry = .absent ||
      t.ops.all fun op => op.pc.load.handing = 0
  | .return => r.tasks.all fun t => t.shared.registry = .absent ||
      t.ops.all fun op => op.pc.load.finalizing = 0
  | _ => true

def Orderly (r : Runtime) (e : Event) : Prop := orderly r e = true

instance (r : Runtime) (e : Event) : Decidable (Orderly r e) :=
  inferInstanceAs (Decidable (_ = true))

section
variable {r r' : Runtime} {j : ℕ} {t t' : Task scheduler} {a : Action scheduler}

theorem Shutdown.drained_of_complete {phase : Shutdown} (h : phase.complete = true) :
    phase.drained = true := by
  cases phase <;> first | rfl | cases h

theorem Shutdown.called_of_drained {phase : Shutdown} (h : phase.drained = true) :
    phase.called = true := by
  cases phase <;> first | rfl | cases h

theorem TaskOk.step_in (h : TaskOk r.shutdown.drained t)
    (hrelease : ∀ thread, a = .releaseRegistry thread → (view t.shared.word).cancelled = true)
    (hs : TaskHarness.step r.env t a = some t') : TaskOk r.shutdown.drained t' :=
  h.step Shutdown.drained_of_complete Shutdown.called_of_drained hrelease hs

theorem Ok.tasks_set (h : Ok r) (hnew : TaskOk r.shutdown.drained t') :
    ∀ t ∈ r.tasks.set j t', TaskOk r.shutdown.drained t := by
  intro p hp
  rcases List.mem_or_eq_of_mem_set hp with hp | rfl
  · exact h.tasks p hp
  · exact hnew

theorem Ok.task (h : Ok r) (ha : a.ofShutdown = false) (honTask : r.onTask j a = some r') :
    Ok r' := by
  obtain ⟨t, t', hj, hs, rfl⟩ := Runtime.onTask_eq honTask
  have hmem := List.mem_of_getElem? hj
  have hold := h.tasks t hmem
  have hm := hold.consistent.moves hs
  have hnew : TaskOk r.shutdown.drained t' := by
    refine hold.step_in ?_ hs
    rintro thread rfl
    cases ha
  refine ⟨h.tasks_set hnew, h.cancels.moves hj hm ha ?_, h.suspended, fun hphase p hp hreg => ?_⟩
  · intro i op _ hi hregisters hrefuses
    have hpc := hold.registered.not_registers rfl (List.mem_of_getElem? hi) hregisters
    have hopen : r.shutdown.called = false := hrefuses hpc
    cases hphase : r.shutdown <;> simp_all [Shutdown.called, Shutdown.taken]
  · rcases List.mem_or_eq_of_mem_set hp with hp | rfl
    · exact h.done hphase p hp hreg
    · have hphase : r.shutdown = .returned := hphase
      refine hm.grows.complete (h.done hphase t hmem fun habsent => ?_)
      have hopen : r.shutdown.called = false := (hold.registers hm habsent hreg).1
      simp [hphase, Shutdown.called] at hopen

theorem Ok.spawn (h : Ok r) {thread : Thread} (hs : r.step (.spawn thread) = some r') : Ok r' := by
  simp only [Runtime.step] at hs
  split_ifs at hs with hcalled
  cases hs
  have hphase : r.shutdown = .notCalled := by
    cases hshut : r.shutdown <;> simp_all [Shutdown.called]
  have hnew : TaskOk r.shutdown.drained (Task.new thread 0) := by
    refine ⟨consistent_new _ _, registered_new _ _, ?_, ?_, ?_⟩
    · simp [Task.new, Pc.load]
    · simp [Task.new]
    · simp [Task.new]
  have hcancels := h.cancels
  rw [hphase] at hcancels
  refine ⟨fun t ht => ?_, ?_, h.suspended, by simp [hphase]⟩
  · rcases List.mem_append.mp ht with ht | ht
    · exact h.tasks t ht
    · obtain rfl := List.mem_singleton.mp ht
      exact hnew
  · simp only [hphase]
    exact hcancels.spawn thread 0

theorem Ok.takeTasks (h : Ok r) (hs : r.step .takeTasks = some r') : Ok r' := by
  simp only [Runtime.step] at hs
  split at hs <;> cases hs
  rename_i hphase
  have hcancels := h.cancels
  rw [hphase] at hcancels
  refine ⟨fun p hp => ?_, hcancels.takeAll _, h.suspended, by simp⟩
  obtain ⟨t, ht, rfl⟩ := List.mem_map.mp hp
  have hold := h.tasks t ht
  have hdrained : r.shutdown.drained = false := by rw [hphase]; rfl
  change TaskOk false _
  rw [← hdrained]
  cases hstep : TaskHarness.step r.env t .takeRegistry with
  | none => exact hold
  | some t' => exact hold.step_in (by simp) hstep

theorem Ok.cancelNext (h : Ok r) (hs : r.step .cancelNext = some r') : Ok r' := by
  simp only [Runtime.step] at hs
  split at hs
  · rename_i j rest hphase
    obtain ⟨t, hj, hs⟩ := Option.bind_eq_some_iff.mp hs
    obtain ⟨t₂, hcall, rfl⟩ := Option.map_eq_some_iff.mp hs
    have hold := h.tasks t (List.mem_of_getElem? hj)
    obtain ⟨t₁, habort, hadvance, -, hcancelled, hregistry⟩ :=
      callShutdown_eq hold.consistent hcall
    have hok : TaskOk r.shutdown.drained t₂ :=
      (hold.step_in (by simp) habort).step_in (by simp) hadvance
    have htasks := h.tasks_set (j := j) hok
    have hcancels := h.cancels
    rw [hphase] at htasks hcancels
    exact ⟨htasks, hcancels.cancel hj hcancelled hregistry, h.suspended, by simp⟩
  · cases hs

theorem Ok.release (h : Ok r) (hs : r.step (.release j) = some r') : Ok r' := by
  simp only [Runtime.step] at hs
  split at hs
  · rename_i hphase
    obtain ⟨t, t', hj, hrelease, rfl⟩ := Runtime.onTask_eq hs
    have hold := h.tasks t (List.mem_of_getElem? hj)
    have hm := hold.consistent.moves hrelease
    obtain ⟨htaken, hremoved⟩ : t.shared.registry = .taken ∧ t'.shared.registry = .removed := by
      cases hm with
      | releaseRegistry htaken => exact ⟨htaken, rfl⟩
    have hcancelled : (view t.shared.word).cancelled = true := by
      refine (h.cancels.cancelled j t hj htaken).resolve_right ?_
      simp [hphase, Shutdown.pending]
    exact ⟨h.tasks_set (hold.step_in (fun _ _ => hcancelled) hrelease),
      h.cancels.set hj (by simp [hremoved]) (by simp [hremoved]) hm.grows.cancelled, h.suspended,
      by simp [hphase]⟩
  · cases hs

/-- The steps of the shutdown that touch no task. -/
theorem Ok.phase (h : Ok r) {phase : Shutdown} {suspended : ℕ}
    (hdrained : phase.drained = r.shutdown.drained) (htaken : phase.taken = r.shutdown.taken)
    (hpending : ∀ k, k ∈ r.shutdown.pending → k ∈ phase.pending) (hsuspended : suspended = 0)
    (hreturned : phase ≠ .returned) :
    Ok { r with shutdown := phase, suspended := suspended } where
  tasks := fun t ht => hdrained ▸ h.tasks t ht
  cancels :=
    { listed := fun hphase => h.cancels.listed (htaken ▸ hphase)
      untaken := fun hphase => h.cancels.untaken (htaken ▸ hphase)
      cancelled := fun k t hk htaken =>
        (h.cancels.cancelled k t hk htaken).imp_right (hpending k) }
  suspended := hsuspended
  done := fun hphase => absurd hphase hreturned

theorem Ok.cancelled (h : Ok r) (htaken : r.shutdown.taken = true)
    (hpending : r.shutdown.pending = []) (ht : t ∈ r.tasks) (hreg : t.shared.registry ≠ .absent) :
    (view t.shared.word).cancelled = true ∨ (view t.shared.word).complete = true := by
  obtain ⟨k, hk⟩ := List.getElem?_of_mem ht
  cases hcase : t.shared.registry with
  | absent => exact absurd hcase hreg
  | listed => exact absurd hcase (h.cancels.listed htaken t ht)
  | taken =>
    refine .inl ((h.cancels.cancelled k t hk hcase).resolve_right ?_)
    simp [hpending]
  | removed => exact ((h.tasks t ht).registered.removed hcase).symm

theorem ownerOps_eq_zero (h : r.ownerOps = 0) (ht : t ∈ r.tasks) {op : Op scheduler}
    (hop : op ∈ t.ops) (hthread : op.thread = .owner) : op.pc = .finished := by
  have hzero := total_eq_zero_iff.mp h t ht
  rw [List.countP_eq_zero] at hzero
  have hfinished := hzero op hop
  simp only [hthread, decide_true, Bool.true_and, Bool.not_eq_true', Bool.not_eq_false] at hfinished
  exact Pc.isFinished_iff.mp hfinished

/-- Nobody is left to run a task when the drain loop ends. -/
theorem Ok.settles (h : Ok r) (hphase : r.shutdown = .drain) (horder : Orderly r .drained)
    (hempty : ∀ t ∈ r.tasks, t.shared.entries = []) (hidle : r.ownerOps = 0) (ht : t ∈ r.tasks)
    (hreg : t.shared.registry ≠ .absent) : Settled t := by
  have hold := h.tasks t ht
  rw [hphase] at hold
  have hquiet := List.all_eq_true.mp horder t ht
  simp only [hreg, decide_false, Bool.false_or, List.all_eq_true, decide_eq_true_eq] at hquiet
  have htaken : r.shutdown.taken = true := by rw [hphase]; rfl
  have hpending : r.shutdown.pending = [] := by rw [hphase]; rfl
  refine ⟨hempty t ht, hold.kept rfl hreg, h.cancelled htaken hpending ht hreg, fun op hop => ?_⟩
  have hhanding := hquiet op hop
  cases hthread : op.thread with
  | owner => simp [ownerOps_eq_zero hidle ht hop hthread, Pc.load]
  | other =>
    have := hold.polls op hop hthread
    omega

theorem Ok.drained (h : Ok r) (horder : Orderly r .drained) (hs : r.step .drained = some r') :
    Ok r' := by
  simp only [Runtime.step] at hs
  split at hs
  · rename_i hphase
    split_ifs at hs with hdrained
    cases hs
    simp only [Bool.and_eq_true, List.all_eq_true, decide_eq_true_eq, List.isEmpty_iff] at hdrained
    have hidle : r.ownerOps = 0 := hdrained.2.trans h.suspended
    have hcancels := h.cancels
    rw [hphase] at hcancels
    refine ⟨fun t ht => ?_, hcancels, h.suspended, by simp⟩
    have hold := h.tasks t ht
    exact ⟨hold.consistent, hold.registered, hold.polls, by simp [Shutdown.drained],
      fun _ hreg => h.settles hphase horder hdrained.1 hidle ht hreg⟩
  · cases hs

theorem Ok.return (h : Ok r) (horder : Orderly r .return) (hs : r.step .return = some r') :
    Ok r' := by
  simp only [Runtime.step] at hs
  split at hs
  · rename_i hphase
    split_ifs at hs with hreleased
    cases hs
    have hcancels := h.cancels
    rw [hphase] at hcancels
    have htasks := h.tasks
    rw [hphase] at htasks
    refine ⟨htasks, hcancels, h.suspended, fun _ t ht hreg => ?_⟩
    have hquiet := List.all_eq_true.mp horder t ht
    simp only [hreg, decide_false, Bool.false_or, List.all_eq_true, decide_eq_true_eq] at hquiet
    exact ((htasks t ht).settled rfl hreg).isComplete (htasks t ht).consistent hquiet
  · cases hs

theorem Ok.step (h : Ok r) {e : Event} (horder : Orderly r e) (hs : r.step e = some r') :
    Ok r' := by
  cases e with
  | spawn thread => exact h.spawn hs
  | task j a =>
    simp only [Runtime.step] at hs
    split_ifs at hs with hallowed
    exact h.task (by simpa using hallowed) hs
  | blockOn | blockOnReturns =>
    simp only [Runtime.step] at hs
    split_ifs at hs
    cases hs
    exact ⟨h.tasks, h.cancels, h.suspended, h.done⟩
  | swap =>
    simp only [Runtime.step] at hs
    split at hs <;> cases hs
    rename_i hphase
    have hidle : r.ownerOps = 0 := by simpa [Orderly, orderly] using horder
    refine h.phase ?_ ?_ ?_ hidle ?_ <;>
      simp [hphase, Shutdown.drained, Shutdown.taken, Shutdown.pending]
  | takeTasks => exact h.takeTasks hs
  | cancelNext => exact h.cancelNext hs
  | cancelReturns =>
    simp only [Runtime.step] at hs
    split at hs
    · rename_i hphase
      split_ifs at hs
      cases hs
      refine h.phase ?_ ?_ ?_ h.suspended ?_ <;>
        simp [hphase, Shutdown.drained, Shutdown.taken, Shutdown.pending]
    · cases hs
  | startDrain | storeComplete =>
    simp only [Runtime.step] at hs
    split at hs <;> cases hs
    rename_i hphase
    refine h.phase ?_ ?_ ?_ h.suspended ?_ <;>
      simp [hphase, Shutdown.drained, Shutdown.taken, Shutdown.pending]
  | drained => exact h.drained horder hs
  | release j => exact h.release hs
  | «return» => exact h.return horder hs

theorem ok_of_reachable (h : Reachable Runtime.step Orderly Runtime.new r) : Ok r :=
  h.invariant ok_new fun _ _ _ hok horder hs => hok.step horder hs

/-- A complete task has no future any more. -/
theorem stage_of_complete (h : Consistent t) (hc : (view t.shared.word).complete = true) :
    t.shared.stage ≠ .running := by
  rw [Ne, h.staged.stage, h.staged.finalized, hc]
  simp

theorem shutdown_completes_and_drops_registered
    (h : Reachable Runtime.step Orderly Runtime.new r) (hreturned : r.shutdown = .returned) :
    ∀ t ∈ r.tasks, t.shared.registry ≠ .absent →
      Snapshot.isComplete t.shared.word = true ∧ t.shared.stage ≠ .running := by
  intro t ht hreg
  have hok := ok_of_reachable h
  have hc := hok.done hreturned t ht hreg
  exact ⟨hc, stage_of_complete (hok.tasks t ht).consistent hc⟩

def shutdownParked : List Event :=
  spawnAndPark ++ [Event.blockOnReturns, .swap, .takeTasks, .cancelNext] ++
    onFirst (advances 2 4) ++
    [Event.cancelReturns, .startDrain, .drained, .storeComplete, .release 0] ++
    onFirst (advances 3 1) ++ [Event.return]

theorem shutdown_completes_and_drops_parked :
    ∃ r, Reachable Runtime.step Orderly Runtime.new r ∧ r.shutdown = .returned ∧
      r.tasks.length = 1 ∧ ∀ t ∈ r.tasks, t.shared.registry ≠ .absent →
        Snapshot.isComplete t.shared.word = true ∧ t.shared.stage ≠ .running := by
  obtain ⟨r, hreach, hr⟩ := exists_reachable_of_run
    (show (run (guarded Runtime.step Orderly) Runtime.new shutdownParked).any
      (fun r => r.shutdown = .returned && r.tasks.length = 1) = true by decide +kernel)
  simp only [Bool.and_eq_true, decide_eq_true_eq] at hr
  exact ⟨r, hreach, hr.1, hr.2, shutdown_completes_and_drops_registered hreach hr.1⟩

/-- Another thread has notified the parked task and enqueues it behind the drain loop. -/
def shutdownDuringWake : List Event :=
  spawnAndPark ++ onFirst (.wake .other :: advances 2 1) ++
    [Event.blockOnReturns, .swap, .takeTasks, .cancelNext, .cancelReturns, .startDrain, .drained,
      .storeComplete] ++ onFirst (advances 2 2) ++ [Event.release 0] ++ onFirst (advances 4 1) ++
    [Event.return]

/-- A registered task that is not complete and still has its future. -/
def Runtime.unresolved (r : Runtime) : Bool :=
  r.tasks.any fun t => t.shared.registry ≠ .absent && !Snapshot.isComplete t.shared.word &&
    t.shared.stage = .running

/-- The shutdown returns, and the task it left to the late entry keeps its future. -/
theorem shutdown_keeps_woken_future :
    ∃ r, Reachable Runtime.step anyStep Runtime.new r ∧ r.shutdown = .returned ∧
      ∃ t ∈ r.tasks, t.shared.registry ≠ .absent ∧ Snapshot.isComplete t.shared.word = false ∧
        t.shared.stage = .running := by
  obtain ⟨r, hreach, hr⟩ := exists_reachable_of_run
    (show (run (guarded Runtime.step anyStep) Runtime.new shutdownDuringWake).any
      (fun r => r.shutdown = .returned && r.unresolved) = true by decide +kernel)
  simp only [Bool.and_eq_true, decide_eq_true_eq, Runtime.unresolved, List.any_eq_true,
    Bool.not_eq_true'] at hr
  obtain ⟨hreturned, t, ht, ⟨hreg, hc⟩, hstage⟩ := hr
  exact ⟨r, hreach, hreturned, t, ht, hreg, hc, hstage⟩

end

end Eddy.CurrentThread
