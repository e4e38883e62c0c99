import Eddy.MultiThreadScheduler

/-!
# Exclusive access to the stage, and one finalization

A poll that starts, a poll that ends, an entry that finds the task cancelled and an abort
that finds it idle each act on the flags of one compare-and-swap. The flags stay as they
were found because the task has at most one queue entry and CANCELLED is never taken back.
-/

namespace Eddy.TaskHarness
open TaskState Interleaving

variable {S : Scheduler} {t : Task S} {thread : S.Thread} {target : ℕ}

/-- Between a successful `transition_to_running` and the matching `transition_to_idle` or
`transition_to_complete`. -/
def Pc.holdsRunning : Pc S → Bool
  | .lockStage | .polling | .toIdle => true
  | .finalizeStage via _ | .finalizeComplete via => via = .ready
  | _ => false

structure Exclusive (t : Task S) : Prop where
  running : ∀ (i j : ℕ) (op op' : Op S), t.ops[i]? = some op → t.ops[j]? = some op' →
    op.pc.holdsRunning = true → op'.pc.holdsRunning = true → i = j
  finalized : t.shared.finalized ≤ 1
  /-- `transition_to_complete` never finds COMPLETE. -/
  completes : ∀ op ∈ t.ops, ∀ via, op.pc = .finalizeComplete via →
    Snapshot.isComplete t.shared.word = false
  /-- What is polled is the future, before any finalization and before any poll has
  observed CANCELLED. -/
  polled : ∀ op ∈ t.ops, op.pc = .polling →
    t.shared.stage = .running ∧ t.shared.finalized = 0 ∧ t.shared.sawCancelled = false
  /-- Nobody writes the stage while another operation polls. -/
  written : ∀ op ∈ t.ops, ∀ op' ∈ t.ops, ∀ via outcome, op.pc = .finalizeStage via outcome →
    op'.pc ≠ .polling
  reachable : ∀ op ∈ t.ops, op.pc ≠ .unreachable

theorem Pc.load_running (pc : Pc S) (h : pc.holdsRunning = true) : pc.load.running = 1 := by
  cases pc with
  | finalizeStage via _ | finalizeComplete via =>
    obtain rfl : via = .ready := by simpa [holdsRunning] using h
    rfl
  | _ => first | rfl | cases h

theorem running_le_load {ops : List (Op S)} {i : ℕ} {op : Op S} (h : ops[i]? = some op) :
    op.pc.load.running ≤ (load ops).running :=
  le_total (fun op : Op S => op.pc.load.running) h

theorem finalizing_le_load {ops : List (Op S)} {i : ℕ} {op : Op S} (h : ops[i]? = some op) :
    op.pc.load.finalizing ≤ (load ops).finalizing :=
  le_total (fun op : Op S => op.pc.load.finalizing) h

namespace Consistent
variable (h : Consistent t)
include h

/-- Whoever holds the RUNNING bit excludes every finalization without it. -/
theorem running_add_finalizing_le : (load t.ops).running + (load t.ops).finalizing ≤ 1 := by
  have hclaims := h.claimed.claims
  have hrunning := h.claimed.running
  have hle := Bool.toNat_le (!(view t.shared.word).complete && !(view t.shared.word).running &&
    ((view t.shared.word).notified || (view t.shared.word).cancelled))
  cases hr : (view t.shared.word).running <;> simp [hr] at hclaims hrunning hle <;> omega

theorem quiet_of_complete (hc : (view t.shared.word).complete = true) :
    (load t.ops).running = 0 ∧ (load t.ops).finalizing = 0 := by
  have hclaims := h.claimed.claims
  have hrunning := h.claimed.running
  simp [hc] at hclaims
  exact ⟨by simp [hrunning, (h.claimed.complete hc).2], by omega⟩

theorem finalized_le : t.shared.finalized ≤ 1 := by
  have hsane := (load_sane t.ops).staged
  have hstaged := h.staged.finalized
  cases hc : (view t.shared.word).complete with
  | false =>
    have := h.running_add_finalizing_le
    simp [hc] at hstaged
    omega
  | true =>
    have := h.quiet_of_complete hc
    simp [hc] at hstaged
    omega

/-- While the RUNNING bit is held and the stage is not written, it holds the future. -/
theorem unfinalized {i : ℕ} {op : Op S} (hi : t.ops[i]? = some op)
    (hrunning : op.pc.load.running = 1) (hstaged : op.pc.load.staged = 0) :
    t.shared.stage = .running ∧ t.shared.finalized = 0 ∧ t.shared.sawCancelled = false := by
  have hclaim := h.claimed
  have hstage := h.staged
  rw [load_eraseIdx hi] at hclaim hstage
  have hfuture := hstage.future (load_sane _) hclaim hrunning hstaged
  refine ⟨hfuture, h.staged.stage.mp hfuture, ?_⟩
  have hadd := claimed_add.mp hclaim
  rw [hrunning] at hadd
  exact hadd.of_running.2.2.2.2

end Consistent

/-- Two operations that hold or finalize the task are one. -/
theorem Consistent.exclusive_ops (h : Consistent t) {i j : ℕ} {op op' : Op S}
    (hi : t.ops[i]? = some op) (hj : t.ops[j]? = some op')
    (hop : 1 ≤ op.pc.load.running + op.pc.load.finalizing)
    (hop' : 1 ≤ op'.pc.load.running + op'.pc.load.finalizing) : i = j := by
  by_contra hij
  have hle := h.running_add_finalizing_le
  have hsum := add_le_total
    (fun op : Op S => op.pc.load.running + op.pc.load.finalizing) hij hi hj
  rw [total_add] at hsum
  have : (load t.ops).running + (load t.ops).finalizing =
      total (fun op => op.pc.load.running) t.ops + total (fun op => op.pc.load.finalizing) t.ops :=
    rfl
  omega

theorem After.pc_ne_unreachable (after : After S) : after.pc ≠ .unreachable := by
  cases after <;> simp [After.pc]

theorem Access.unreachable {env : S.Env} {sh sh' : Shared S} {pc pc' : Pc S}
    (h : Access env thread sh pc sh' pc') (hpc : pc' = .unreachable) :
    pc = .lockStage ∧ sh.stage ≠ .running := by
  induction h with
  | stageUnreachable hstage => exact ⟨rfl, hstage⟩
  | queued | droppedReference | dealloc | forgotten | deferred =>
    exact absurd hpc (After.pc_ne_unreachable _)
  | _ => cases hpc

/-- `poll` never finds the stage without its future. -/
theorem reachable_stage {guard : Task S → S.Env × Action S → Prop}
    (h : Reachable stepIn guard (Task.new thread target) t) :
    Consistent t ∧ ∀ op ∈ t.ops, op.pc ≠ .unreachable := by
  refine h.invariant (I := fun t => Consistent t ∧ ∀ op ∈ t.ops, op.pc ≠ .unreachable)
    ⟨consistent_new _ _, by simp [Task.new]⟩ ?_
  rintro t ⟨env, a⟩ t' ⟨hcon, hops⟩ - hs
  refine ⟨hcon.step hs, fun p hp => ?_⟩
  rcases (hcon.moves hs).mem_ops hp with
    hp | ⟨i, op, pc, -, hi, hacc, rfl⟩ | ⟨op, -, result, -, rfl⟩ | ⟨hstart, -, -⟩
  · exact hops p hp
  · intro hpc
    obtain ⟨hlock, hstage⟩ := hacc.unreachable hpc
    exact hstage (hcon.unfinalized hi (by simp [hlock, Pc.load]) (by simp [hlock, Pc.load])).1
  · cases result <;> simp [Op.next, PollResult.next]
  · rintro hpc
    simp [hpc, Pc.isStart] at hstart

theorem stage_exclusive (h : Reachable stepIn anyStep (Task.new thread target) t) :
    Exclusive t := by
  obtain ⟨hcon, hreachable⟩ := reachable_stage h
  refine ⟨fun i j op op' hi hj hop hop' => ?_, hcon.finalized_le, fun op hop via hpc => ?_,
    fun op hop hpc => ?_, fun op hop op' hop' via outcome hpc hpc' => ?_, hreachable⟩
  · have := Pc.load_running op.pc hop
    have := Pc.load_running op'.pc hop'
    exact hcon.exclusive_ops hi hj (by omega) (by omega)
  · obtain ⟨i, hi⟩ := List.getElem?_of_mem hop
    have hload : 1 ≤ op.pc.load.running + op.pc.load.finalizing := by
      rw [hpc]
      cases via <;> simp [Pc.load, Via.holdsRunning]
    by_contra hc
    have hquiet := hcon.quiet_of_complete (by simpa using hc)
    have := running_le_load hi
    have := finalizing_le_load hi
    omega
  · obtain ⟨i, hi⟩ := List.getElem?_of_mem hop
    exact hcon.unfinalized hi (by simp [hpc, Pc.load]) (by simp [hpc, Pc.load])
  · obtain ⟨i, hi⟩ := List.getElem?_of_mem hop
    obtain ⟨j, hj⟩ := List.getElem?_of_mem hop'
    have hij := hcon.exclusive_ops hi hj
      (by rw [hpc]; cases via <;> simp [Pc.load, Via.holdsRunning]) (by simp [hpc', Pc.load])
    subst hij
    rw [hi] at hj
    cases hj
    simp [hpc] at hpc'

end Eddy.TaskHarness

namespace Eddy.MultiThread
open TaskHarness Interleaving

/-- Worker 0 is polling the task when its `JoinHandle` aborts it. -/
def abortDuringPoll : List (Env × Action scheduler) :=
  under (.open 1) (spawnSteps ++ .take (some 0) 0 :: advances 1 2 ++ .abort none .join ::
    advances 2 1)

theorem stage_exclusive_during_abort :
    ∃ t, Reachable stepIn anyStep (Task.new none 0 : Task scheduler) t ∧
      t.shared.stageLocked = true ∧ Exclusive t := by
  obtain ⟨t, hreach, hlocked⟩ := exists_reachable_of_run
    (show (run (guarded stepIn anyStep) (Task.new none 0 : Task scheduler) abortDuringPoll).any
      (fun t => t.shared.stageLocked) = true by decide +kernel)
  exact ⟨t, hreach, hlocked, stage_exclusive hreach⟩

end Eddy.MultiThread
