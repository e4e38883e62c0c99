import Eddy.MultiThreadScheduler

/-!
# The reference count of a multi-thread task

A multi-thread task is deallocated on whichever thread drops the last reference, so nothing
is ever deferred, and the count in the word is the number of the task's handles, queue
entries and operations that own a reference.
-/

namespace Eddy.TaskHarness
open TaskState Interleaving

variable {S : Scheduler} {sh sh' : Shared S} {pc pc' : Pc S} {env : S.Env} {thread : S.Thread}

def Pc.defers : Pc S → Bool
  | .deferInc _ | .deferPush _ | .deallocNow => true
  | _ => false

@[simp] theorem After.defers_pc (after : After S) : after.pc.defers = false := by
  cases after <;> rfl

theorem Access.prompt (h : Access env thread sh pc sh' pc')
    (hhere : S.deallocHere env thread = true)
    (hpc : pc.defers = false) :
    pc'.defers = false ∧ sh'.deferred = sh.deferred ∧ sh'.leaked = sh.leaked := by
  induction h with
  | queued | droppedReference | dealloc => exact ⟨After.defers_pc _, rfl, rfl⟩
  | deallocElsewhere helsewhere => simp [hhere] at helsewhere
  | deferInc | forgotten | deferred | deallocNow => cases hpc
  | _ => exact ⟨rfl, rfl, rfl⟩

end Eddy.TaskHarness

namespace Eddy.MultiThread
open TaskState TaskHarness Interleaving

variable {t t' : Task scheduler} {env : Env} {a : Action scheduler} {thread : Thread} {target : ℕ}

structure Prompt (t : Task scheduler) : Prop where
  deferred : t.shared.deferred = 0
  leaked : t.shared.leaked = 0
  ops : ∀ op ∈ t.ops, op.pc.defers = false

theorem prompt_new (thread : Thread) (target : ℕ) : Prompt (Task.new thread target) :=
  ⟨rfl, rfl, by simp [Task.new, Pc.defers]⟩

theorem Prompt.moves (h : Prompt t) (hm : Moves env t a t') : Prompt t' := by
  obtain ⟨hdeferred, hleaked, hops⟩ := h
  induction hm with
  | access hi hacc =>
    obtain ⟨hpc, hd, hl⟩ := hacc.prompt rfl (hops _ (List.mem_of_getElem? hi))
    refine ⟨hd.trans hdeferred, hl.trans hleaked, fun p hp => ?_⟩
    rcases List.mem_or_eq_of_mem_set hp with hp | rfl
    · exact hops p hp
    · exact hpc
  | pollReturns hi hpc =>
    refine ⟨hdeferred, hleaked, fun p hp => ?_⟩
    rcases List.mem_or_eq_of_mem_set hp with hp | rfl
    · exact hops p hp
    · rename_i result _
      cases result <;> rfl
  | runDeferred _ hruns => cases hruns
  | _ =>
    refine ⟨hdeferred, hleaked, fun p hp => ?_⟩
    first
      | exact hops p hp
      | rcases List.mem_append.mp hp with hp | hp
        · exact hops p hp
        · obtain rfl := List.mem_singleton.mp hp
          rfl

theorem prompt_of_reachable {guard : Task scheduler → Env × Action scheduler → Prop}
    (h : Reachable stepIn guard (Task.new thread target) t) : Consistent t ∧ Prompt t := by
  refine h.invariant (I := fun t => Consistent t ∧ Prompt t)
    ⟨consistent_new _ _, prompt_new _ _⟩ ?_
  rintro s ⟨env, a⟩ s' ⟨hcon, hprompt⟩ - hs
  exact ⟨hcon.step hs, hprompt.moves (hcon.moves hs)⟩

/-- The live owners: the `JoinHandle`, the owned wakers, the abort handles, the queue entry,
the registry entry, and what the operations in progress own. -/
def owners (t : Task scheduler) : ℕ :=
  t.shared.joinHandle.toNat + t.shared.wakers + t.shared.aborts + t.shared.entries.length +
    t.shared.registry.refs + total (fun op => op.pc.load.refs) t.ops

/-- The operations that have dropped the last reference and are about to free the cell. -/
def releasing (t : Task scheduler) : ℕ := total (fun op => op.pc.load.releasing) t.ops

/-- What it means that the count is exact. -/
structure CountExact (t : Task scheduler) : Prop where
  count : t.shared.freed = false → Snapshot.refCount t.shared.word = owners t
  /-- The last owner is being released, and only by one operation, when none is left. -/
  released : t.shared.freed = false → releasing t = if owners t = 0 then 1 else 0
  gone : t.shared.freed = true → owners t = 0 ∧ releasing t = 0
  /-- A decrement finds an owner, leaves the flags alone and knows whether it was the last. -/
  decrement : ∀ op ∈ t.ops, ∀ after, op.pc = .dropReference after →
    t.shared.freed = false ∧ 0 < owners t ∧
      view (State.refDec t.shared.word).2 = { view t.shared.word with refs := owners t - 1 } ∧
      ((State.refDec t.shared.word).1 = true ↔ owners t = 1)
  /-- An increment leaves the flags alone. -/
  increment : ∀ word, State.refInc t.shared.word = some word →
    view word = { view t.shared.word with refs := (view t.shared.word).refs + 1 }
  /-- The cell is freed only after the last owner is gone. -/
  freed : ∀ env a t', step env t a = some t' → t.shared.freed = false → t'.shared.freed = true →
    owners t = 0 ∧ releasing t = 1
  /-- The operation that released the last owner frees the cell, which is not freed yet. -/
  frees : ∀ i op after env, t.ops[i]? = some op → op.pc = .dealloc after →
    t.shared.freed = false ∧ owners t = 0 ∧
      ∃ t', step env t (.advance i) = some t' ∧ t'.shared.freed = true

theorem Prompt.handles_eq (hprompt : Prompt t) :
    t.shared.handles + (load t.ops).refs = owners t := by
  have h1 := hprompt.deferred
  have h2 := hprompt.leaked
  simp only [Shared.handles, owners, load, h1, h2]
  omega

/-- An operation that owns a reference works on a cell that is not freed. -/
theorem Prompt.owner_live (hprompt : Prompt t) (hcon : Consistent t) {op : Op scheduler}
    (hop : op ∈ t.ops) (hrefs : 0 < op.pc.load.refs) :
    t.shared.freed = false ∧ 0 < owners t ∧ (view t.shared.word).refs = owners t := by
  obtain ⟨i, hi⟩ := List.getElem?_of_mem hop
  have hcount := hcon.counted
  rw [load_eraseIdx hi] at hcount
  obtain ⟨hlive, hpos⟩ := hcount.positive hrefs
  have hrefs := hcon.counted.owners hlive
  rw [hprompt.handles_eq] at hrefs
  exact ⟨hlive, by omega, hrefs⟩

/-- An operation about to free the cell is the only one left, and nobody owns the task. -/
theorem Prompt.releasing_live (hprompt : Prompt t) (hcon : Consistent t) {op : Op scheduler}
    {i : ℕ} (hi : t.ops[i]? = some op) (hrel : op.pc.load.releasing = 1) :
    t.shared.freed = false ∧ owners t = 0 := by
  have hone := releasing_le_load hi
  have hlive : t.shared.freed = false := by
    by_contra hf
    have := hcon.counted.gone (by simpa using hf)
    omega
  have hrel := hcon.counted.releasing hlive
  have howned := hcon.counted.owners hlive
  rw [hprompt.handles_eq] at howned
  refine ⟨hlive, ?_⟩
  split_ifs at hrel with hzero <;> omega

/-- Only an operation that has dropped the last reference frees the cell. -/
theorem Prompt.freed_by (hprompt : Prompt t) (hm : Moves env t a t') 
    (hlive : t.shared.freed = false) (hfreed : t'.shared.freed = true) : 1 ≤ releasing t := by
  induction hm with
  | access hi hacc =>
    rename_i i op sh pc
    have hdefers := hprompt.ops op (List.mem_of_getElem? hi)
    have hle := le_total (fun op : Op scheduler => op.pc.load.releasing) hi
    have hone : op.pc.load.releasing = 1 := by
      generalize op.pc = pc₀ at hacc hdefers
      cases hacc <;> first
        | rfl
        | (simp [Pc.defers] at hdefers; done)
        | simp [hlive, Shared.touchFuture] at hfreed
    simp only [hone] at hle
    exact hle
  | _ => simp [hlive, Task.begin, Task.borrow] at hfreed

theorem reference_count_exact (h : Reachable stepIn anyStep (Task.new thread target) t) :
    CountExact t := by
  obtain ⟨hcon, hprompt⟩ := prompt_of_reachable h
  have howners := hprompt.handles_eq
  have hcounted := hcon.counted
  refine ⟨fun hlive => ?_, fun hlive => ?_, fun hfreed => ?_, fun op hop after hpc => ?_,
    fun word hinc => (view_refInc hinc).1, fun env a t' hs hlive hfreed => ?_,
    fun i op after env hi hpc => ?_⟩
  · have := hcounted.owners hlive
    rwa [howners] at this
  · have hrefs := hcounted.owners hlive
    have hrel := hcounted.releasing hlive
    rwa [hrefs, howners] at hrel
  · have := hcounted.gone hfreed
    rw [howners] at this
    exact ⟨by omega, show (load t.ops).releasing = 0 by omega⟩
  · have hrefs : 0 < op.pc.load.refs := by simp [hpc, Pc.load]
    obtain ⟨hlive, hpos, hcount⟩ := hprompt.owner_live hcon hop hrefs
    refine ⟨hlive, hpos, ?_, ?_⟩
    · rw [view_refDec (by omega), hcount]
    · simp [State.refDec, hcount]
  · have hone := hprompt.freed_by (hcon.moves hs) hlive hfreed
    have hrefs := hcounted.owners hlive
    have hrel : releasing t = _ := hcounted.releasing hlive
    rw [hrefs, howners] at hrel
    split_ifs at hrel with hzero
    · exact ⟨hzero, hrel⟩
    · omega
  · obtain ⟨hlive, hzero⟩ := hprompt.releasing_live hcon hi (by simp [hpc, Pc.load])
    refine ⟨hlive, hzero, ?_⟩
    simp only [step, hi, hpc, opStep, Option.bind_some]
    exact ⟨_, rfl, rfl⟩

/-- The task is spawned, polled to completion by worker 0 and dropped by its `JoinHandle`. -/
def spawnPollDrop : List (Env × Action scheduler) :=
  under (.open 1) (spawnSteps ++ .take (some 0) 0 :: advances 1 2 ++ .pollReturns 1 .ready ::
    advances 1 6 ++ .dropJoin none :: advances 2 6)

theorem reference_count_exact_after_drop :
    ∃ t, Reachable stepIn anyStep (Task.new none 0 : Task scheduler) t ∧
      t.shared.freed = true ∧ CountExact t := by
  obtain ⟨t, hreach, hfreed⟩ := exists_reachable_of_run
    (show (run (guarded stepIn anyStep) (Task.new none 0 : Task scheduler) spawnPollDrop).any
      (fun t => t.shared.freed) = true by decide +kernel)
  exact ⟨t, hreach, hfreed, reference_count_exact hreach⟩

end Eddy.MultiThread
