import Eddy.TaskReferences

/-!
# Operations that outlive their reference

`wake_by_val` and `poll` hand their reference over to the queue entry, and stay inside
`schedule` for the accesses through `self` that follow the push. `self` is a field of the
cell: once a worker takes the entry, the task can be completed, released and freed under the call.
`wake_by_ref` works through a waker that stays, and `spawn` through a scheduler of its own.
-/

namespace Eddy.TaskHarness
open TaskState Interleaving

variable {S : Scheduler} {sh sh' : Shared S} {pc pc' : Pc S} {env : S.Env} {thread : S.Thread}

/-- Whether the call gives its own reference to the queue entry, and reaches the scheduler
through the cell. -/
def Caller.handsOver : Caller → Bool
  | .wakeByVal | .poll => true
  | _ => false

def After.handsOver : After S → Bool
  | .scheduled caller _ => caller.handsOver
  | _ => false

/-- The operation is past the push of the entry that took its reference. -/
def Pc.handedOver : Pc S → Bool
  | .scheduled caller _ => caller.handsOver
  | _ => false

/-- The operation drops the entry that took its reference, and is not done then. -/
def Pc.dropsHandedOver : Pc S → Bool
  | .dropReference after | .dealloc after | .deferInc after | .deferPush after => after.handsOver
  | _ => false

/-- Whether an access of the cell is still ahead. -/
def Pc.accesses : Pc S → Bool
  | .scheduled caller _ => caller ≠ .spawn
  | .finished => false
  | _ => true

/-- Why an operation may access the cell. -/
theorem Pc.accesses_cases (h : pc.accesses = true) :
    0 < pc.load.refs ∨ pc.byRef = true ∨ pc.handedOver = true ∨ pc.load.releasing = 1 := by
  cases pc with
  | scheduled caller post => cases caller <;> simp_all [accesses, byRef, handedOver, Caller.handsOver]
  | finalizeStage via _ | finalizeComplete via | finalizeWake via _ | finalizeDiscard via
  | finalizeRemove via => cases via <;> simp [load, byRef, Via.spends]
  | finished => cases h
  | _ => simp [load, byRef]

@[simp] theorem After.handedOver_pc (after : After S) : after.pc.handedOver = after.handsOver := by
  cases after <;> rfl

@[simp] theorem After.dropsHandedOver_pc (after : After S) :
    after.pc.dropsHandedOver = false := by
  cases after <;> rfl

/-- The only way to be past the push is to push, or to have been there already. -/
theorem Access.handedOver (h : Access env thread sh pc sh' pc')
    (hdrops : pc.dropsHandedOver = false)
    (hpc : pc'.handedOver = true) :
    (pc.handedOver = true ∧ sh' = sh) ∨ ∃ place, sh'.entries = sh.entries ++ [place] := by
  induction h with
  | scheduledNext => exact .inl ⟨hpc, rfl⟩
  | queued => exact .inr ⟨_, rfl⟩
  | droppedReference | dealloc | forgotten | deferred =>
    rw [After.handedOver_pc] at hpc
    simp [Pc.dropsHandedOver, hpc] at hdrops
  | _ => simp [Pc.handedOver] at hpc

/-- An access never takes a queue entry away. -/
theorem Access.entries_mono (h : Access env thread sh pc sh' pc') :
    sh.entries.length ≤ sh'.entries.length := by
  induction h <;> simp [Shared.touchFuture]

/-- Whether the scheduler drops the entry and is not done with the call. -/
def Routing.dropsWithRest {Place Pre Post : Type} : Routing Place Pre Post → Bool
  | .drop (some _) => true
  | _ => false

theorem Access.dropsHandedOver (h : Access env thread sh pc sh' pc')
    (hkept : ∀ caller pre, pc = .schedule caller pre → caller.handsOver = true →
      (S.pre env thread sh.target sh.ownerId pre).dropsWithRest = false)
    (hdrops : pc.dropsHandedOver = false) : pc'.dropsHandedOver = false := by
  induction h with
  | dropped hpre =>
    rename_i caller pre rest
    cases rest with
    | none => rfl
    | some post =>
      by_contra hpc
      have := hkept caller pre rfl (by simpa [Pc.dropsHandedOver, After.ofRest, After.handsOver] using hpc)
      simp [hpre, Routing.dropsWithRest] at this
  | queued | droppedReference | dealloc | forgotten | deferred => exact After.dropsHandedOver_pc _
  | droppedLast | deallocElsewhere | deferInc => exact hdrops
  | _ => rfl

end Eddy.TaskHarness

namespace Eddy.MultiThread
open TaskState TaskHarness Interleaving

variable {t t' : Task scheduler} {env : Env} {a : Action scheduler} {thread : Thread} {target : ℕ}

/-- When the last reference is dropped, and when the cell is freed, no other operation has
an access of the cell ahead. -/
structure CellSafe (t : Task scheduler) : Prop where
  releasing : ∀ (i j : ℕ) (op op' : Op scheduler), t.ops[i]? = some op → t.ops[j]? = some op' → i ≠ j →
    op.pc.load.releasing = 1 → op'.pc.accesses = false
  freed : t.shared.freed = true → ∀ op ∈ t.ops, op.pc.accesses = false

/-- No entry leaves the queues while the call that handed its reference over to it is still
inside `schedule`, and no such call finds the injector closed. -/
def entryKept (t : Task scheduler) : Env × Action scheduler → Bool
  | (_, .take _ _) | (_, .discard _ _) => t.ops.all fun op => !op.pc.handedOver
  | (env, .advance i) =>
      match t.ops[i]? with
      | some ⟨thread, _, .schedule caller pre⟩ =>
          !(caller.handsOver &&
            (schedule env thread t.shared.target t.shared.ownerId pre).dropsWithRest)
      | _ => true
  | _ => true

def EntryKept (t : Task scheduler) (a : Env × Action scheduler) : Prop := entryKept t a = true

instance (t : Task scheduler) (a : Env × Action scheduler) : Decidable (EntryKept t a) :=
  inferInstanceAs (Decidable (_ = true))

/-- The entry that took the reference of a call is queued as long as the call goes on. -/
structure HandOver (t : Task scheduler) : Prop where
  queued : ∀ op ∈ t.ops, op.pc.handedOver = true → 0 < t.shared.entries.length
  kept : ∀ op ∈ t.ops, op.pc.dropsHandedOver = false

theorem handOver_new (thread : Thread) (target : ℕ) : HandOver (Task.new thread target) :=
  ⟨by simp [Task.new, Pc.handedOver], by simp [Task.new, Pc.dropsHandedOver]⟩

/-- A new operation starts and the entries stay. -/
theorem HandOver.begin (h : HandOver t) {sh : Shared scheduler} {op : Op scheduler}
    (hentries : (∃ p ∈ t.ops, p.pc.handedOver = true) → 0 < sh.entries.length)
    (hover : op.pc.handedOver = false) (hdrops : op.pc.dropsHandedOver = false) :
    HandOver { shared := sh, ops := t.ops ++ [op] } := by
  constructor
  · intro p hp hpc
    rcases List.mem_append.mp hp with hp | hp
    · exact hentries ⟨p, hp, hpc⟩
    · obtain rfl := List.mem_singleton.mp hp
      simp [hover] at hpc
  · intro p hp
    rcases List.mem_append.mp hp with hp | hp
    · exact h.kept p hp
    · obtain rfl := List.mem_singleton.mp hp
      exact hdrops

theorem HandOver.access (h : HandOver t) {i : ℕ} {op : Op scheduler} {sh : Shared scheduler}
    {pc : Pc scheduler} (hi : t.ops[i]? = some op) (hkept : EntryKept t (env, .advance i))
    (hacc : Access env op.thread t.shared op.pc sh pc) :
    HandOver { shared := sh, ops := t.ops.set i (op.next pc) } := by
  have hmem := List.mem_of_getElem? hi
  have hmono := hacc.entries_mono
  constructor
  · intro p hp hpc
    rcases List.mem_or_eq_of_mem_set hp with hp | rfl
    · exact (h.queued p hp hpc).trans_le hmono
    · rcases hacc.handedOver (h.kept op hmem) hpc with ⟨hold, rfl⟩ | ⟨place, hentries⟩
      · exact h.queued op hmem hold
      · simp [hentries]
  · intro p hp
    rcases List.mem_or_eq_of_mem_set hp with hp | rfl
    · exact h.kept p hp
    · refine hacc.dropsHandedOver (fun caller pre hpc hover => ?_) (h.kept op hmem)
      obtain ⟨thread, lender, pc₀⟩ := op
      subst hpc
      simpa [EntryKept, entryKept, hi, hover] using hkept

theorem HandOver.moves (h : HandOver t) (hkept : EntryKept t (env, a)) (hm : Moves env t a t') :
    HandOver t' := by
  have hqueued : (∃ p ∈ t.ops, p.pc.handedOver = true) → 0 < t.shared.entries.length :=
    fun ⟨p, hp, hpc⟩ => h.queued p hp hpc
  induction hm with
  | access hi hacc => exact h.access hi hkept hacc
  | pollReturns hi hpc =>
    rename_i result _
    constructor
    · intro p hp hover
      rcases List.mem_or_eq_of_mem_set hp with hp | rfl
      · exact h.queued p hp hover
      · cases result <;> cases hover
    · intro p hp
      rcases List.mem_or_eq_of_mem_set hp with hp | rfl
      · exact h.kept p hp
      · cases result <;> rfl
  | take | discard =>
    refine h.begin (fun ⟨p, hp, hpc⟩ => ?_) rfl rfl
    have := List.all_eq_true.mp hkept p hp
    simp [hpc] at this
  | move hk =>
    refine ⟨fun p hp hpc => ?_, h.kept⟩
    simpa using h.queued p hp hpc
  | cloneWaker | cloneAbort | takeRegistry => exact ⟨h.queued, h.kept⟩
  | _ => exact h.begin hqueued rfl rfl

theorem handOver_of_reachable (h : Reachable stepIn EntryKept (Task.new thread target) t) :
    Consistent t ∧ HandOver t := by
  refine h.invariant (I := fun t => Consistent t ∧ HandOver t)
    ⟨consistent_new _ _, handOver_new _ _⟩ ?_
  rintro s ⟨env, a⟩ s' ⟨hcon, hover⟩ hkept hs
  exact ⟨hcon.step hs, hover.moves hkept (hcon.moves hs)⟩

/-- Where nobody owns the task, only the operation that released the last owner is left. -/
theorem HandOver.unowned (hover : HandOver t) (hcon : Consistent t)
    (hzero : t.shared.handles + (load t.ops).refs = 0) {op : Op scheduler} (hop : op ∈ t.ops)
    (hacc : op.pc.accesses = true) : op.pc.load.releasing = 1 := by
  obtain ⟨i, hi⟩ := List.getElem?_of_mem hop
  rcases Pc.accesses_cases hacc with hrefs | hby | hhand | hrel
  · have := refs_le_load hi
    omega
  · obtain ⟨x, hx⟩ := Option.ne_none_iff_exists'.mp (hcon.byRef op hop hby)
    have hlent := lent_of_lends (hcon.lent op hop x hx)
    simp only [Lent] at hlent
    omega
  · have := hover.queued op hop hhand
    simp only [Shared.handles] at hzero
    omega
  · exact hrel

theorem freed_under_no_operation (h : Reachable stepIn EntryKept (Task.new thread target) t) :
    CellSafe t := by
  obtain ⟨hcon, hover⟩ := handOver_of_reachable h
  constructor
  · intro i j op op' hi hj hij hrel
    by_contra hacc
    have htwo := add_le_total (fun op : Op scheduler => op.pc.load.releasing) hij hi hj
    have hlive : t.shared.freed = false := by
      by_contra hf
      have hgone := hcon.counted.gone (by simpa using hf)
      have := releasing_le_load hi
      omega
    have hone := hcon.counted.releasing hlive
    have howners := hcon.counted.owners hlive
    have htotal : op.pc.load.releasing + op'.pc.load.releasing ≤ (load t.ops).releasing := htwo
    have hrel' : op'.pc.load.releasing = 1 := by
      refine hover.unowned hcon ?_ (List.mem_of_getElem? hj) (by simpa using hacc)
      split_ifs at hone with hz <;> omega
    split_ifs at hone <;> omega
  · intro hfreed op hop
    by_contra hacc
    have hgone := hcon.counted.gone hfreed
    have hrel := hover.unowned hcon (by omega) hop (by simpa using hacc)
    obtain ⟨i, hi⟩ := List.getElem?_of_mem hop
    have := releasing_le_load hi
    omega

/-- The task is polled once, keeps its waker and loses its `JoinHandle`; then the waker is
used by value, up to the push into the injector. -/
def wokenByVal : List (Action scheduler) :=
  spawnSteps ++ .take (some 0) 0 :: advances 1 2 ++ .cloneWaker .poll :: .pollReturns 1 .pending ::
    advances 1 2 ++ .dropJoin none :: advances 2 4 ++ .wake none :: advances 3 5

def runEntry : List (Action scheduler) :=
  .take (some 0) 0 :: advances 4 2 ++ .pollReturns 4 .ready :: advances 4 8

def wakeThenRun : List (Env × Action scheduler) :=
  under (.open 1) (wokenByVal ++ advances 3 2 ++ runEntry)

/-- The worker takes the entry while the wake still has `task_queued` and `unpark_target`
ahead. -/
def runDuringWake : List (Env × Action scheduler) := under (.open 1) (wokenByVal ++ runEntry)

theorem freed_after_wake_returned :
    ∃ t, Reachable stepIn EntryKept (Task.new none 0 : Task scheduler) t ∧
      t.shared.freed = true ∧ CellSafe t := by
  obtain ⟨t, hreach, hfreed⟩ := exists_reachable_of_run
    (show (run (guarded stepIn EntryKept) (Task.new none 0 : Task scheduler) wakeThenRun).any
      (fun t => t.shared.freed) = true by decide +kernel)
  exact ⟨t, hreach, hfreed, freed_under_no_operation hreach⟩

/-- The cell is freed under the wake that queued the last entry. -/
theorem freed_during_wake :
    ∃ t, Reachable stepIn anyStep (Task.new none 0 : Task scheduler) t ∧
      t.shared.freed = true ∧ ¬CellSafe t := by
  obtain ⟨t, hreach, ht⟩ := exists_reachable_of_run
    (show (run (guarded stepIn anyStep) (Task.new none 0 : Task scheduler) runDuringWake).any
      (fun t => t.shared.freed && t.ops.any fun op => op.pc.accesses) = true by decide +kernel)
  obtain ⟨hfreed, haccess⟩ := Bool.and_eq_true_iff.mp ht
  obtain ⟨op, hop, hacc⟩ := List.any_eq_true.mp haccess
  refine ⟨t, hreach, hfreed, fun hsafe => ?_⟩
  simp [hsafe.freed hfreed op hop] at hacc

end Eddy.MultiThread
