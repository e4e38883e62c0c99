import Eddy.TaskInterleaving

/-!
# A task's entry in the registry

A spawn enters the task, completion removes it, and a scheduler shutdown takes what is still
listed, cancels it and releases it at the end.
-/

namespace Eddy.TaskHarness
open TaskState Interleaving

variable {S : Scheduler} {t t' : Task S} {env : S.Env} {a : Action S}

/-- `finalize` past `transition_to_complete`. -/
def Pc.completed : Pc S → Bool
  | .finalizeWake _ _ | .finalizeDiscard _ | .finalizeRemove _ => true
  | _ => false

@[simp] theorem After.completed_pc (after : After S) : after.pc.completed = false := by
  cases after <;> rfl

def Pc.registers : Pc S → Bool
  | .register => S.registersLocked
  | .registerPush => true
  | _ => false

@[simp] theorem After.registers_pc (after : After S) : after.pc.registers = false := by
  cases after <;> rfl

section
variable {sh sh' : Shared S} {pc pc' : Pc S} {thread : S.Thread}

theorem Access.completed (h : Access env thread sh pc sh' pc') (hpc : pc'.completed = true) :
    pc.completed = true ∨ (view sh'.word).complete = true := by
  induction h with
  | queued | droppedReference | dealloc | forgotten | deferred => simp at hpc
  | finalizeComplete hview => exact .inr (by simp [hview])
  | finalizeWake | finalizeUnread | finalizeDiscard => exact .inl rfl
  | _ => simp [Pc.completed] at hpc

theorem Access.registry (h : Access env thread sh pc sh' pc') :
    sh'.registry = sh.registry ∨
    (pc.registers = true ∧ (pc = .register → S.refuses env = false) ∧ sh'.registry = .listed) ∨
    (pc.completed = true ∧ sh.registry = .listed ∧ sh'.registry = .removed) := by
  induction h with
  | registerLocked hrefuses hlocked => exact .inr (.inl ⟨hlocked, fun _ => hrefuses, rfl⟩)
  | registerPush => exact .inr (.inl ⟨rfl, by simp, rfl⟩)
  | removed hreg | removedByRef hreg => exact .inr (.inr ⟨rfl, hreg, rfl⟩)
  | _ => exact .inl rfl

theorem Access.not_push (h : Access env thread sh pc sh' pc') (hlocked : S.registersLocked = true) :
    pc' ≠ .registerPush := by
  intro hpc
  induction h with
  | register _ hunlocked => simp [hlocked] at hunlocked
  | queued | droppedReference | dealloc | forgotten | deferred =>
    have := congrArg Pc.registers hpc
    rw [After.registers_pc] at this
    cases this
  | _ => cases hpc

end

/-- Outside of a shutdown, the registry changes by a spawn or by completion. -/
theorem Moves.registry (h : Moves env t a t') (ha : a.ofShutdown = false) :
    t'.shared.registry = t.shared.registry ∨
    (t'.shared.registry = .listed ∧ ∃ i op, a = .advance i ∧ t.ops[i]? = some op ∧
      op.pc.registers = true ∧ (op.pc = .register → S.refuses env = false)) ∨
    (t.shared.registry = .listed ∧ t'.shared.registry = .removed) := by
  induction h with
  | access hi hacc =>
    rcases hacc.registry with hsame | ⟨hpc, hrefuses, hlisted⟩ | ⟨-, hlisted, hremoved⟩
    · exact .inl hsame
    · exact .inr (.inl ⟨hlisted, _, _, rfl, hi, hpc, hrefuses⟩)
    · exact .inr (.inr ⟨hlisted, hremoved⟩)
  | takeRegistry | releaseRegistry => cases ha
  | _ => exact .inl rfl

structure Registered (t : Task S) : Prop where
  completed : ∀ op ∈ t.ops, op.pc.completed = true → (view t.shared.word).complete = true
  removed : t.shared.registry = .removed →
    (view t.shared.word).complete = true ∨ (view t.shared.word).cancelled = true
  /-- The check and the push are one access. -/
  locked : S.registersLocked = true → ∀ op ∈ t.ops, op.pc ≠ .registerPush

theorem registered_new (thread : S.Thread) (target : ℕ) : Registered (Task.new thread target) :=
  ⟨by simp [Task.new, Pc.completed], by simp [Task.new], by simp [Task.new]⟩

theorem Registered.moves (h : Registered t) (hm : Moves env t a t')
    (hrelease : ∀ thread, a = .releaseRegistry thread → (view t.shared.word).cancelled = true) :
    Registered t' := by
  have hgrows := hm.grows
  have hremoved : t.shared.registry = .removed →
      (view t'.shared.word).complete = true ∨ (view t'.shared.word).cancelled = true :=
    fun hreg => (h.removed hreg).imp hgrows.complete hgrows.cancelled
  constructor
  · intro p hp hpc
    rcases hm.mem_ops hp with
      hp | ⟨i, op, pc, -, hi, hacc, rfl⟩ | ⟨op, -, result, -, rfl⟩ | ⟨hstart, -, -⟩
    · exact hgrows.complete (h.completed p hp hpc)
    · rcases hacc.completed hpc with hold | hc
      · exact hgrows.complete (h.completed op (List.mem_of_getElem? hi) hold)
      · exact hc
    · cases result <;> cases hpc
    · generalize p.pc = pc at hstart hpc
      cases pc <;> simp [Pc.completed, Pc.isStart] at hpc hstart
  · intro hreg
    induction hm with
    | access hi hacc =>
      rcases hacc.registry with hsame | ⟨-, -, hlisted⟩ | ⟨hpc, -, -⟩
      · exact hremoved (hsame.symm.trans hreg)
      · simp [hlisted] at hreg
      · exact .inl (hgrows.complete (h.completed _ (List.mem_of_getElem? hi) hpc))
    | takeRegistry => cases hreg
    | releaseRegistry => exact .inr (hrelease _ rfl)
    | _ => exact hremoved hreg
  · intro hlocked p hp hpc
    rcases hm.mem_ops hp with
      hp | ⟨i, op, pc, -, hi, hacc, rfl⟩ | ⟨op, -, result, -, rfl⟩ | ⟨hstart, -, -⟩
    · exact h.locked hlocked p hp hpc
    · exact hacc.not_push hlocked hpc
    · cases result <;> cases hpc
    · simp [hpc, Pc.isStart] at hstart

/-- Behind a refused registration no task is entered any more. -/
theorem Registered.not_registers (h : Registered t) (hlocked : S.registersLocked = true)
    {op : Op S} (hop : op ∈ t.ops) (hregisters : op.pc.registers = true) : op.pc = .register := by
  have hpush := h.locked hlocked op hop
  cases hpc : op.pc with
  | register => rfl
  | registerPush => exact absurd hpc hpush
  | _ => simp [hpc, Pc.registers] at hregisters

/-- The task is cancelled or complete, and nobody will run it again. -/
structure Settled (t : Task S) : Prop where
  entries : t.shared.entries = []
  dropped : t.shared.dropped = 0
  cancelled : (view t.shared.word).cancelled = true ∨ (view t.shared.word).complete = true
  ops : ∀ op ∈ t.ops, op.pc.load.handing + op.pc.load.starting + op.pc.load.running = 0

/-- Nobody gets an entry of a cancelled or complete task. -/
theorem Access.claim_le {sh sh' : Shared S} {pc pc' : Pc S} {thread : S.Thread}
    (h : Access env thread sh pc sh' pc')
    (hcancelled : (view sh.word).cancelled = true ∨ (view sh.word).complete = true) :
    pc'.load.handing + pc'.load.starting + pc'.load.running ≤
      pc.load.handing + pc.load.starting + pc.load.running := by
  induction h with
  | queued | droppedReference | dealloc | forgotten | deferred => simp
  | wakeByVal _ hc hx | wakeByRef _ hc hx => simp [hc, hx] at hcancelled
  | _ => simp [Pc.load, Via.holdsRunning]

theorem Settled.moves (h : Settled t) (hm : Moves env t a t') : Settled t' where
  entries := by
    induction hm with
    | access hi hacc =>
      rcases hacc.entries_cases with hsame | ⟨caller, pre, place, rest, hpc, -⟩
      · exact hsame.trans h.entries
      · have hzero := h.ops _ (List.mem_of_getElem? hi)
        simp [hpc, Pc.load] at hzero
    | take hk | discard hk | move hk => simp [h.entries] at hk
    | _ => exact h.entries
  dropped := by
    induction hm with
    | access hi hacc =>
      have hzero := h.ops _ (List.mem_of_getElem? hi)
      rcases hacc.dropped_cases with hsame | ⟨hpc, -⟩ | ⟨caller, pre, rest, hpc, -⟩
      · exact hsame.trans h.dropped
      · simp [hpc, Pc.load] at hzero
      · simp [hpc, Pc.load] at hzero
    | discard hk => simp [h.entries] at hk
    | _ => exact h.dropped
  cancelled := h.cancelled.imp hm.grows.cancelled hm.grows.complete
  ops := by
    intro p hp
    rcases hm.mem_ops hp with
      hp | ⟨i, op, pc, -, hi, hacc, rfl⟩ | ⟨op, hop, result, hpc, rfl⟩ | ⟨hstart, -, hmay, -⟩
    · exact h.ops p hp
    · have hzero := h.ops op (List.mem_of_getElem? hi)
      exact Nat.le_zero.mp ((hacc.claim_le h.cancelled).trans hzero.le)
    · have hzero := h.ops op hop
      simp [hpc, Pc.load] at hzero
    · have hne : p.pc ≠ .toRunning := by
        intro hpc
        obtain ⟨place, hplace, -⟩ := hmay hpc
        simp [h.entries] at hplace
      generalize p.pc = pc at hstart hne
      cases pc <;> first | rfl | exact absurd rfl hne | simp [Pc.isStart] at hstart

theorem Settled.isComplete (h : Settled t) (hcon : Consistent t)
    (hfinalizing : ∀ op ∈ t.ops, op.pc.load.finalizing = 0) :
    (view t.shared.word).complete = true := by
  refine h.cancelled.elim (fun hcancelled => ?_) id
  have hclaims := hcon.claimed.claims
  have hrunning := hcon.claimed.running
  have hhanding : (load t.ops).handing = 0 := total_eq_zero_iff.mpr fun op hop => by
    have := h.ops op hop
    omega
  have hstarting : (load t.ops).starting = 0 := total_eq_zero_iff.mpr fun op hop => by
    have := h.ops op hop
    omega
  have hnone : (load t.ops).running = 0 := total_eq_zero_iff.mpr fun op hop => by
    have := h.ops op hop
    omega
  have hfinal : (load t.ops).finalizing = 0 := total_eq_zero_iff.mpr hfinalizing
  rw [hnone] at hrunning
  have hr : (view t.shared.word).running = false := by simpa using hrunning.symm
  by_contra hincomplete
  have hc : (view t.shared.word).complete = false := by simpa using hincomplete
  simp [Shared.claims, h.entries, h.dropped, hhanding, hstarting, hfinal, hcancelled, hr, hc]
    at hclaims

def listedTasks (tasks : List (Task S)) : List ℕ :=
  (List.range tasks.length).filter fun j => tasks[j]?.any fun t => t.shared.registry = .listed

def takeAll (env : S.Env) (tasks : List (Task S)) : List (Task S) :=
  tasks.map fun t => (step env t .takeRegistry).getD t

/-- The shutdown calls the task's `shutdown`, which makes its first access. -/
def callShutdown (env : S.Env) (thread : S.Thread) (t : Task S) : Option (Task S) :=
  (step env t (.abort thread .registry)).bind fun t' => step env t' (.advance t.ops.length)

/-- Where a shutdown is with the registered tasks: those of `pending` are still to be
cancelled. -/
structure Cancels (tasks : List (Task S)) (taken : Bool) (pending : List ℕ) : Prop where
  listed : taken = true → ∀ t ∈ tasks, t.shared.registry ≠ .listed
  untaken : taken = false → ∀ t ∈ tasks, t.shared.registry ≠ .taken
  cancelled : ∀ (j : ℕ) (t : Task S), tasks[j]? = some t → t.shared.registry = .taken →
    (view t.shared.word).cancelled = true ∨ j ∈ pending

section
variable {tasks : List (Task S)} {taken : Bool} {pending : List ℕ} {j : ℕ}

theorem cancels_nil : Cancels ([] : List (Task S)) false [] := by
  constructor <;> simp

/-- Task `j` moves on. -/
theorem Cancels.set (h : Cancels tasks taken pending) (hj : tasks[j]? = some t)
    (hlisted : taken = true → t'.shared.registry ≠ .listed)
    (htaken : t'.shared.registry = .taken → t.shared.registry = .taken)
    (hcancelled : (view t.shared.word).cancelled = true → (view t'.shared.word).cancelled = true) :
    Cancels (tasks.set j t') taken pending where
  listed := by
    intro hphase p hp
    rcases List.mem_or_eq_of_mem_set hp with hp | rfl
    · exact h.listed hphase p hp
    · exact hlisted hphase
  untaken := by
    intro hphase p hp hreg
    rcases List.mem_or_eq_of_mem_set hp with hp | rfl
    · exact h.untaken hphase p hp hreg
    · exact h.untaken hphase t (List.mem_of_getElem? hj) (htaken hreg)
  cancelled := by
    intro k p hk hreg
    by_cases hjk : j = k
    · subst hjk
      have hlt := (List.getElem?_eq_some_iff.mp hj).1
      obtain rfl : t' = p := by simpa [hlt] using hk
      exact (h.cancelled j t hj (htaken hreg)).imp_left hcancelled
    · rw [List.getElem?_set_ne hjk] at hk
      exact h.cancelled k p hk hreg

/-- An action on task `j` that is not the shutdown's, and registers only before the registry
is taken. -/
theorem Cancels.moves (h : Cancels tasks taken pending) (hj : tasks[j]? = some t)
    (hm : Moves env t a t') (ha : a.ofShutdown = false)
    (hregister : ∀ i op, a = .advance i → t.ops[i]? = some op → op.pc.registers = true →
      (op.pc = .register → S.refuses env = false) → taken = false) :
    Cancels (tasks.set j t') taken pending := by
  have hmem := List.mem_of_getElem? hj
  refine h.set hj (fun hphase hlisted => ?_) (fun htaken => ?_) hm.grows.cancelled
  · rcases hm.registry ha with hsame | ⟨-, i, op, hadv, hi, hpc, hrefuses⟩ | ⟨hlisted', -⟩
    · exact h.listed hphase t hmem (hsame ▸ hlisted)
    · simp [hregister i op hadv hi hpc hrefuses] at hphase
    · exact h.listed hphase t hmem hlisted'
  · rcases hm.registry ha with hsame | ⟨hlisted, -⟩ | ⟨-, hremoved⟩
    · exact hsame ▸ htaken
    · simp [hlisted] at htaken
    · simp [hremoved] at htaken

theorem Cancels.spawn (h : Cancels tasks false pending) (thread : S.Thread) (target : ℕ) :
    Cancels (tasks ++ [Task.new thread target]) false pending where
  listed := by simp
  untaken := by
    intro hphase t ht
    rcases List.mem_append.mp ht with ht | ht
    · exact h.untaken hphase t ht
    · obtain rfl := List.mem_singleton.mp ht
      simp [Task.new]
  cancelled := by
    intro k t hk htaken
    rcases List.mem_append.mp (List.mem_of_getElem? hk) with ht | ht
    · exact absurd htaken (h.untaken rfl t ht)
    · obtain rfl := List.mem_singleton.mp ht
      cases htaken

theorem takeRegistry_eq (env : S.Env) (t : Task S) :
    ((step env t .takeRegistry).getD t).shared.registry =
      if t.shared.registry = .listed then .taken else t.shared.registry := by
  simp only [step]
  split_ifs <;> simp [*]

theorem Cancels.takeAll (h : Cancels tasks false pending) (env : S.Env) :
    Cancels (takeAll env tasks) true (listedTasks tasks) where
  listed := by
    intro _ p hp
    obtain ⟨t, ht, rfl⟩ := List.mem_map.mp hp
    rw [takeRegistry_eq]
    split_ifs with hlisted
    · simp
    · exact hlisted
  untaken := by simp
  cancelled := by
    intro k p hk htaken
    right
    rw [TaskHarness.takeAll, List.getElem?_map] at hk
    obtain ⟨t, ht, rfl⟩ := Option.map_eq_some_iff.mp hk
    rw [takeRegistry_eq] at htaken
    split_ifs at htaken with hlisted
    · refine List.mem_filter.mpr ⟨List.mem_range.mpr (List.getElem?_eq_some_iff.mp ht).1, ?_⟩
      rw [ht, Option.any_some, decide_eq_true_eq]
      exact hlisted
    · exact absurd htaken (h.untaken rfl t (List.mem_of_getElem? ht))

theorem callShutdown_eq (hcon : Consistent t) {thread : S.Thread}
    (hs : callShutdown env thread t = some t') :
    ∃ t₁, step env t (.abort thread .registry) = some t₁ ∧
      step env t₁ (.advance t.ops.length) = some t' ∧
      t₁.ops[t.ops.length]? = some ⟨thread, some .registry, .shutdown⟩ ∧
      (view t'.shared.word).cancelled = true ∧ t'.shared.registry = t.shared.registry := by
  obtain ⟨t₁, habort, hadvance⟩ := Option.bind_eq_some_iff.mp hs
  obtain ⟨hshared, hop⟩ : t₁.shared = t.shared ∧
      t₁.ops[t.ops.length]? = some ⟨thread, some .registry, .shutdown⟩ := by
    cases hcon.moves habort
    exact ⟨rfl, by simp [Task.borrow]⟩
  refine ⟨t₁, habort, hadvance, hop, ?_⟩
  rw [← hshared]
  cases (hcon.step habort).moves hadvance with
  | access hi hacc =>
    rw [hop] at hi
    cases hi
    cases hacc with
    | shutdownBusy hview | shutdownIdle hview => exact ⟨by simp [hview], rfl⟩

/-- Task `j` has been cancelled. -/
theorem Cancels.cancel (h : Cancels tasks true (j :: pending)) (hj : tasks[j]? = some t)
    (hcancelled : (view t'.shared.word).cancelled = true)
    (hregistry : t'.shared.registry = t.shared.registry) : Cancels (tasks.set j t') true pending := by
  have hset := h.set hj (fun htaken => hregistry ▸ h.listed htaken t (List.mem_of_getElem? hj))
    (fun htaken => hregistry ▸ htaken) fun _ => hcancelled
  refine ⟨hset.listed, hset.untaken, fun k p hk htaken => ?_⟩
  by_cases hjk : j = k
  · subst hjk
    have hlt := (List.getElem?_eq_some_iff.mp hj).1
    obtain rfl : t' = p := by simpa [hlt] using hk
    exact .inl hcancelled
  · refine (hset.cancelled k p hk htaken).imp_right fun hpending => ?_
    simpa [Ne.symm hjk] using hpending

end

end Eddy.TaskHarness
