import Eddy.TaskSteps

/-!
# What holds of a task in every interleaving

Each operation in progress contributes a load: the references it owns, whether it holds the
task's queue entry, and so on. The invariants relate the state word to the total load. They are
proved for one access of one operation next to arbitrary others, and lifted to the task.
-/

namespace Eddy.TaskHarness
open TaskState Interleaving

variable {S : Scheduler}

/-- What an operation contributes to the bookkeeping of its task. -/
structure Load where
  /-- References it owns. -/
  refs : ℕ := 0
  /-- It is bringing the queue entry to the scheduler. -/
  handing : ℕ := 0
  /-- It has taken the queue entry and is about to poll. -/
  starting : ℕ := 0
  /-- It holds the RUNNING bit. -/
  running : ℕ := 0
  /-- It is finalizing the task without the RUNNING bit. -/
  finalizing : ℕ := 0
  /-- It has written the stage and will set COMPLETE. -/
  staged : ℕ := 0
  /-- It is inside the future's poll. -/
  polling : ℕ := 0
  /-- It has dropped the last reference. -/
  releasing : ℕ := 0
  /-- Its reference belongs to a deferred deallocation. -/
  deferring : ℕ := 0
  /-- It is going to enter the task in the registry. -/
  registering : ℕ := 0
  /-- It is polling the `JoinHandle`. -/
  joining : ℕ := 0

instance : Add Load where
  add a b :=
    { refs := a.refs + b.refs, handing := a.handing + b.handing
      starting := a.starting + b.starting, running := a.running + b.running
      finalizing := a.finalizing + b.finalizing, staged := a.staged + b.staged
      polling := a.polling + b.polling, releasing := a.releasing + b.releasing
      deferring := a.deferring + b.deferring, registering := a.registering + b.registering
      joining := a.joining + b.joining }

namespace Load
variable (a b : Load)

@[simp] theorem add_refs : (a + b).refs = a.refs + b.refs := rfl
@[simp] theorem add_handing : (a + b).handing = a.handing + b.handing := rfl
@[simp] theorem add_starting : (a + b).starting = a.starting + b.starting := rfl
@[simp] theorem add_running : (a + b).running = a.running + b.running := rfl
@[simp] theorem add_finalizing : (a + b).finalizing = a.finalizing + b.finalizing := rfl
@[simp] theorem add_staged : (a + b).staged = a.staged + b.staged := rfl
@[simp] theorem add_polling : (a + b).polling = a.polling + b.polling := rfl
@[simp] theorem add_releasing : (a + b).releasing = a.releasing + b.releasing := rfl
@[simp] theorem add_deferring : (a + b).deferring = a.deferring + b.deferring := rfl
@[simp] theorem add_registering : (a + b).registering = a.registering + b.registering := rfl
@[simp] theorem add_joining : (a + b).joining = a.joining + b.joining := rfl

end Load

/-- `finalize` with the RUNNING bit still set. -/
def Via.holdsRunning : Via → Bool
  | .ready => true
  | _ => false

/-- The references left to drop. -/
def After.refs : After S → ℕ
  | .again => 1
  | _ => 0

def Pc.load : Pc S → Load
  | .register => { refs := 1, handing := 1, registering := 1 }
  | .registerPush => { refs := 2, handing := 1, registering := 1 }
  | .schedule _ _ => { refs := 1, handing := 1 }
  | .scheduled _ _ => {}
  | .toRunning => { refs := 1, starting := 1 }
  | .lockStage => { refs := 1, running := 1 }
  | .polling => { refs := 1, running := 1, polling := 1 }
  | .toIdle => { refs := 1, running := 1 }
  | .finalizeStage via _ =>
      { refs := via.spends.toNat, running := via.holdsRunning.toNat
        finalizing := (!via.holdsRunning).toNat }
  | .finalizeComplete via =>
      { refs := via.spends.toNat, running := via.holdsRunning.toNat
        finalizing := (!via.holdsRunning).toNat, staged := 1 }
  | .finalizeWake via _ | .finalizeDiscard via | .finalizeRemove via =>
      { refs := via.spends.toNat }
  | .dropReference after => { refs := 1 + after.refs }
  | .dealloc after | .deferInc after => { refs := after.refs, releasing := 1 }
  | .deferPush after => { refs := 1 + after.refs, deferring := 1 }
  | .deallocNow => { refs := 1, deferring := 1 }
  | .wakeByVal => { refs := 1 }
  | .wakeByRef | .shutdown => {}
  | .readOutput _ | .joinStore _ | .joinFlag | .joinRewake => { refs := 1, joining := 1 }
  | .dropJoinInterest | .dropJoinFlag _ | .dropJoinWaker _ | .dropJoinDiscard => { refs := 1 }
  | .finished => {}
  | .unreachable => { refs := 1, running := 1 }

@[simp] theorem After.load_pc (after : After S) : after.pc.load = { refs := after.refs } := by
  cases after <;> rfl

@[simp] theorem After.refs_ofRest (caller : Caller) (rest : Option S.Post) :
    (After.ofRest caller rest).refs = 0 := by
  cases rest <;> rfl

def load (ops : List (Op S)) : Load where
  refs := total (fun op => op.pc.load.refs) ops
  handing := total (fun op => op.pc.load.handing) ops
  starting := total (fun op => op.pc.load.starting) ops
  running := total (fun op => op.pc.load.running) ops
  finalizing := total (fun op => op.pc.load.finalizing) ops
  staged := total (fun op => op.pc.load.staged) ops
  polling := total (fun op => op.pc.load.polling) ops
  releasing := total (fun op => op.pc.load.releasing) ops
  deferring := total (fun op => op.pc.load.deferring) ops
  registering := total (fun op => op.pc.load.registering) ops
  joining := total (fun op => op.pc.load.joining) ops

@[simp] theorem load_nil : load ([] : List (Op S)) = {} := rfl

theorem load_append_singleton (ops : List (Op S)) (op : Op S) :
    load (ops ++ [op]) = load ops + op.pc.load := by
  simp only [load, total_append, total_cons, total_nil, Nat.add_zero]
  rfl

variable {i : ℕ} {ops : List (Op S)} {op : Op S}

/-- The operations are one of them and the others. -/
theorem load_eraseIdx (h : ops[i]? = some op) :
    load ops = load (ops.eraseIdx i) + op.pc.load := by
  simp only [load, total_eraseIdx _ h]
  rfl

theorem load_set (h : ops[i]? = some op) (op' : Op S) :
    load (ops.set i op') = load (ops.eraseIdx i) + op'.pc.load := by
  have hi : (ops.set i op')[i]? = some op' := by
    simp [(List.getElem?_eq_some_iff.mp h).1]
  rw [load_eraseIdx hi, List.eraseIdx_set_eq]

theorem refs_le_load (h : ops[i]? = some op) :
    op.pc.load.refs ≤ (load ops).refs :=
  le_total (fun op : Op S => op.pc.load.refs) h

theorem releasing_le_load (h : ops[i]? = some op) :
    op.pc.load.releasing ≤ (load ops).releasing :=
  le_total (fun op : Op S => op.pc.load.releasing) h

/-- Relations between the parts of a load, true of every single operation. -/
structure Load.Sane (l : Load) : Prop where
  staged : l.staged + l.polling ≤ l.running + l.finalizing
  refs : l.polling + l.deferring ≤ l.refs

theorem load_sane (ops : List (Op S)) : (load ops).Sane where
  staged := by
    simp only [load, ← total_add]
    refine total_mono (fun op => ?_) ops
    cases op.pc <;> simp only [Pc.load] <;> try omega
    rename_i via
    cases via <;> simp [Via.holdsRunning]
  refs := by
    simp only [load, ← total_add]
    refine total_mono (fun op => ?_) ops
    cases op.pc <;> simp only [Pc.load] <;> omega

def Registry.refs : Registry → ℕ
  | .listed | .taken => 1
  | _ => 0

def Registry.vacant : Registry → ℕ
  | .absent => 1
  | _ => 0

/-- The references held outside of running operations. -/
def Shared.handles (sh : Shared S) : ℕ :=
  sh.entries.length + sh.deferred + sh.leaked + sh.registry.refs + sh.joinHandle.toNat +
    sh.wakers + sh.aborts

/-- The count in the word is the number of owners, until the last one frees the cell. -/
structure Counted (sh : Shared S) (l : Load) : Prop where
  bounded : (view sh.word).refs ≤ refMaxCount
  owners : sh.freed = false → (view sh.word).refs = sh.handles + l.refs
  gone : sh.freed = true → sh.handles + l.refs + l.releasing = 0
  releasing : sh.freed = false → l.releasing = if (view sh.word).refs = 0 then 1 else 0
  deferring : sh.freed = false → 0 < sh.deferred + sh.leaked + l.deferring →
    (view sh.word).refs = 1
  /-- A task is registered at most once. -/
  registering : l.registering ≤ sh.registry.vacant
  joining : l.joining + sh.joinHandle.toNat ≤ 1

/-- Some owner exists that is not a deferred deallocation. -/
def Lent (sh : Shared S) (l : Load) : Prop :=
  sh.deferred + sh.leaked + l.deferring < sh.handles + l.refs

section
variable {sh sh' : Shared S} {l : Load} {pc pc' : Pc S} {env : S.Env} {thread : S.Thread}

/-- A step that moves references between owners and leaves the count alone. -/
theorem Counted.moved (h : Counted sh (l + pc.load))
    (hrefs : (view sh'.word).refs = (view sh.word).refs) (hfreed : sh'.freed = sh.freed)
    (howners : sh'.handles + pc'.load.refs = sh.handles + pc.load.refs)
    (hreleasing : pc'.load.releasing = pc.load.releasing)
    (hdeferring : sh'.deferred + sh'.leaked + pc'.load.deferring =
      sh.deferred + sh.leaked + pc.load.deferring)
    (hregistry : pc'.load.registering + sh.registry.vacant ≤
      pc.load.registering + sh'.registry.vacant)
    (hjoin : pc'.load.joining + sh'.joinHandle.toNat ≤ pc.load.joining + sh.joinHandle.toNat) :
    Counted sh' (l + pc'.load) := by
  obtain ⟨bounded, owners, gone, releasing, deferring, registering, joining⟩ := h
  simp only [Load.add_refs, Load.add_releasing, Load.add_deferring,
    Load.add_registering, Load.add_joining] at owners gone releasing deferring registering joining
  refine ⟨hrefs ▸ bounded, fun hf => ?_, fun hf => ?_, fun hf => ?_, fun hf hd => ?_, ?_, ?_⟩
  · have := owners (hfreed ▸ hf)
    simp only [Load.add_refs]
    omega
  · have := gone (hfreed ▸ hf)
    simp only [Load.add_refs, Load.add_releasing]
    omega
  · have := releasing (hfreed ▸ hf)
    simp only [Load.add_releasing, hrefs]
    omega
  · rw [hrefs]
    refine deferring (hfreed ▸ hf) ?_
    simp only [Load.add_deferring] at hd
    omega
  · simp only [Load.add_registering]
    omega
  · simp only [Load.add_joining]
    omega

/-- An owner that is not a deferred deallocation makes a new one. -/
theorem Counted.incremented (h : Counted sh (l + pc.load)) (hlent : Lent sh (l + pc.load))
    (hrefs : (view sh'.word).refs = (view sh.word).refs + 1)
    (hmax : (view sh.word).refs < refMaxCount) (hfreed : sh'.freed = sh.freed)
    (howners : sh'.handles + pc'.load.refs = sh.handles + pc.load.refs + 1)
    (hreleasing : pc'.load.releasing = pc.load.releasing)
    (hdeferring : sh'.deferred + sh'.leaked + pc'.load.deferring =
      sh.deferred + sh.leaked + pc.load.deferring)
    (hregistry : pc'.load.registering + sh.registry.vacant ≤
      pc.load.registering + sh'.registry.vacant)
    (hjoin : pc'.load.joining + sh'.joinHandle.toNat ≤ pc.load.joining + sh.joinHandle.toNat) :
    Counted sh' (l + pc'.load) := by
  obtain ⟨bounded, owners, gone, releasing, deferring, registering, joining⟩ := h
  simp only [Lent, Load.add_refs, Load.add_releasing, Load.add_deferring,
    Load.add_registering, Load.add_joining] at owners gone releasing deferring registering joining hlent
  have hlive : sh.freed = false := by
    by_contra hf
    have := gone (by simpa using hf)
    omega
  have howned := owners hlive
  have hrel := releasing hlive
  rw [if_neg (by omega)] at hrel
  have hnone : sh.deferred + sh.leaked + (l.deferring + pc.load.deferring) = 0 := by
    by_contra hd
    have := deferring hlive (by omega)
    omega
  refine ⟨by omega, fun _ => ?_, fun hf => ?_, fun _ => ?_, fun _ hd => ?_, ?_, ?_⟩
  · simp only [Load.add_refs]
    omega
  · simp [hfreed, hlive] at hf
  · simp only [Load.add_releasing]
    rw [if_neg (by omega)]
    omega
  · simp only [Load.add_deferring] at hd
    omega
  · simp only [Load.add_registering]
    omega
  · simp only [Load.add_joining]
    omega

/-- An operation that owns a reference works on a live cell with a positive count. -/
theorem Counted.positive (h : Counted sh (l + pc.load)) (hpc : 0 < pc.load.refs) :
    sh.freed = false ∧ 0 < (view sh.word).refs := by
  have hlive : sh.freed = false := by
    by_contra hf
    have := h.gone (by simpa using hf)
    simp only [Load.add_refs] at this
    omega
  have howned := h.owners hlive
  simp only [Load.add_refs] at howned
  exact ⟨hlive, by omega⟩

theorem Counted.access (h : Counted sh (l + pc.load))
    (hs : opStep env thread sh pc = some (sh', pc')) : Access env thread sh pc sh' pc' := by
  refine access_of_opStep (fun after hpc => ?_) hs
  subst hpc
  exact (h.positive (show 0 < 1 + after.refs by omega)).2

theorem Counted.dropReference {after : After S} {word : UInt64} (hl : l.Sane)
    (h : Counted sh (l + (Pc.dropReference after : Pc S).load))
    (hview : view word = { view sh.word with refs := (view sh.word).refs - 1 }) :
    ((view sh.word).refs = 1 →
      Counted { sh with word := word } (l + (Pc.dealloc after : Pc S).load)) ∧
    ((view sh.word).refs ≠ 1 → Counted { sh with word := word } (l + after.pc.load)) := by
  obtain ⟨hlive, hpos⟩ := h.positive (show 0 < 1 + after.refs by omega)
  obtain ⟨bounded, owners, gone, releasing, deferring, registering, joining⟩ := h
  have hsane := hl.refs
  have hhandles : sh.deferred + sh.leaked ≤ sh.handles := by
    simp only [Shared.handles]
    omega
  have howned := owners hlive
  have hrel := releasing hlive
  rw [if_neg hpos.ne'] at hrel
  simp only [Pc.load, Load.add_refs, Load.add_releasing, Load.add_deferring, Load.add_registering,
    Load.add_joining] at howned hrel deferring registering joining
  refine ⟨fun hlast => ?_, fun hmore => ?_⟩
  · have hrefs : (view word).refs = 0 := by simp [hview, hlast]
    refine ⟨by simp [hrefs], fun _ => ?_, fun hf => ?_, fun _ => ?_, fun _ hd => ?_, registering,
      joining⟩
    · simp only [Pc.load, Load.add_refs, hrefs, Shared.handles] at howned ⊢
      omega
    · simp [hlive] at hf
    · simp only [Pc.load, Load.add_releasing, hrefs, ↓reduceIte]
      omega
    · simp only [Pc.load, Load.add_deferring] at hd
      omega
  · have hrefs : (view word).refs = (view sh.word).refs - 1 := by simp [hview]
    refine ⟨by simp only [hrefs]; omega, fun _ => ?_, fun hf => ?_, fun _ => ?_, fun _ hd => ?_,
      ?_, ?_⟩
    · simp only [After.load_pc, Load.add_refs, hrefs, Shared.handles] at howned ⊢
      omega
    · simp [hlive] at hf
    · simp only [After.load_pc, Load.add_releasing, hrefs]
      rw [if_neg (by omega)]
      omega
    · simp only [After.load_pc, Load.add_deferring] at hd
      have := deferring hlive (by omega)
      omega
    · simpa only [After.load_pc, Load.add_registering] using registering
    · simpa only [After.load_pc, Load.add_joining] using joining

/-- The last owner frees the cell. -/
theorem Counted.freed (h : Counted sh (l + pc.load)) (hlast : sh.freed = false →
      sh.handles + l.refs + l.releasing + pc'.load.refs + pc'.load.releasing = 0)
    (hbounded : (view sh'.word).refs ≤ refMaxCount) (hfreed : sh'.freed = true)
    (hhandles : sh'.handles = sh.handles) (hregistry : sh'.registry = sh.registry)
    (hpc : pc'.load.refs + pc'.load.releasing ≤ pc.load.refs + pc.load.releasing)
    (hpc' : pc'.load.registering = 0) (hjoin : sh'.joinHandle = sh.joinHandle)
    (hpc'' : pc'.load.joining = 0) : Counted sh' (l + pc'.load) := by
  have hreg := h.registering
  have hj := h.joining
  simp only [Load.add_registering, Load.add_joining] at hreg hj
  refine ⟨hbounded, by simp [hfreed], fun _ => ?_, by simp [hfreed], by simp [hfreed],
    by simp only [Load.add_registering, hregistry]; omega,
    by simp only [Load.add_joining, hjoin]; omega⟩
  simp only [Load.add_refs, Load.add_releasing, hhandles]
  cases hf : sh.freed with
  | false =>
    have := hlast hf
    omega
  | true =>
    have := h.gone hf
    simp only [Load.add_refs, Load.add_releasing] at this
    omega

/-- An owner that is not itself a deferred deallocation. -/
theorem Lent.of_refs (hl : l.Sane) (hpc : pc.load.deferring < pc.load.refs) :
    Lent sh (l + pc.load) := by
  have := hl.refs
  simp only [Lent, Shared.handles, Load.add_refs, Load.add_deferring]
  omega

theorem Counted.vacant (h : Counted sh (l + pc.load)) (hpc : pc.load.registering = 1) :
    sh.registry = .absent ∧ l.registering = 0 := by
  have hreg := h.registering
  simp only [Load.add_registering, hpc] at hreg
  cases hr : sh.registry <;> simp only [hr, Registry.vacant] at hreg <;> first | omega | skip
  exact ⟨rfl, by omega⟩

/-- The `JoinHandle` is with the operation that polls it. -/
theorem Counted.unjoined (h : Counted sh (l + pc.load)) (hpc : pc.load.joining = 1) :
    sh.joinHandle = false := by
  have hj := h.joining
  simp only [Load.add_joining, hpc] at hj
  cases hjoin : sh.joinHandle with
  | false => rfl
  | true =>
    rw [hjoin] at hj
    simp at hj

/-- The count is raised again for a deferred deallocation, which is then the only owner. -/
theorem Counted.resurrected {after : After S} {word : UInt64}
    (h : Counted sh (l + (Pc.deferInc after : Pc S).load))
    (hview : view word = { view sh.word with refs := (view sh.word).refs + 1 })
    (hmax : (view sh.word).refs < refMaxCount) :
    Counted { sh with word := word } (l + (Pc.deferPush after : Pc S).load) := by
  obtain ⟨bounded, owners, gone, releasing, deferring, registering, joining⟩ := h
  simp only [Pc.load, Load.add_refs, Load.add_releasing] at owners gone releasing
  have hrefs : (view word).refs = (view sh.word).refs + 1 := by rw [hview]
  have hlive : sh.freed = false := by
    by_contra hf
    have := gone (by simpa using hf)
    omega
  have hrel := releasing hlive
  have hzero : (view sh.word).refs = 0 := by
    by_contra hne
    rw [if_neg hne] at hrel
    omega
  rw [if_pos hzero] at hrel
  have howned := owners hlive
  refine ⟨by simp only [hrefs]; omega, fun _ => ?_, fun hf => ?_, fun _ => ?_, fun _ _ => ?_,
    registering, joining⟩
  · simp only [Pc.load, Load.add_refs, hrefs, Shared.handles] at howned ⊢
    omega
  · simp [hlive] at hf
  · simp only [Pc.load, Load.add_releasing, hrefs, hzero]
    rw [if_neg (by omega)]
    omega
  · simp only [hrefs, hzero]

theorem Counted.of_access (hl : l.Sane) (hlent : pc = .wakeByRef → Lent sh (l + pc.load))
    (h : Counted sh (l + pc.load)) (hs : Access env thread sh pc sh' pc') :
    Counted sh' (l + pc'.load) := by
  cases hs with
  | refused => exact h.moved rfl rfl rfl rfl rfl (by simp [Pc.load]) le_rfl
  | registerLocked hrefuses hlocked hview hmax =>
    obtain ⟨habsent, -⟩ := h.vacant rfl
    exact h.incremented (.of_refs hl Nat.one_pos) (by simp [hview]) hmax rfl
      (by simp [Shared.handles, Registry.refs, Pc.load, habsent]; omega) rfl rfl
      (by simp [Pc.load, habsent, Registry.vacant]) le_rfl
  | register hrefuses hlocked hview hmax =>
    exact h.incremented (.of_refs hl Nat.one_pos) (by simp [hview]) hmax rfl rfl rfl rfl le_rfl le_rfl
  | registerPush =>
    obtain ⟨habsent, -⟩ := h.vacant rfl
    exact h.moved rfl rfl (by simp [Shared.handles, Registry.refs, Pc.load, habsent]; omega) rfl rfl
      (by simp [Pc.load, habsent, Registry.vacant]) le_rfl
  | @queued caller pre place rest =>
    cases rest <;>
      exact h.moved rfl rfl (by simp [Shared.handles, After.ofRest, After.pc, Pc.load]; omega) rfl
        rfl le_rfl le_rfl
  | @dropped caller pre rest => cases rest <;> exact h.moved rfl rfl rfl rfl rfl le_rfl le_rfl
  | @removed via hreg hvia | @removedByRef via hreg hvia =>
    refine h.moved rfl rfl ?_ rfl rfl ?_ le_rfl
    · simp [Shared.handles, Registry.refs, Pc.load, After.refs, hreg, hvia]
      omega
    · simp [Pc.load, Registry.vacant, hreg]
  | @unlisted via hreg hvia | @unlistedByRef via hreg hvia =>
    exact h.moved rfl rfl (by simp [Pc.load, After.refs, hvia]) rfl rfl le_rfl le_rfl
  | droppedLast hview hlast => exact (h.dropReference hl hview).1 hlast
  | droppedReference hview hmore => exact (h.dropReference hl hview).2 hmore
  | @dealloc after =>
    refine h.freed (fun hlive => ?_) h.bounded rfl rfl rfl ?_ ?_ rfl ?_
    · have howned := h.owners hlive
      have hrel := h.releasing hlive
      rw [After.load_pc]
      simp only [Pc.load, Load.add_refs, Load.add_releasing] at howned hrel ⊢
      split_ifs at hrel
      omega
    all_goals cases after <;> simp [After.pc, After.refs, Pc.load]
  | deferInc hview hmax => exact h.resurrected hview hmax
  | @forgotten after | @deferred after =>
    cases after
    all_goals
      refine h.moved rfl rfl ?_ rfl ?_ le_rfl le_rfl <;>
        simp [Shared.handles, After.pc, After.refs, Pc.load] <;> omega
  | deallocNow =>
    refine h.freed (fun hlive => ?_) h.bounded rfl rfl rfl (by simp [Pc.load]) rfl rfl rfl
    have hone := h.deferring hlive (by simp [Pc.load])
    have howned := h.owners hlive
    have hrel := h.releasing hlive
    rw [hone, if_neg Nat.one_ne_zero] at hrel
    simp only [Pc.load, Load.add_refs, Load.add_releasing] at howned hrel ⊢
    omega
  | wakeByRef hview hc hx hn hr hmax =>
    exact h.incremented (hlent rfl) (by simp [hview]) hmax rfl rfl rfl rfl le_rfl le_rfl
  | readOutput => exact h.moved rfl rfl rfl rfl rfl le_rfl (by simp [Pc.load])
  | joinFlag hview =>
    have habsent := h.unjoined rfl
    exact h.moved (by simp [hview]) rfl (by simp [Shared.handles, Pc.load, habsent]; omega) rfl rfl
      le_rfl (by simp [Pc.load, habsent])
  | joinRewake =>
    have habsent := h.unjoined rfl
    exact h.moved rfl rfl (by simp [Shared.handles, Pc.load, habsent]; omega) rfl rfl le_rfl
      (by simp [Pc.load, habsent])
  | pollStarts hc hx hr hview =>
    exact h.moved (by simp [hview]) rfl rfl rfl rfl le_rfl le_rfl
  | idleCancelled hview | idleNotified hview | idle hview | finalizeComplete hview
  | wakeByValRunning hview | wakeByVal hview | wakeByRefRunning hview | shutdownBusy hview
  | shutdownIdle hview | dropJoinInterest hview | dropJoinFlag hview =>
    exact h.moved (by simp [hview]) rfl rfl rfl rfl le_rfl le_rfl
  | _ => exact h.moved rfl rfl rfl rfl rfl le_rfl le_rfl

end

/-- The flags of a task of which `r` operations hold the RUNNING bit, `q` queue entries are
queued or in the hands of an operation, `f` operations are finalizing without the RUNNING
bit and `d` entries were dropped by the scheduler. -/
structure Claims (v : View) (r q f d : ℕ) (sawCancelled : Bool) : Prop where
  running : r = v.running.toNat
  claims : q + f + d = (!v.complete && !v.running && (v.notified || v.cancelled)).toNat
  complete : v.complete = true → v.notified = false ∧ v.running = false
  unnotified : v.notified = false → q + d = 0
  uncancelled : v.cancelled = false → f = 0
  sawCancelled : sawCancelled = true → v.cancelled = true ∧ v.running = false

namespace Claims
variable {v v' : View} {r q f d : ℕ} {saw : Bool}

theorem congr (h : Claims v r q f d saw) (hr : v'.running = v.running)
    (hc : v'.complete = v.complete) (hn : v'.notified = v.notified)
    (hx : v'.cancelled = v.cancelled) : Claims v' r q f d saw := by
  obtain ⟨running, claims, complete, unnotified, uncancelled, sawCancelled⟩ := h
  constructor <;> simp only [hr, hc, hn, hx] <;> assumption

theorem of_entry (h : Claims v r (q + 1) f d saw) :
    v.complete = false ∧ v.running = false ∧ v.notified = true ∧ r = 0 ∧ q + f + d = 0 := by
  obtain ⟨running, claims, complete, unnotified, uncancelled, sawCancelled⟩ := h
  cases hr : v.running <;> cases hc : v.complete <;> cases hn : v.notified <;>
    cases hx : v.cancelled <;> simp [hr, hc, hn, hx] at running claims unnotified <;> simp <;> omega

/-- A task whose RUNNING bit is held is not complete, has no entry and is not finalized. -/
theorem of_running (h : Claims v (r + 1) q f d saw) :
    v.running = true ∧ v.complete = false ∧ r = 0 ∧ q + f + d = 0 ∧ saw = false := by
  obtain ⟨running, claims, complete, unnotified, uncancelled, sawCancelled⟩ := h
  have hr : v.running = true := by
    by_contra hr
    simp [Bool.eq_false_iff.mpr hr] at running
  have hc : v.complete = false := by
    by_contra hc
    simp [hr] at complete
    exact hc complete
  have hs : saw = false := by
    by_contra hs
    have := (sawCancelled (by simpa using hs)).2
    simp [hr] at this
  simp [hr, hc] at running claims
  exact ⟨hr, hc, by omega, by omega, hs⟩

theorem of_finalizing (h : Claims v r q (f + 1) d saw) :
    v.cancelled = true ∧ v.running = false ∧ v.complete = false ∧ r = 0 ∧ q + f + d = 0 := by
  obtain ⟨running, claims, complete, unnotified, uncancelled, sawCancelled⟩ := h
  cases hr : v.running <;> cases hc : v.complete <;> cases hn : v.notified <;>
    cases hx : v.cancelled <;> simp [hr, hc, hn, hx] at running claims uncancelled <;> simp <;>
    omega

theorem toRunning (h : Claims v r (q + 1) f d saw) (hx : v.cancelled = false) :
    Claims { v with running := true, notified := false } (r + 1) q f d saw := by
  obtain ⟨hc, hr, hn, hr0, hz⟩ := h.of_entry
  have hsaw : saw = false := by
    by_contra hs
    simpa [hx] using (h.sawCancelled (by simpa using hs)).1
  refine ⟨?_, ?_, ?_, fun _ => by omega, fun _ => by omega, ?_⟩ <;> simp [hc, hsaw] <;> omega

theorem finalizeEntry (h : Claims v r (q + 1) f d saw) (hx : v.cancelled = true) :
    Claims v r q (f + 1) d true := by
  obtain ⟨hc, hr, hn, hr0, hz⟩ := h.of_entry
  refine ⟨?_, ?_, ?_, ?_, ?_, ?_⟩ <;> simp [hc, hr, hn, hx] <;> omega

theorem toIdleCancelled (h : Claims v (r + 1) q f d saw) (hx : v.cancelled = true) :
    Claims { v with running := false } r q (f + 1) d true := by
  obtain ⟨hr, hc, hr0, hz, -⟩ := h.of_running
  refine ⟨?_, ?_, ?_, fun _ => ?_, ?_, ?_⟩ <;> simp [hc, hx] <;> omega

theorem toIdleNotified (h : Claims v (r + 1) q f d saw) (hx : v.cancelled = false)
    (hn : v.notified = true) : Claims { v with running := false } r (q + 1) f d saw := by
  obtain ⟨hr, hc, hr0, hz, hs⟩ := h.of_running
  refine ⟨?_, ?_, ?_, ?_, ?_, ?_⟩ <;> simp [hc, hx, hn, hs] <;> omega

theorem toIdle (h : Claims v (r + 1) q f d saw) (hx : v.cancelled = false)
    (hn : v.notified = false) : Claims { v with running := false } r q f d saw := by
  obtain ⟨hr, hc, hr0, hz, hs⟩ := h.of_running
  refine ⟨?_, ?_, ?_, ?_, ?_, ?_⟩ <;> simp [hc, hx, hn, hs] <;> omega

theorem completeRunning (h : Claims v (r + 1) q f d saw) :
    Claims { v with running := false, complete := true, notified := false } r q f d saw := by
  obtain ⟨hr, hc, hr0, hz, hs⟩ := h.of_running
  refine ⟨?_, ?_, ?_, fun _ => by omega, fun _ => by omega, ?_⟩ <;> simp [hs] <;> omega

theorem completeFinalizing (h : Claims v r q (f + 1) d saw) :
    Claims { v with running := false, complete := true, notified := false } r q f d saw := by
  obtain ⟨hx, hr, hc, hr0, hz⟩ := h.of_finalizing
  refine ⟨?_, ?_, ?_, fun _ => by omega, fun _ => by omega, fun _ => ?_⟩ <;> simp [hx] <;> omega

theorem notifyRunning (h : Claims v r q f d saw) (hc : v.complete = false) (hr : v.running = true) :
    Claims { v with notified := true } r q f d saw := by
  obtain ⟨running, claims, complete, unnotified, uncancelled, sawCancelled⟩ := h
  refine ⟨running, ?_, ?_, ?_, uncancelled, sawCancelled⟩ <;> simp [hc, hr] at claims ⊢
  omega

theorem notifyIdle (h : Claims v r q f d saw) (hc : v.complete = false) (hx : v.cancelled = false)
    (hn : v.notified = false) (hr : v.running = false) :
    Claims { v with notified := true } r (q + 1) f d saw := by
  obtain ⟨running, claims, complete, unnotified, uncancelled, sawCancelled⟩ := h
  refine ⟨running, ?_, ?_, ?_, uncancelled, sawCancelled⟩ <;> simp [hc, hr, hx, hn] at claims ⊢
  omega

/-- Cancelling a task that somebody else will finalize. -/
theorem cancel (h : Claims v r q f d saw) (hbusy : v.complete = true ∨ v.cancelled = true ∨
      v.running = true ∨ v.notified = true) :
    Claims { v with cancelled := true } r q f d saw := by
  obtain ⟨running, claims, complete, unnotified, uncancelled, sawCancelled⟩ := h
  refine ⟨running, ?_, complete, unnotified, ?_, fun hs => ⟨rfl, (sawCancelled hs).2⟩⟩
  · rcases hbusy with hb | hb | hb | hb <;> simp [hb] at claims ⊢ <;> omega
  · simp

theorem cancelIdle (h : Claims v r q f d saw) (hc : v.complete = false)
    (hx : v.cancelled = false) (hr : v.running = false) (hn : v.notified = false) :
    Claims { v with cancelled := true } r q (f + 1) d saw := by
  obtain ⟨running, claims, complete, unnotified, uncancelled, sawCancelled⟩ := h
  refine ⟨running, ?_, complete, unnotified, ?_, fun hs => ⟨rfl, (sawCancelled hs).2⟩⟩ <;>
    simp [hc, hx, hr, hn] at claims ⊢
  omega

end Claims

/-- The queue entries, together with the operations that hold one. -/
def Shared.claims (sh : Shared S) (l : Load) : ℕ := sh.entries.length + l.handing + l.starting

def Claimed (sh : Shared S) (l : Load) : Prop :=
  Claims (view sh.word) l.running (sh.claims l) l.finalizing sh.dropped sh.sawCancelled

section
variable {sh sh' : Shared S} {l : Load} {pc pc' : Pc S} {env : S.Env} {thread : S.Thread}

/-- The share of one operation in the claims. -/
theorem claimed_add : Claimed sh (l + pc.load) ↔
    Claims (view sh.word) (l.running + pc.load.running)
      (sh.claims l + (pc.load.handing + pc.load.starting)) (l.finalizing + pc.load.finalizing)
      sh.dropped sh.sawCancelled := by
  have hq : sh.claims (l + pc.load) = sh.claims l + (pc.load.handing + pc.load.starting) := by
    simp only [Shared.claims, Load.add_handing, Load.add_starting]
    omega
  rw [Claimed, hq, Load.add_running, Load.add_finalizing]

/-- A step that changes neither the flags nor who holds what. -/
theorem Claimed.moved (h : Claimed sh (l + pc.load))
    (hview : (view sh'.word).running = (view sh.word).running ∧
      (view sh'.word).complete = (view sh.word).complete ∧
      (view sh'.word).notified = (view sh.word).notified ∧
      (view sh'.word).cancelled = (view sh.word).cancelled)
    (hrunning : pc'.load.running = pc.load.running)
    (hclaims : sh'.entries.length + (pc'.load.handing + pc'.load.starting) =
      sh.entries.length + (pc.load.handing + pc.load.starting))
    (hfinalizing : pc'.load.finalizing = pc.load.finalizing) (hdropped : sh'.dropped = sh.dropped)
    (hsaw : sh'.sawCancelled = sh.sawCancelled) : Claimed sh' (l + pc'.load) := by
  rw [claimed_add] at h ⊢
  have hq : sh'.claims l + (pc'.load.handing + pc'.load.starting) =
      sh.claims l + (pc.load.handing + pc.load.starting) := by
    simp only [Shared.claims]
    omega
  rw [hq, hdropped, hsaw, hrunning, hfinalizing]
  exact h.congr hview.1 hview.2.1 hview.2.2.1 hview.2.2.2

/-- The scheduler drops the queue entry instead of queueing it. -/
theorem Claims.drop {v : View} {r q f d : ℕ} {saw : Bool} (h : Claims v r (q + 1) f d saw) :
    Claims v r q f (d + 1) saw := by
  obtain ⟨running, claims, complete, unnotified, uncancelled, sawCancelled⟩ := h
  exact ⟨running, by omega, complete, fun hn => by have := unnotified hn; omega, uncancelled,
    sawCancelled⟩

theorem Claimed.of_access (h : Claimed sh (l + pc.load)) (hs : Access env thread sh pc sh' pc') :
    Claimed sh' (l + pc'.load) := by
  have hadd := claimed_add.mp h
  have hsame : (view sh.word).running = (view sh.word).running ∧
      (view sh.word).complete = (view sh.word).complete ∧
      (view sh.word).notified = (view sh.word).notified ∧
      (view sh.word).cancelled = (view sh.word).cancelled := ⟨rfl, rfl, rfl, rfl⟩
  cases hs with
  | refused | dropped => exact claimed_add.mpr (Claims.drop hadd)
  | @queued caller pre place rest =>
    cases rest <;>
      exact h.moved hsame rfl (by simp [After.ofRest, After.pc, Pc.load]) rfl rfl rfl
  | pollStarts hc hx hr hview =>
    rw [claimed_add]
    simp only [hview]
    exact Claims.toRunning hadd hx
  | entryCancelled hx => exact claimed_add.mpr (Claims.finalizeEntry hadd hx)
  | staleEntry hstale =>
    obtain ⟨hc, hr, -⟩ := Claims.of_entry hadd
    simp [hc, hr] at hstale
  | idleCancelled hview hx =>
    rw [claimed_add]
    simp only [hview]
    exact Claims.toIdleCancelled hadd hx
  | idleNotified hview hx hn =>
    rw [claimed_add]
    simp only [hview]
    exact Claims.toIdleNotified hadd hx hn
  | idle hview hx hn =>
    rw [claimed_add]
    simp only [hview]
    exact Claims.toIdle hadd hx hn
  | @finalizeComplete via word joinInterest hview =>
    rw [claimed_add]
    simp only [hview]
    cases via
    · exact Claims.completeRunning hadd
    all_goals exact Claims.completeFinalizing hadd
  | @droppedReference after word hview | @dealloc after | @forgotten after | @deferred after =>
    cases after <;> exact h.moved (by simp [*]) rfl rfl rfl rfl rfl
  | wakeByValRunning hview hx hr hc | wakeByRefRunning hview hx hr hc =>
    rw [claimed_add]
    simp only [hview]
    exact Claims.notifyRunning hadd hc hr
  | wakeByVal hview hc hx hn hr | wakeByRef hview hc hx hn hr =>
    rw [claimed_add]
    simp only [hview]
    exact Claims.congr (Claims.notifyIdle hadd hc hx hn hr) rfl rfl rfl rfl
  | shutdownBusy hview hbusy =>
    rw [claimed_add]
    simp only [hview]
    exact Claims.cancel hadd hbusy
  | shutdownIdle hview hc hx hr hn =>
    rw [claimed_add]
    simp only [hview]
    exact Claims.cancelIdle hadd hc hx hr hn
  | registerLocked _ _ hview | register _ _ hview | droppedLast hview | deferInc hview
  | joinFlag hview | dropJoinInterest hview | dropJoinFlag hview =>
    exact h.moved (by simp [hview]) rfl rfl rfl rfl rfl
  | _ => exact h.moved hsame rfl rfl rfl rfl rfl

end

/-- The future is in the stage until `finalize` replaces it, which happens once. -/
structure Staged (sh : Shared S) (l : Load) : Prop where
  finalized : sh.finalized = (view sh.word).complete.toNat + l.staged
  stage : sh.stage = .running ↔ sh.finalized = 0
  locked : l.polling = sh.stageLocked.toNat

section
variable {sh sh' : Shared S} {l : Load} {pc pc' : Pc S} {env : S.Env} {thread : S.Thread}

theorem Staged.moved (h : Staged sh (l + pc.load))
    (hcomplete : (view sh'.word).complete = (view sh.word).complete)
    (hfinalized : sh'.finalized = sh.finalized)
    (hstage : sh'.stage = .running ↔ sh.stage = .running)
    (hlocked : sh'.stageLocked = sh.stageLocked) (hstaged : pc'.load.staged = pc.load.staged)
    (hpolling : pc'.load.polling = pc.load.polling) : Staged sh' (l + pc'.load) where
  finalized := by
    rw [hfinalized, hcomplete, Load.add_staged, hstaged]
    exact h.finalized
  stage := by
    rw [hstage, hfinalized]
    exact h.stage
  locked := by
    rw [hlocked, Load.add_polling, hpolling]
    exact h.locked

theorem Staged.future (hl : l.Sane) (hclaim : Claimed sh (l + pc.load))
    (h : Staged sh (l + pc.load))
    (hpc : pc.load.running = 1) (hstaged : pc.load.staged = 0) : sh.stage = .running := by
  have hadd := claimed_add.mp hclaim
  rw [hpc] at hadd
  obtain ⟨-, hc, hr, hz, -⟩ := hadd.of_running
  have hsane := hl.staged
  rw [h.stage, h.finalized, hc, Load.add_staged, hstaged]
  simp only [Bool.toNat_false]
  omega

theorem Staged.of_access (hl : l.Sane) (hclaim : Claimed sh (l + pc.load))
    (h : Staged sh (l + pc.load)) (hs : Access env thread sh pc sh' pc') :
    Staged sh' (l + pc'.load) := by
  cases hs with
  | @queued caller pre place rest => cases rest <;> exact h.moved rfl rfl Iff.rfl rfl rfl rfl
  | stageLocked hlock =>
    refine ⟨h.finalized, h.stage, ?_⟩
    have hlocked := h.locked
    simp only [Pc.load, Load.add_polling, hlock, Bool.toNat_false] at hlocked
    simp only [Pc.load, Load.add_polling, Shared.touchFuture, Bool.toNat_true]
    omega
  | stageUnreachable hstage => exact absurd (h.future hl hclaim rfl rfl) hstage
  | finalizeStage =>
    have hfin := h.finalized
    refine ⟨?_, by simp, h.locked⟩
    simp only [Pc.load, Load.add_staged] at hfin ⊢
    omega
  | @finalizeComplete via word joinInterest hview =>
    have hc : (view sh.word).complete = false := by
      have hadd := claimed_add.mp hclaim
      cases via
      · exact (Claims.of_running hadd).2.1
      all_goals exact (Claims.of_finalizing hadd).2.2.1
    have hfin := h.finalized
    refine ⟨?_, h.stage, h.locked⟩
    simp only [Pc.load, Load.add_staged, hc, Bool.toNat_false] at hfin
    simp [hview, Pc.load, hfin]
    omega
  | finalizeDiscard hstage | dropJoinDiscard hstage => exact h.moved rfl rfl hstage rfl rfl rfl
  | @droppedReference after word hview | @dealloc after | @forgotten after | @deferred after =>
    cases after <;> exact h.moved (by simp [*]) rfl Iff.rfl rfl rfl rfl
  | readOutput hstage => exact h.moved rfl rfl (by simp [hstage]) rfl rfl rfl
  | pollStarts _ _ _ hview | registerLocked _ _ hview | register _ _ hview =>
    exact h.moved (by simp [hview]) rfl Iff.rfl rfl rfl rfl
  | idleCancelled hview | idleNotified hview | idle hview | droppedLast hview | deferInc hview
  | wakeByValRunning hview | wakeByVal hview | wakeByRefRunning hview | wakeByRef hview
  | shutdownBusy hview | shutdownIdle hview | joinFlag hview | dropJoinInterest hview
  | dropJoinFlag hview =>
    exact h.moved (by simp [hview]) rfl Iff.rfl rfl rfl rfl
  | _ => exact h.moved rfl rfl Iff.rfl rfl rfl rfl

end

end Eddy.TaskHarness
