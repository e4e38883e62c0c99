import Eddy.TaskJoin
import Eddy.TaskRegistry

/-!
# Panics of a task's user code

`poll` catches a panic of the future, and of nothing else. The destructor of the future runs
while `finalize` replaces the stage, and that of an output that nobody will read while `finalize`
or the drop of the `JoinHandle` discards it, both with the stage locked: when it panics the new
stage is written, the lock is poisoned, and the call is left on the spot.

Nothing else that these calls reach is guarded either. A future that calls `block_on` of the
current-thread runtime that polls it panics in its poll with that runtime's `owner` locked; `poll`
catches the panic, and from then on `enqueue` and `is_owner_thread` panic. A spawn that loses the
race with the shutdown of a current-thread runtime poisons its registry in `register_task`.
-/

namespace Eddy.TaskHarness
open TaskState Interleaving

variable {S : Scheduler}

/-- The calls that lock the stage. -/
inductive Call where
  /-- `RawTask::poll`. -/
  | poll
  /-- `JoinHandle::abort` or `AbortHandle::abort`. -/
  | abort
  /-- The shutdown of the scheduler. -/
  | shutdown
  /-- `JoinHandle::poll`. -/
  | joinPoll
  /-- `JoinHandle::drop`. -/
  | joinDrop
  deriving DecidableEq

def Op.locking (op : Op S) : Option Call :=
  match op.pc with
  | .lockStage => some .poll
  | .finalizeStage via _ | .finalizeDiscard via =>
      if via.spends then some .poll
      else if op.lender = some .registry then some .shutdown
      else some .abort
  | .readOutput _ => some .joinPoll
  | .dropJoinDiscard => some .joinDrop
  | _ => none

/-- Something of the user's is in the stage: the output, or what the future panicked with. -/
def Stage.holdsOutput : Stage → Bool
  | .finished .ok | .finished .panicked => true
  | _ => false

def Pc.destroys (stage : Stage) : Pc S → Bool
  | .finalizeStage _ _ => stage = .running
  | .finalizeDiscard _ | .dropJoinDiscard => stage.holdsOutput
  | _ => false

/-- The access goes through code that may panic without a destructor that `finalize` or
`JoinHandle::drop` runs: the scheduler, one of whose locks may be poisoned, the waker of the
`JoinHandle`, or the destructors at the deallocation. -/
def Pc.callsOut : Pc S → Bool
  | .register | .registerPush | .schedule _ _ | .scheduled _ _ | .finalizeRemove _ => true
  | .finalizeWake _ _ | .joinStore _ | .joinRewake | .dropJoinWaker _ => true
  | .dealloc _ | .deferPush _ | .deallocNow => true
  | _ => false

/-- A task whose calls may be left by a panic. -/
structure Unwinding (S : Scheduler) where
  task : Task S
  /-- The stage lock is poisoned. -/
  poisoned : Bool
  /-- The call out of which a panic has ended operation `i`. -/
  left : ℕ → Option Call
  /-- A call has been left by a panic of what it called. The task is followed up to there. -/
  failed : Bool

inductive Event (S : Scheduler) where
  | act (env : S.Env) (a : Action S)
  /-- The destructor that the next access of operation `i` runs panics. -/
  | panics (env : S.Env) (i : ℕ)
  /-- What the next access of operation `i` calls panics. -/
  | fails (i : ℕ)
  /-- The shutdown of the scheduler finds the lock of the registry poisoned. -/
  | shutdownFails

def Action.operation : Action S → Option ℕ
  | .advance i | .pollReturns i _ => some i
  | _ => none

inductive JoinPollResult where
  | ready (outcome : Outcome)
  | pending
  | panics
  | blocked
  deriving DecidableEq

namespace Unwinding

def new (thread : S.Thread) (target : ℕ) : Unwinding S where
  task := Task.new thread target
  poisoned := false
  left := fun _ => none
  failed := false

/-- A panic ends operation `i`. What the operation has borrowed is given back, and what it owns is
never released. -/
def leave (u : Unwinding S) (i : ℕ) (op : Op S) (call : Call) (sh : Shared S) (pc : Pc S) :
    Unwinding S where
  task := { shared := sh, ops := u.task.ops.set i ⟨op.thread, none, pc⟩ }
  poisoned := true
  left := Function.update u.left i (some call)
  failed := u.failed

/-- `lock().unwrap()` on the poisoned lock. -/
def failLock (u : Unwinding S) (i : ℕ) (op : Op S) : Call → Unwinding S
  | .joinPoll => u.leave i op .joinPoll { u.task.shared with joinHandle := true } .finished
  | call => u.leave i op call u.task.shared op.pc

def act (u : Unwinding S) (env : S.Env) (a : Action S) : Option (Unwinding S) :=
  (TaskHarness.step env u.task a).map fun t => { u with task := t }

def advance (u : Unwinding S) (env : S.Env) (i : ℕ) : Option (Unwinding S) :=
  u.task.ops[i]?.bind fun op =>
    match op.locking with
    | none => u.act env (.advance i)
    | some call =>
        if u.task.shared.stageLocked then none
        else if u.poisoned then some (u.failLock i op call)
        else u.act env (.advance i)

def step (u : Unwinding S) : Event S → Option (Unwinding S)
  | .act env a =>
      if u.failed || a.operation.any fun i => (u.left i).isSome then none
      else match a with
        | .advance i => u.advance env i
        | a => u.act env a
  | .panics env i =>
      u.task.ops[i]?.bind fun op => op.locking.bind fun call =>
        if !u.failed && (u.left i).isNone && !u.poisoned && op.pc.destroys u.task.shared.stage then
          (opStep env op.thread u.task.shared op.pc).map fun (sh, pc) => u.leave i op call sh pc
        else none
  | .fails i =>
      u.task.ops[i]?.bind fun op =>
        if !u.failed && (u.left i).isNone && op.pc.callsOut then some { u with failed := true }
        else none
  | .shutdownFails => if u.failed then none else some { u with failed := true }

/-- Operation `i` is in progress. -/
def Live (u : Unwinding S) (i : ℕ) (op : Op S) : Prop :=
  u.task.ops[i]? = some op ∧ u.left i = none

/-- `finalize` has written the stage, and is over. -/
def Ended (u : Unwinding S) : Prop :=
  0 < u.task.shared.finalized ∧ ∀ i op, u.Live i op → op.pc.inFinalize = false

/-- What a poll of the `JoinHandle` would come to. -/
def joinPoll (u : Unwinding S) : JoinPollResult :=
  if u.task.shared.stageLocked then .blocked
  else if u.poisoned then .panics
  else match u.task.shared.stage with
    | .finished outcome => .ready outcome
    | _ => .pending

/-- The references that somebody owns. A `JoinHandle` whose drop was left by a panic keeps its
own. -/
def owners (u : Unwinding S) : ℕ :=
  u.task.shared.handles +
    total (fun x : Op S × ℕ => match u.left x.2 with
      | none | some .joinDrop => x.1.pc.load.refs
      | _ => 0) u.task.ops.zipIdx

theorem ended_iff (u : Unwinding S) : u.Ended ↔ 0 < u.task.shared.finalized ∧
    ∀ x ∈ u.task.ops.zipIdx, u.left x.2 = none → x.1.pc.inFinalize = false := by
  refine and_congr_right fun _ => ⟨fun h x hx hleft => ?_, fun h i op hlive => ?_⟩
  · exact h x.2 x.1 ⟨List.mem_zipIdx_iff_getElem?.mp hx, hleft⟩
  · exact h (op, i) (List.mem_zipIdx_iff_getElem?.mpr hlive.1) hlive.2

instance (u : Unwinding S) : Decidable u.Ended := decidable_of_iff' _ u.ended_iff

structure Isolated (u : Unwinding S) : Prop where
  /-- Nothing that a call reaches has panicked, but for the user's code in `poll` and in the
  destructors. -/
  unfailed : u.failed = false
  /-- No panic has left `RawTask::poll`, an abort, a shutdown or a poll of the `JoinHandle`. -/
  contained : ∀ i call, u.left i = some call → call = .joinDrop
  /-- `finalize` is never stuck. -/
  progress : ∀ i op, u.Live i op → op.pc.inFinalize = true →
    ∀ env, (u.step (.act env (.advance i))).isSome = true
  complete : u.Ended → Snapshot.isComplete u.task.shared.word = true
  unlisted : u.Ended → u.task.shared.registry ≠ .listed
  /-- No queue entry is left that could own the run queue's reference. -/
  unqueued : u.Ended → u.task.shared.entries = [] ∧ ∀ i op, u.Live i op →
    op.pc.load.handing + op.pc.load.starting + op.pc.load.running = 0
  /-- No reference is counted that nobody owns, and none is owned that is not counted. -/
  counted : u.task.shared.freed = false → Snapshot.refCount u.task.shared.word = u.owners
  freed : u.task.shared.freed = true → u.owners = 0
  /-- A poll of the `JoinHandle` that starts or is about to look at the stage returns ready. -/
  joined : u.Ended → u.task.shared.joinHandle = true ∨
      (∃ i op waker, u.Live i op ∧ op.pc = .readOutput waker) →
    ∃ outcome, u.joinPoll = .ready outcome

/-- The destructor that panics, if one does, is not run by `finalize`, and nothing else panics that
a call reaches. -/
def Calm (u : Unwinding S) : Event S → Prop
  | .act _ _ => True
  | .panics _ i => ∀ op, u.task.ops[i]? = some op → op.pc.inFinalize = false
  | .fails _ | .shutdownFails => False

end Unwinding

variable {t t' : Task S} {u u' : Unwinding S} {env : S.Env} {thread : S.Thread} {target : ℕ}

namespace Consistent
variable (h : Consistent t) {i : ℕ} {op : Op S}
include h

theorem incomplete (hi : t.ops[i]? = some op)
    (hop : 1 ≤ op.pc.load.running + op.pc.load.finalizing) :
    (view t.shared.word).complete = false := by
  by_contra hc
  have hquiet := h.quiet_of_complete (by simpa using hc)
  rw [load_eraseIdx hi, Load.add_running, Load.add_finalizing] at hquiet
  omega

/-- While an operation brings the queue entry to the scheduler, nobody has finalized the task. -/
theorem unfinalized_of_handing (hi : t.ops[i]? = some op) (hop : 1 ≤ op.pc.load.handing) :
    t.shared.finalized = 0 := by
  have hclaims := h.claimed.claims
  have hrunning := h.claimed.running
  have hsane := (load_sane t.ops).staged
  have hhanding : op.pc.load.handing ≤ (load t.ops).handing :=
    le_total (fun op : Op S => op.pc.load.handing) hi
  have hstaged := h.staged.finalized
  simp only [Shared.claims] at hclaims
  cases hc : (view t.shared.word).complete with
  | true =>
    simp only [hc, Bool.not_true, Bool.false_and, Bool.toNat_false] at hclaims
    omega
  | false =>
    have hle := Bool.toNat_le (!(view t.shared.word).complete && !(view t.shared.word).running &&
      ((view t.shared.word).notified || (view t.shared.word).cancelled))
    have hr : (view t.shared.word).running = false := by
      by_contra hr
      simp only [Bool.not_eq_false] at hr
      simp only [hr, Bool.not_true, Bool.and_false, Bool.false_and, Bool.toNat_false] at hclaims
      omega
    simp only [hr, Bool.toNat_false] at hrunning
    simp only [hc, Bool.toNat_false] at hstaged
    omega

end Consistent

section
variable {sh sh' : Shared S} {pc pc' : Pc S}

/-- `finalize` removes the task from the registry at its end. -/
theorem Access.inFinalize (h : Access env thread sh pc sh' pc') (hpc : pc.inFinalize = true) :
    pc'.inFinalize = true ∨ sh'.registry ≠ .listed := by
  induction h with
  | finalizeStage | finalizeComplete | finalizeWake | finalizeUnread | finalizeDiscard =>
    exact .inl rfl
  | removed | removedByRef => exact .inr (by simp)
  | unlisted hreg | unlistedByRef hreg => exact .inr hreg
  | _ => cases hpc

theorem Access.finalized (h : Access env thread sh pc sh' pc') :
    sh'.finalized = sh.finalized ∨ pc'.inFinalize = true := by
  induction h with
  | finalizeStage => exact .inr rfl
  | _ => exact .inl rfl

end

/-- Only the stage lock can keep `finalize` waiting. -/
theorem opStep_of_inFinalize {sh : Shared S} {op : Op S} (hpc : op.pc.inFinalize = true)
    (hlock : op.locking.isSome = true → sh.stageLocked = false) :
    (opStep env op.thread sh op.pc).isSome = true := by
  obtain ⟨opThread, lender, pc⟩ := op
  cases pc with
  | finalizeStage via | finalizeDiscard via =>
    have hunlocked := hlock (by
      simp only [Op.locking]
      split_ifs <;> rfl)
    simp [opStep, hunlocked]
  | finalizeRemove via =>
    simp only [opStep]
    split <;> rfl
  | finalizeComplete | finalizeWake => rfl
  | _ => cases hpc

theorem Moves.kept {a : Action S} (hm : Moves env t a t') {j : ℕ} {op : Op S}
    (hj : t.ops[j]? = some op) (ha : a.operation ≠ some j) : t'.ops[j]? = some op := by
  have hlt := (List.getElem?_eq_some_iff.mp hj).1
  induction hm with
  | access hi hacc | pollReturns hi hpc =>
    rw [List.getElem?_set_ne (fun hij => ha (congrArg some hij))]
    exact hj
  | move | cloneWaker | cloneAbort | takeRegistry => exact hj
  | _ => exact (List.getElem?_append_left hlt).trans hj

/-- A finalized task is out of the registry, or an operation is about to take it out. -/
def Delisted (t : Task S) : Prop :=
  0 < t.shared.finalized → t.shared.registry ≠ .listed ∨ ∃ op ∈ t.ops, op.pc.inFinalize = true

theorem Delisted.access (hcon : Consistent t) (h : Delisted t) {i : ℕ} {op : Op S}
    {sh : Shared S} {pc : Pc S} (hi : t.ops[i]? = some op)
    (hacc : Access env op.thread t.shared op.pc sh pc) :
    Delisted { shared := sh, ops := t.ops.set i (op.next pc) } := by
  intro hpos
  have hlt := (List.getElem?_eq_some_iff.mp hi).1
  have hnew : op.next pc ∈ t.ops.set i (op.next pc) := List.mem_set hlt _
  rcases hacc.finalized with hsame | hnext
  · rcases h (hsame ▸ hpos) with hunlisted | ⟨q, hq, hqpc⟩
    · rcases hacc.registry with hreg | ⟨hregisters, -⟩ | ⟨-, -, hremoved⟩
      · exact .inl (hreg ▸ hunlisted)
      · have hhanding : 1 ≤ op.pc.load.handing := by
          generalize op.pc = pc at hregisters
          cases pc with
          | register | registerPush => exact le_rfl
          | _ => cases hregisters
        have hzero := hcon.unfinalized_of_handing hi hhanding
        exact absurd (hsame ▸ hpos) (by omega)
      · exact .inl (by simp [hremoved])
    · by_cases hqop : q = op
      · subst hqop
        exact (hacc.inFinalize hqpc).symm.imp_right fun hnext => ⟨_, hnew, hnext⟩
      · exact .inr ⟨q, mem_set_of_ne hi hq hqop _, hqpc⟩
  · exact .inr ⟨_, hnew, hnext⟩

theorem Delisted.moves (hcon : Consistent t) (h : Delisted t) {a : Action S}
    (hm : Moves env t a t') : Delisted t' := by
  induction hm with
  | access hi hacc => exact h.access hcon hi hacc
  | pollReturns hi hpc =>
    intro hpos
    refine (h hpos).imp_right fun ⟨q, hq, hqpc⟩ => ⟨q, mem_set_of_ne hi hq ?_ _, hqpc⟩
    rintro rfl
    simp [hpc, Pc.inFinalize] at hqpc
  | takeRegistry | releaseRegistry => exact fun _ => .inl (by simp [Task.begin])
  | move | cloneWaker | cloneAbort => exact h
  | _ => exact fun hpos => (h hpos).imp_right fun ⟨q, hq, hqpc⟩ =>
      ⟨q, List.mem_append_left _ hq, hqpc⟩

/-- Who discards the output has found the task complete and without a `JoinHandle`. -/
structure Sole (j : JoinSide) (l : JoinLoad) : Prop where
  discarding : l.discarding ≤ (j.complete && !j.interest).toNat
  discarded : 0 < j.discarded → j.complete = true ∧ j.interest = false

/-- Nobody will lock the stage any more. -/
structure Over (j : JoinSide) (l : JoinLoad) : Prop where
  complete : j.complete = true
  interest : j.interest = false
  discarding : l.discarding = 0

section
variable {j j' : JoinSide} {l : JoinLoad} {pc pc' : Pc S}

theorem Sole.of_discarding (h : Sole j l) (hl : 0 < l.discarding) :
    l.discarding = 1 ∧ j.complete = true ∧ j.interest = false := by
  have hle := h.discarding
  cases hc : j.complete <;> cases hinterest : j.interest <;> simp [hc, hinterest] at hle <;>
    first | omega | exact ⟨by omega, rfl, rfl⟩

/-- A handle whose drop has just begun has not withdrawn JOIN_INTEREST. -/
theorem Joined.interest_of_leaving (h : Joined j l) (hl : 0 < l.leaving) : j.interest = true := by
  by_contra hinterest
  rw [Bool.not_eq_true] at hinterest
  have howner := h.owner
  simp only [hinterest, Bool.not_false, Bool.toNat_true] at howner
  omega

theorem Sole.access (hj : Joined j (l + pc.joinLoad)) (h : Sole j (l + pc.joinLoad))
    (hs : JoinAccess j pc j' pc')
    (hfirst : ∀ via, pc = .finalizeComplete via → j.complete = false) :
    Sole j' (l + pc'.joinLoad) := by
  induction hs with
  | finalizeComplete =>
    have hc := hfirst _ rfl
    obtain ⟨hdiscarding, hdiscarded⟩ := h
    simp only [hc, Bool.false_and, Bool.toNat_false, Pc.joinLoad, JoinLoad.add_discarding]
      at hdiscarding
    refine ⟨?_, fun hpos => ?_⟩
    · simp only [Pc.joinLoad, JoinLoad.add_discarding, Bool.true_and]
      omega
    · exact absurd ((hdiscarded hpos).1.symm.trans hc) (by decide)
  | dropInterest =>
    have hinterest := hj.interest_of_leaving (by simp [Pc.joinLoad])
    obtain ⟨hdiscarding, hdiscarded⟩ := h
    simp only [hinterest, Bool.not_true, Bool.and_false, Bool.toNat_false, Pc.joinLoad,
      JoinLoad.add_discarding] at hdiscarding
    refine ⟨?_, fun hpos => ?_⟩
    · simp only [Pc.joinLoad, JoinLoad.add_discarding, Bool.not_false, Bool.and_true]
      omega
    · exact absurd ((hdiscarded hpos).2.symm.trans hinterest) (by decide)
  | finalizeDiscard | dropDiscard =>
    obtain ⟨hone, hc, hinterest⟩ := h.of_discarding (by simp [Pc.joinLoad])
    refine ⟨?_, fun _ => ⟨hc, hinterest⟩⟩
    simp only [Pc.joinLoad, JoinLoad.add_discarding] at hone ⊢
    omega
  | _ => exact ⟨h.discarding, h.discarded⟩

theorem Over.access (hj : Joined j (l + pc.joinLoad)) (h : Over j (l + pc.joinLoad))
    (hs : JoinAccess j pc j' pc')
    (hfirst : ∀ via, pc = .finalizeComplete via → j.complete = false) :
    Over j' (l + pc'.joinLoad) := by
  obtain ⟨hc, hinterest, hdiscarding⟩ := h
  induction hs with
  | finalizeComplete => exact absurd (hc.symm.trans (hfirst _ rfl)) (by decide)
  | dropInterest =>
    have hheld := hj.interest_of_leaving (by simp [Pc.joinLoad])
    exact absurd (hheld.symm.trans hinterest) (by decide)
  | finalizeDiscard | dropDiscard => simp [Pc.joinLoad] at hdiscarding
  | _ => exact ⟨hc, hinterest, hdiscarding⟩

end

theorem Consistent.joinMoves_keeps (hcon : Consistent t)
    (hjoined : Joined t.shared.joinSide (joinLoad t.ops)) {P : JoinSide → JoinLoad → Prop}
    (h : P t.shared.joinSide (joinLoad t.ops))
    (access : ∀ {j j' l} {pc pc' : Pc S}, Joined j (l + pc.joinLoad) → P j (l + pc.joinLoad) →
      JoinAccess j pc j' pc' → (∀ via, pc = .finalizeComplete via → j.complete = false) →
      P j' (l + pc'.joinLoad))
    (handle : ∀ {j l l'} {held : Bool}, P j l → l'.discarding = l.discarding →
      P { j with handle := held } l')
    {a : Action S} (hs : TaskHarness.step env t a = some t') :
    P t'.shared.joinSide (joinLoad t'.ops) := by
  have hm := hcon.joinMoves hs
  generalize t'.shared.joinSide = j, t'.ops = ops at hm ⊢
  cases hm with
  | access hi hacc =>
    rw [joinLoad_eraseIdx hi] at h hjoined
    rw [joinLoad_set hi]
    refine access hjoined h hacc fun via hpc => hcon.incomplete hi ?_
    rw [hpc]
    cases via <;> exact le_rfl
  | quiet hops =>
    rw [hops.joinLoad_eq]
    exact h
  | pollJoin | dropJoin =>
    refine handle h ?_
    rw [joinLoad_append_singleton]
    rfl

theorem Sole.step (hcon : Consistent t) (hjoined : Joined t.shared.joinSide (joinLoad t.ops))
    (h : Sole t.shared.joinSide (joinLoad t.ops)) {a : Action S}
    (hs : TaskHarness.step env t a = some t') : Sole t'.shared.joinSide (joinLoad t'.ops) :=
  hcon.joinMoves_keeps hjoined h (fun hj h hacc hfirst => h.access hj hacc hfirst)
    (fun h hl => ⟨hl ▸ h.discarding, h.discarded⟩) hs

theorem Over.step (hcon : Consistent t) (hjoined : Joined t.shared.joinSide (joinLoad t.ops))
    (h : Over t.shared.joinSide (joinLoad t.ops)) {a : Action S}
    (hs : TaskHarness.step env t a = some t') : Over t'.shared.joinSide (joinLoad t'.ops) :=
  hcon.joinMoves_keeps hjoined h (fun hj h hacc hfirst => h.access hj hacc hfirst)
    (fun h hl => ⟨h.complete, h.interest, hl.trans h.discarding⟩) hs

/-- An operation that works through no handle may give back what it has borrowed. -/
theorem Consistent.giveBack (h : Consistent t) {i : ℕ} {op : Op S} (hi : t.ops[i]? = some op)
    (hpolling : op.pc.isPolling = false) (hpc : op.pc.byRef = false) :
    Consistent { t with ops := t.ops.set i { op with lender := none } } := by
  have hload : load (t.ops.set i { op with lender := none }) = load t.ops := by
    rw [load_set hi, load_eraseIdx hi]
  refine ⟨?_, ?_, ?_, fun p hp x hx => ?_, fun p hp hbyRef => ?_⟩
  · rw [hload]
    exact h.counted
  · rw [hload]
    exact h.claimed
  · rw [hload]
    exact h.staged
  · rcases List.mem_or_eq_of_mem_set hp with hp | rfl
    · have hlends := h.lent p hp x hx
      cases x with
      | poll => exact any_polling_set hi hpolling hlends
      | _ => exact hlends
    · cases hx
  · rcases List.mem_or_eq_of_mem_set hp with hp | rfl
    · exact h.byRef p hp hbyRef
    · exact absurd (hbyRef.symm.trans hpc) (by decide)

namespace Unwinding

/-- What `joinPoll` says is what the first access of a poll of the `JoinHandle` does. -/
theorem readOutput_of_joinPoll {i : ℕ} {op : Op S} {waker : ℕ} (hfailed : u.failed = false)
    (hlive : u.Live i op) (hpc : op.pc = .readOutput waker) (env : S.Env) :
    match u.joinPoll with
    | .ready _ => ∃ u', u.step (.act env (.advance i)) = some u' ∧ u'.left = u.left ∧
        u'.task.shared.outputsRead = u.task.shared.outputsRead + 1
    | .pending => ∃ u', u.step (.act env (.advance i)) = some u' ∧ u'.left = u.left ∧
        u'.task.shared.outputsRead = u.task.shared.outputsRead
    | .panics => ∃ u', u.step (.act env (.advance i)) = some u' ∧ u'.left i = some .joinPoll
    | .blocked => u.step (.act env (.advance i)) = none := by
  have hstep : u.step (.act env (.advance i)) =
      if u.task.shared.stageLocked then none
      else if u.poisoned then some (u.failLock i op .joinPoll)
      else u.act env (.advance i) := by
    have hlocking : op.locking = some .joinPoll := by
      unfold Op.locking
      rw [hpc]
    simp only [step, hfailed, Bool.false_or, Action.operation, Option.any_some, hlive.2,
      Option.isSome_none, Bool.false_eq_true, if_false, advance, hlive.1, Option.bind_some, hlocking]
  rw [hstep, joinPoll]
  cases hlocked : u.task.shared.stageLocked with
  | true => rfl
  | false =>
    cases hpoisoned : u.poisoned with
    | true => exact ⟨_, rfl, by simp [failLock, leave]⟩
    | false =>
      simp only [Bool.false_eq_true, if_false, act, TaskHarness.step, hlive.1, Option.bind_some,
        hpc, opStep, hlocked]
      cases hstage : u.task.shared.stage with
      | running | finished | consumed => exact ⟨_, rfl, rfl, rfl⟩

theorem panics_cases {i : ℕ} (hs : u.step (.panics env i) = some u') :
    ∃ op call sh pc, u.task.ops[i]? = some op ∧ op.locking = some call ∧ u.left i = none ∧
      op.pc.destroys u.task.shared.stage = true ∧
      opStep env op.thread u.task.shared op.pc = some (sh, pc) ∧ u' = u.leave i op call sh pc := by
  obtain ⟨op, hi, hs⟩ := Option.bind_eq_some_iff.mp hs
  obtain ⟨call, hcall, hs⟩ := Option.bind_eq_some_iff.mp hs
  split_ifs at hs with hmay
  obtain ⟨⟨sh, pc⟩, hop, rfl⟩ := Option.map_eq_some_iff.mp hs
  simp only [Bool.and_eq_true, Option.isNone_iff_eq_none] at hmay
  exact ⟨op, call, sh, pc, hi, hcall, hmay.1.1.2, hmay.2, hop, rfl⟩

/-- Outside of `finalize`, only the drop of the `JoinHandle` runs a destructor. -/
theorem dropJoinDiscard_of_panics {i : ℕ} (hs : u.step (.panics env i) = some u')
    (hcalm : u.Calm (.panics env i)) :
    ∃ op, u.task.ops[i]? = some op ∧ op.pc = .dropJoinDiscard ∧
      TaskHarness.step env u.task (.advance i) = some
        { shared := u.task.shared.discardFinishedOutput
          ops := u.task.ops.set i (op.next (.dropReference .return)) } ∧
      u' = u.leave i op .joinDrop u.task.shared.discardFinishedOutput (.dropReference .return) := by
  obtain ⟨op, call, sh, pc, hi, hcall, -, hdestroys, hop, rfl⟩ := panics_cases hs
  have hnot := hcalm op hi
  obtain ⟨opThread, lender, opc⟩ := op
  cases opc with
  | dropJoinDiscard =>
    cases hcall
    simp only [opStep] at hop
    split_ifs at hop with hlocked
    cases hop
    refine ⟨_, hi, rfl, ?_, rfl⟩
    simp [TaskHarness.step, hi, opStep, hlocked]
  | finalizeStage | finalizeDiscard => cases hnot
  | _ => cases hdestroys

structure Sound (u : Unwinding S) : Prop where
  unfailed : u.failed = false
  consistent : Consistent u.task
  joined : Joined u.task.shared.joinSide (joinLoad u.task.ops)
  sole : Sole u.task.shared.joinSide (joinLoad u.task.ops)
  delisted : Delisted u.task
  settled : u.poisoned = true → Over u.task.shared.joinSide (joinLoad u.task.ops)
  /-- A call that a panic has ended was to drop the `JoinHandle`'s reference. -/
  left : ∀ i call, u.left i = some call → call = .joinDrop ∧
    ∃ op, u.task.ops[i]? = some op ∧ op.pc = .dropReference .return

theorem sound_new (thread : S.Thread) (target : ℕ) : Sound (new thread target) where
  unfailed := rfl
  consistent := consistent_new thread target
  joined := joined_new thread target
  sole := ⟨by simp [new, Task.new, joinLoad, Pc.joinLoad],
    by simp [new, Task.new, Shared.joinSide]⟩
  delisted := by simp [new, Task.new, Delisted]
  settled := by simp [new]
  left := by simp [new]

namespace Sound
variable (h : Sound u) {i : ℕ} {op : Op S}
include h

theorem unlocked (hpoisoned : u.poisoned = true) (hi : u.task.ops[i]? = some op) :
    op.locking = none := by
  obtain ⟨hc, hinterest, hdiscarding⟩ := h.settled hpoisoned
  have hquiet := h.consistent.quiet_of_complete hc
  rw [load_eraseIdx hi, Load.add_running, Load.add_finalizing] at hquiet
  have howner := h.joined.owner
  rw [joinLoad_eraseIdx hi] at howner hdiscarding
  simp only [hinterest, Bool.not_false, Bool.toNat_true, JoinLoad.add_joining] at howner
  simp only [JoinLoad.add_discarding] at hdiscarding
  unfold Op.locking
  generalize op.pc = pc at hquiet howner hdiscarding
  cases pc with
  | lockStage => simp [Pc.load] at hquiet
  | finalizeStage via => cases via <;> simp [Pc.load, Via.holdsRunning] at hquiet
  | finalizeDiscard | dropJoinDiscard => simp [Pc.joinLoad] at hdiscarding
  | readOutput => simp [Pc.joinLoad] at howner; omega
  | _ => rfl

theorem act_of_step {a : Action S} (hs : u.step (.act env a) = some u') :
    TaskHarness.step env u.task a = some u'.task ∧ u'.failed = u.failed ∧
      u'.poisoned = u.poisoned ∧ u'.left = u.left ∧ ∀ i, a.operation = some i → u.left i = none := by
  have hact : ∀ {a : Action S}, u.act env a = some u' →
      TaskHarness.step env u.task a = some u'.task ∧ u'.failed = u.failed ∧
        u'.poisoned = u.poisoned ∧ u'.left = u.left := by
    intro a hs
    obtain ⟨t, ht, rfl⟩ := Option.map_eq_some_iff.mp hs
    exact ⟨ht, rfl, rfl, rfl⟩
  simp only [step, h.unfailed, Bool.false_or] at hs
  split_ifs at hs with hleft
  have hlive : ∀ i, a.operation = some i → u.left i = none := by
    intro i hi
    simpa [hi] using hleft
  have htask : TaskHarness.step env u.task a = some u'.task ∧ u'.failed = u.failed ∧
      u'.poisoned = u.poisoned ∧ u'.left = u.left := by
    cases a with
    | advance i =>
      obtain ⟨op, hi, hs⟩ := Option.bind_eq_some_iff.mp hs
      cases hlock : op.locking with
      | none =>
        rw [hlock] at hs
        exact hact hs
      | some call =>
        rw [hlock] at hs
        dsimp only at hs
        split_ifs at hs with hlocked hpoisoned
        · exact absurd ((h.unlocked hpoisoned hi).symm.trans hlock) nofun
        · exact hact hs
    | _ => exact hact hs
  exact ⟨htask.1, htask.2.1, htask.2.2.1, htask.2.2.2, hlive⟩

theorem act {a : Action S} (hs : u.step (.act env a) = some u') : Sound u' := by
  obtain ⟨hstep, hfailed, hpoisoned, hleft, hlive⟩ := h.act_of_step hs
  refine ⟨hfailed.trans h.unfailed, h.consistent.step hstep, h.joined.step h.consistent hstep,
    h.sole.step h.consistent h.joined hstep,
    h.delisted.moves h.consistent (h.consistent.moves hstep), fun hp => ?_, fun i call hcall => ?_⟩
  · exact (h.settled (hpoisoned ▸ hp)).step h.consistent h.joined hstep
  · rw [hleft] at hcall
    obtain ⟨hdrop, op, hi, hpc⟩ := h.left i call hcall
    refine ⟨hdrop, op, (h.consistent.moves hstep).kept hi fun ha => ?_, hpc⟩
    exact absurd ((hlive i ha).symm.trans hcall) nofun

theorem panics (hs : u.step (.panics env i) = some u') (hcalm : u.Calm (.panics env i)) :
    Sound u' := by
  obtain ⟨op, hi, hpc, hstep, rfl⟩ := dropJoinDiscard_of_panics hs hcalm
  have hlt := (List.getElem?_eq_some_iff.mp hi).1
  have hset : (u.task.ops.set i (op.next (.dropReference .return)))[i]? =
      some (op.next (.dropReference .return)) := by
    simp [hlt]
  have hload : joinLoad (u.task.ops.set i ⟨op.thread, none, .dropReference .return⟩) =
      joinLoad (u.task.ops.set i (op.next (.dropReference .return))) := by
    rw [joinLoad_set hi, joinLoad_set hi]
    rfl
  refine ⟨h.unfailed, ?_, ?_, ?_, ?_, fun _ => ?_, fun j call hcall => ?_⟩
  · have hback := (h.consistent.step hstep).giveBack hset rfl rfl
    rw [List.set_set] at hback
    exact hback
  · have hjoined := h.joined.step h.consistent hstep
    rw [← hload] at hjoined
    exact hjoined
  · have hsole := h.sole.step h.consistent h.joined hstep
    rw [← hload] at hsole
    exact hsole
  · obtain ⟨stage, discarded, hdiscard, -⟩ := discardFinishedOutput_eq u.task.shared
    rw [leave, hdiscard]
    refine fun hpos => (h.delisted hpos).imp_right fun ⟨q, hq, hqpc⟩ =>
      ⟨q, mem_set_of_ne hi hq ?_ _, hqpc⟩
    rintro rfl
    simp [hpc, Pc.inFinalize] at hqpc
  · have hdiscarding := h.sole.of_discarding
    rw [joinLoad_eraseIdx hi, hpc] at hdiscarding
    obtain ⟨hone, hc, hinterest⟩ := hdiscarding (Nat.succ_pos _)
    rw [leave, joinSide_discard, joinLoad_set hi]
    exact ⟨hc, hinterest, Nat.succ.inj hone⟩
  · rcases eq_or_ne j i with rfl | hji
    · obtain rfl : Call.joinDrop = call := by simpa [leave] using hcall
      refine ⟨rfl, ⟨op.thread, none, .dropReference .return⟩, ?_, rfl⟩
      simp [leave, hlt]
    · obtain ⟨hdrop, q, hj, hqpc⟩ := h.left j call (by simpa [leave, hji] using hcall)
      refine ⟨hdrop, q, ?_, hqpc⟩
      rw [leave, List.getElem?_set_ne hji.symm]
      exact hj

theorem step {e : Event S} (hs : u.step e = some u') (hcalm : u.Calm e) : Sound u' := by
  cases e with
  | act env a => exact h.act hs
  | panics env i => exact h.panics hs hcalm
  | fails | shutdownFails => exact hcalm.elim

/-- After `finalize` no operation is in it, whether it is in progress or not. -/
theorem not_inFinalize (hended : u.Ended) (hi : u.task.ops[i]? = some op) :
    op.pc.inFinalize = false := by
  cases hleft : u.left i with
  | none => exact hended.2 i op ⟨hi, hleft⟩
  | some call =>
    obtain ⟨-, q, hq, hpc⟩ := h.left i call hleft
    obtain rfl : op = q := Option.some.inj (hi.symm.trans hq)
    rw [hpc]
    rfl

theorem complete (hended : u.Ended) : (view u.task.shared.word).complete = true := by
  have hstaged : (load u.task.ops).staged = 0 := by
    refine total_eq_zero_iff.mpr fun op hop => ?_
    obtain ⟨i, hi⟩ := List.getElem?_of_mem hop
    have hnot := h.not_inFinalize hended hi
    generalize op.pc = pc at hnot
    cases pc with
    | finalizeComplete => cases hnot
    | _ => rfl
  have hfinalized := h.consistent.staged.finalized
  have hpos := hended.1
  by_contra hc
  rw [Bool.not_eq_true] at hc
  rw [hstaged, hc, Bool.toNat_false] at hfinalized
  omega

theorem stage_unlocked (hc : (view u.task.shared.word).complete = true) :
    u.task.shared.stageLocked = false := by
  have hquiet := h.consistent.quiet_of_complete hc
  have hsane := (load_sane u.task.ops).staged
  have hlocked := h.consistent.staged.locked
  cases hl : u.task.shared.stageLocked with
  | false => rfl
  | true =>
    rw [hl, Bool.toNat_true] at hlocked
    omega

/-- Neither is a task that `finalize` is at work on. -/
theorem stage_unlocked_of_inFinalize (hi : u.task.ops[i]? = some op)
    (hpc : op.pc.inFinalize = true) (hlock : op.locking.isSome = true) :
    u.task.shared.stageLocked = false := by
  obtain ⟨opThread, lender, pc⟩ := op
  cases pc with
  | finalizeStage via outcome =>
    have hone := h.consistent.running_add_finalizing_le
    have hsane := (load_sane (u.task.ops.eraseIdx i)).staged
    have hlocked := h.consistent.staged.locked
    rw [load_eraseIdx hi, Load.add_running, Load.add_finalizing] at hone
    rw [load_eraseIdx hi, Load.add_polling] at hlocked
    cases hl : u.task.shared.stageLocked with
    | false => rfl
    | true =>
      rw [hl, Bool.toNat_true] at hlocked
      cases via <;> simp only [Pc.load, Via.holdsRunning, Bool.toNat_true, Bool.toNat_false,
        Bool.not_true, Bool.not_false] at hone hlocked <;> omega
  | finalizeDiscard via =>
    refine h.stage_unlocked (h.sole.of_discarding ?_).2.1
    rw [joinLoad_eraseIdx hi]
    exact Nat.succ_pos _
  | finalizeComplete | finalizeWake | finalizeRemove => cases hlock
  | _ => cases hpc

theorem progress (hlive : u.Live i op) (hpc : op.pc.inFinalize = true) (env : S.Env) :
    (u.step (.act env (.advance i))).isSome = true := by
  have hunlocked := h.stage_unlocked_of_inFinalize hlive.1 hpc
  have hact : (u.act env (.advance i)).isSome = true := by
    rw [Unwinding.act, Option.isSome_map]
    simp only [TaskHarness.step, hlive.1, Option.bind_some, Option.isSome_map]
    exact opStep_of_inFinalize hpc hunlocked
  have hadvance : (u.advance env i).isSome = true := by
    rw [advance, hlive.1, Option.bind_some]
    cases hlock : op.locking with
    | none => exact hact
    | some call =>
      dsimp only
      rw [hunlocked (by rw [hlock]; rfl), if_neg Bool.false_ne_true]
      split
      · rfl
      · exact hact
  simp only [Unwinding.step, h.unfailed, Bool.false_or, Action.operation, Option.any_some, hlive.2,
    Option.isSome_none, Bool.false_eq_true, if_false]
  exact hadvance

theorem owners_eq : u.owners = u.task.shared.handles + (load u.task.ops).refs := by
  have hweight : (fun x : Op S × ℕ => match u.left x.2 with
      | none | some .joinDrop => x.1.pc.load.refs
      | _ => 0) = fun x => x.1.pc.load.refs := by
    funext x
    cases hleft : u.left x.2 with
    | none => rfl
    | some call =>
      obtain ⟨rfl, -⟩ := h.left x.2 call hleft
      rfl
  have hzip : total (fun x : Op S × ℕ => x.1.pc.load.refs) u.task.ops.zipIdx =
      total (fun op => op.pc.load.refs) u.task.ops := by
    have hmap := List.zipIdx_map_fst 0 u.task.ops
    calc total (fun x : Op S × ℕ => x.1.pc.load.refs) u.task.ops.zipIdx
        = ((u.task.ops.zipIdx.map Prod.fst).map fun op => op.pc.load.refs).sum := by
          rw [List.map_map]
          rfl
      _ = total (fun op => op.pc.load.refs) u.task.ops := by
          rw [hmap]
          rfl
  rw [owners, hweight, hzip]
  rfl

theorem joinPoll_ready (hended : u.Ended) (hheld : u.task.shared.joinHandle = true ∨
    ∃ i op waker, u.Live i op ∧ op.pc = .readOutput waker) :
    ∃ outcome, u.joinPoll = .ready outcome := by
  have hc := h.complete hended
  have howner := h.joined.owner
  have houtput := h.joined.output
  have hfinalized : u.task.shared.finalized = 1 :=
    Nat.le_antisymm h.consistent.finalized_le hended.1
  have hone : 1 ≤ u.task.shared.joinHandle.toNat + (joinLoad u.task.ops).joining := by
    rcases hheld with hheld | ⟨i, op, waker, ⟨hi, -⟩, hpc⟩
    · rw [hheld]
      exact Nat.le_add_right _ _
    · have hle : op.pc.joinLoad.joining ≤ (joinLoad u.task.ops).joining :=
        le_total (fun op : Op S => op.pc.joinLoad.joining) hi
      rw [hpc] at hle
      exact hle.trans (Nat.le_add_left _ _)
  have hinterest : (view u.task.shared.word).joinInterest = true := by
    by_contra hinterest
    rw [Bool.not_eq_true] at hinterest
    simp only [Shared.joinSide, hinterest, Bool.not_false, Bool.toNat_true] at howner
    omega
  have hdiscarded : u.task.shared.outputsDiscarded = 0 := by
    by_contra hpos
    have hgone := (h.sole.discarded (Nat.pos_of_ne_zero hpos)).2
    exact absurd (hgone.symm.trans hinterest) (by decide)
  have hunpoisoned : u.poisoned = false := by
    by_contra hpoisoned
    rw [Bool.not_eq_false] at hpoisoned
    exact absurd ((h.settled hpoisoned).interest.symm.trans hinterest) (by decide)
  have hstage : u.task.shared.stage.isFinished = true := by
    by_contra hstage
    rw [Bool.not_eq_true] at hstage
    simp only [Shared.joinSide, hdiscarded, hfinalized, hstage, Bool.toNat_false] at howner houtput
    omega
  rw [joinPoll, h.stage_unlocked hc, hunpoisoned]
  cases hs : u.task.shared.stage with
  | finished outcome => exact ⟨outcome, rfl⟩
  | running | consumed => simp [hs, Stage.isFinished] at hstage

theorem isolated : u.Isolated where
  unfailed := h.unfailed
  contained i call hcall := (h.left i call hcall).1
  progress i op hlive hpc env := h.progress hlive hpc env
  complete hended := h.complete hended
  unlisted hended := by
    rcases h.delisted hended.1 with hunlisted | ⟨op, hop, hpc⟩
    · exact hunlisted
    · obtain ⟨i, hi⟩ := List.getElem?_of_mem hop
      exact absurd ((h.not_inFinalize hended hi).symm.trans hpc) (by decide)
  unqueued hended := by
    have hc := h.complete hended
    have hclaims := h.consistent.claimed.claims
    have hquiet := h.consistent.quiet_of_complete hc
    simp only [hc, Bool.not_true, Bool.false_and, Bool.toNat_false, Shared.claims] at hclaims
    refine ⟨List.length_eq_zero_iff.mp (by omega), fun i op hlive => ?_⟩
    have hload := load_eraseIdx hlive.1
    rw [hload] at hclaims hquiet
    simp only [Load.add_handing, Load.add_starting, Load.add_running] at hclaims hquiet
    omega
  counted hfreed := by
    rw [h.owners_eq]
    exact h.consistent.counted.owners hfreed
  freed hfreed := by
    have hgone := h.consistent.counted.gone hfreed
    rw [h.owners_eq]
    omega
  joined hended hheld := h.joinPoll_ready hended hheld

end Sound

/-- Only a panic in `finalize`, or of what a call reaches, leaves one of the other calls. -/
theorem Isolated.calm {e : Event S} (h : u'.Isolated) (hs : u.step e = some u') : u.Calm e := by
  cases e with
  | act env a => trivial
  | panics env i =>
    intro op hi
    obtain ⟨q, call, sh, pc, hq, hcall, -, -, -, rfl⟩ := panics_cases hs
    obtain rfl : op = q := Option.some.inj (hi.symm.trans hq)
    obtain rfl := h.contained i call (by simp [leave])
    obtain ⟨opThread, lender, opc⟩ := op
    cases opc with
    | finalizeStage via | finalizeDiscard via =>
      simp only [Op.locking] at hcall
      split_ifs at hcall <;> cases hcall
    | finalizeComplete | finalizeWake | finalizeRemove => cases hcall
    | _ => rfl
  | fails i =>
    obtain ⟨op, -, hs⟩ := Option.bind_eq_some_iff.mp hs
    split_ifs at hs
    cases hs
    exact absurd h.unfailed nofun
  | shutdownFails =>
    simp only [step] at hs
    split_ifs at hs
    cases hs
    exact absurd h.unfailed nofun

/-- Through a whole run the panics of a task's user code stay isolated just as long as no destructor
panics in `finalize` and nothing else panics that a call reaches. -/
theorem isolated_iff_calm (thread : S.Thread) (target : ℕ) (events : List (Event S)) :
    Always step Isolated (new thread target) events ↔ Obeys step Calm (new thread target) events :=
  always_iff_obeys (I := Sound) (fun _ h => h.isolated) (fun _ _ _ h hcalm hs => h.step hs hcalm)
    (fun _ _ _ _ hs hisolated => hisolated.calm hs) (sound_new thread target) events

end Unwinding

end Eddy.TaskHarness

namespace Eddy.MultiThread
open TaskState TaskHarness Interleaving

def polledReady : List (Action scheduler) :=
  spawnSteps ++ .take (some 0) 0 :: advances 1 2 ++ [.pollReturns 1 .ready]

def droppedInFinalize : List (TaskHarness.Event scheduler) :=
  polledReady.map (.act (.open 1)) ++ [.panics (.open 1) 1]

theorem finalize_leaves_poll :
    ∃ u : Unwinding scheduler, Reachable Unwinding.step anyStep (.new none 0) u ∧ ¬ u.Isolated ∧
      u.Ended ∧ u.left 1 = some .poll ∧ Snapshot.isComplete u.task.shared.word = false ∧
      u.task.shared.registry = .listed ∧
      Snapshot.refCount u.task.shared.word = u.owners + 1 ∧ u.joinPoll = .panics := by
  obtain ⟨u, hreach, hu⟩ := exists_reachable_of_run
    (show (run (guarded Unwinding.step anyStep) (.new none 0 : Unwinding scheduler)
      droppedInFinalize).any (fun u => u.Ended && u.left 1 = some .poll &&
        !Snapshot.isComplete u.task.shared.word && u.task.shared.registry = .listed &&
        Snapshot.refCount u.task.shared.word = u.owners + 1 && u.joinPoll = .panics) = true by
      decide +kernel)
  simp only [Bool.and_eq_true, decide_eq_true_eq, Bool.not_eq_true'] at hu
  obtain ⟨⟨⟨⟨⟨hended, hleft⟩, hc⟩, hregistry⟩, hcount⟩, hjoin⟩ := hu
  have hnot : ¬ u.Isolated := fun h => absurd (h.contained 1 _ hleft) (by decide)
  exact ⟨u, hreach, hnot, hended, hleft, hc, hregistry, hcount, hjoin⟩

end Eddy.MultiThread
