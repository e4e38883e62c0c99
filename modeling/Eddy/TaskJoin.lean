import Eddy.TaskExclusion
import Eddy.MultiThreadScheduler

/-!
# The join protocol

`JoinHandle::poll`, `JoinHandle::drop` and `finalize` meet in the stage, the trailer's waker
and the bits COMPLETE and JOIN_INTEREST. `JoinSide` is that part of a task, and `JoinAccess`
is what the accesses of the three do to it; every other access leaves it alone.
-/

namespace Eddy.TaskHarness
open TaskState Interleaving

variable {S : Scheduler} {t t' : Task S} {env : S.Env} {thread : S.Thread} {target : ℕ}

/-- What `finalize` and the `JoinHandle` share. -/
structure JoinSide where
  /-- The output is in the stage. -/
  output : Bool
  complete : Bool
  interest : Bool
  trailer : Option ℕ
  /-- The handle is in its owner's hands and not being polled. -/
  handle : Bool
  finalized : ℕ
  read : ℕ
  discarded : ℕ
  woken : List ℕ

def Stage.isFinished : Stage → Bool
  | .finished _ => true
  | _ => false

def Shared.joinSide (sh : Shared S) : JoinSide where
  output := sh.stage.isFinished
  complete := (view sh.word).complete
  interest := (view sh.word).joinInterest
  trailer := sh.trailer
  handle := sh.joinHandle
  finalized := sh.finalized
  read := sh.outputsRead
  discarded := sh.outputsDiscarded
  woken := sh.joinWoken

namespace JoinSide

def wake (j : JoinSide) : JoinSide :=
  { j with trailer := none, woken := j.woken ++ j.trailer.toList }

def discard (j : JoinSide) : JoinSide :=
  { j with output := false, discarded := j.discarded + j.output.toNat }

end JoinSide

/-- An access of `finalize`, of a poll of the `JoinHandle` or of its drop. -/
inductive JoinAccess (j : JoinSide) : Pc S → JoinSide → Pc S → Prop where
  | finalizeStage {via outcome} : JoinAccess j (.finalizeStage via outcome)
      { j with output := true, finalized := j.finalized + 1 } (.finalizeComplete via)
  | finalizeComplete {via} : JoinAccess j (.finalizeComplete via) { j with complete := true }
      (.finalizeWake via j.interest)
  | finalizeWake {via} : JoinAccess j (.finalizeWake via true) j.wake (.finalizeRemove via)
  | finalizeUnread {via} : JoinAccess j (.finalizeWake via false) j.wake (.finalizeDiscard via)
  | finalizeDiscard {via} : JoinAccess j (.finalizeDiscard via) j.discard (.finalizeRemove via)
  | readOutput {waker} : j.output = true → JoinAccess j (.readOutput waker)
      { j with output := false, read := j.read + 1 } (.dropReference .return)
  | readNothing {waker} : JoinAccess j (.readOutput waker) j (.joinStore waker)
  | joinStore {waker} : JoinAccess j (.joinStore waker) { j with trailer := some waker } .joinFlag
  | joinComplete : j.complete = true → JoinAccess j .joinFlag j .joinRewake
  | joinFlag : j.complete = false → JoinAccess j .joinFlag { j with handle := true } .finished
  | joinRewake : JoinAccess j .joinRewake { j.wake with handle := true } .finished
  | dropInterest : JoinAccess j .dropJoinInterest { j with interest := false }
      (.dropJoinFlag j.complete)
  | dropFlag {complete} : JoinAccess j (.dropJoinFlag complete) j (.dropJoinWaker complete)
  | dropWaker : JoinAccess j (.dropJoinWaker false) { j with trailer := none }
      (.dropReference .return)
  | dropWakerComplete : JoinAccess j (.dropJoinWaker true) { j with trailer := none }
      .dropJoinDiscard
  | dropDiscard : JoinAccess j .dropJoinDiscard j.discard (.dropReference .return)

def Pc.inJoin : Pc S → Bool
  | .finalizeStage _ _ | .finalizeComplete _ | .finalizeWake _ _ | .finalizeDiscard _
  | .readOutput _ | .joinStore _ | .joinFlag | .joinRewake | .dropJoinInterest | .dropJoinFlag _
  | .dropJoinWaker _ | .dropJoinDiscard => true
  | _ => false

section
variable {sh sh' : Shared S} {pc pc' : Pc S}

theorem After.inJoin_pc (after : After S) : after.pc.inJoin = false := by
  cases after <;> rfl

/-- The other accesses leave the join side alone; they go on to `finalize` at most. -/
theorem Access.joinSide_eq (h : Access env thread sh pc sh' pc') (hpc : pc.inJoin = false) :
    sh'.joinSide = sh.joinSide ∧ (pc'.inJoin = true →
      ∃ via outcome, pc' = .finalizeStage via outcome) := by
  induction h with
  | queued | droppedReference | dealloc | forgotten | deferred =>
    refine ⟨by simp_all [Shared.joinSide], fun h => ?_⟩
    rw [After.inJoin_pc] at h
    cases h
  | _ => first | (simp [Pc.inJoin] at hpc; done) | simp_all [Shared.joinSide, Shared.touchFuture, Pc.inJoin]

theorem joinSide_discard (sh : Shared S) :
    sh.discardFinishedOutput.joinSide = sh.joinSide.discard := by
  unfold Shared.discardFinishedOutput
  cases hstage : sh.stage <;> simp [Shared.joinSide, JoinSide.discard, hstage, Stage.isFinished]

theorem joinAccess_of_opStep (hs : opStep env thread sh pc = some (sh', pc'))
    (hpc : pc.inJoin = true) : JoinAccess sh.joinSide pc sh'.joinSide pc' := by
  cases pc with
  | finalizeStage via outcome =>
    simp only [opStep] at hs
    split_ifs at hs
    rw [dropFuture_eq_touches] at hs
    cases hs
    exact .finalizeStage
  | finalizeComplete via =>
    cases hs
    convert JoinAccess.finalizeComplete using 1
    · simp [Shared.joinSide, State.transitionToComplete]
    · simp [Shared.joinSide, State.transitionToComplete]
  | finalizeWake via interest =>
    cases hs
    cases interest
    · exact .finalizeUnread
    · exact .finalizeWake
  | finalizeDiscard via =>
    simp only [opStep] at hs
    split_ifs at hs
    cases hs
    rw [joinSide_discard]
    exact .finalizeDiscard
  | readOutput waker =>
    simp only [opStep] at hs
    split_ifs at hs
    split at hs <;> rename_i hstage <;> cases hs
    · exact .readOutput (by simp [Shared.joinSide, hstage, Stage.isFinished])
    · exact .readNothing
  | joinStore waker =>
    cases hs
    exact .joinStore
  | joinFlag =>
    simp only [opStep, State.setJoinWaker, isComplete_eq] at hs
    cases hc : (view sh.word).complete <;>
      simp only [hc, Bool.false_eq_true, ↓reduceIte] at hs <;> cases hs
    · have hstep := JoinAccess.joinFlag (S := S) (show sh.joinSide.complete = false from hc)
      convert hstep using 1
      simp [Shared.joinSide]
    · exact .joinComplete hc
  | joinRewake =>
    cases hs
    exact .joinRewake
  | dropJoinInterest =>
    cases hs
    convert JoinAccess.dropInterest using 1
    · simp [Shared.joinSide]
    · rfl
  | dropJoinFlag complete =>
    cases hs
    convert JoinAccess.dropFlag using 1
    simp [Shared.joinSide]
  | dropJoinWaker complete =>
    cases hs
    cases complete
    · exact .dropWaker
    · exact .dropWakerComplete
  | dropJoinDiscard =>
    simp only [opStep] at hs
    split_ifs at hs
    cases hs
    rw [joinSide_discard]
    exact .dropDiscard
  | _ => cases hpc

end

structure JoinLoad where
  /-- It is polling the handle. -/
  joining : ℕ := 0
  /-- It is dropping the handle and has not withdrawn JOIN_INTEREST. -/
  leaving : ℕ := 0
  /-- It is dropping the handle and has not cleared the trailer. -/
  clearing : ℕ := 0
  /-- It is going to discard the output. -/
  discarding : ℕ := 0

def Pc.joinLoad : Pc S → JoinLoad
  | .readOutput _ | .joinStore _ | .joinFlag | .joinRewake => { joining := 1 }
  | .dropJoinInterest => { leaving := 1 }
  | .dropJoinFlag complete | .dropJoinWaker complete =>
      { clearing := 1, discarding := complete.toNat }
  | .dropJoinDiscard => { discarding := 1 }
  | .finalizeWake _ interest => { discarding := (!interest).toNat }
  | .finalizeDiscard _ => { discarding := 1 }
  | _ => {}

def joinLoad (ops : List (Op S)) : JoinLoad where
  joining := total (fun op => op.pc.joinLoad.joining) ops
  leaving := total (fun op => op.pc.joinLoad.leaving) ops
  clearing := total (fun op => op.pc.joinLoad.clearing) ops
  discarding := total (fun op => op.pc.joinLoad.discarding) ops

instance : Add JoinLoad where
  add a b :=
    { joining := a.joining + b.joining, leaving := a.leaving + b.leaving
      clearing := a.clearing + b.clearing, discarding := a.discarding + b.discarding }

namespace JoinLoad
variable (a b : JoinLoad)

@[simp] theorem add_joining : (a + b).joining = a.joining + b.joining := rfl
@[simp] theorem add_leaving : (a + b).leaving = a.leaving + b.leaving := rfl
@[simp] theorem add_clearing : (a + b).clearing = a.clearing + b.clearing := rfl
@[simp] theorem add_discarding : (a + b).discarding = a.discarding + b.discarding := rfl

end JoinLoad

theorem joinLoad_append_singleton (ops : List (Op S)) (op : Op S) :
    joinLoad (ops ++ [op]) = joinLoad ops + op.pc.joinLoad := by
  simp only [joinLoad, total_append, total_cons, total_nil, Nat.add_zero]
  rfl

theorem joinLoad_eraseIdx {ops : List (Op S)} {i : ℕ} {op : Op S} (h : ops[i]? = some op) :
    joinLoad ops = joinLoad (ops.eraseIdx i) + op.pc.joinLoad := by
  simp only [joinLoad, total_eraseIdx _ h]
  rfl

theorem joinLoad_set {ops : List (Op S)} {i : ℕ} {op : Op S} (h : ops[i]? = some op)
    (op' : Op S) : joinLoad (ops.set i op') = joinLoad (ops.eraseIdx i) + op'.pc.joinLoad := by
  have hi : (ops.set i op')[i]? = some op' := by
    simp [(List.getElem?_eq_some_iff.mp h).1]
  rw [joinLoad_eraseIdx hi, List.eraseIdx_set_eq]

/-- The handle is in one place, and an output that nobody will read has someone to discard
it. -/
structure Joined (j : JoinSide) (l : JoinLoad) : Prop where
  owner : j.handle.toNat + l.joining + l.leaving + (!j.interest).toNat + j.read = 1
  output : j.read + j.discarded + j.output.toNat = j.finalized
  discarder : j.complete = true → j.interest = false → j.output = true → 0 < l.discarding
  clearing : l.clearing ≤ (!j.interest).toNat

section
variable {j j' : JoinSide} {l : JoinLoad} {pc pc' : Pc S}

theorem Joined.access (h : Joined j (l + pc.joinLoad)) (hs : JoinAccess j pc j' pc')
    (hfirst : ∀ via outcome, pc = .finalizeStage via outcome →
      j.finalized = 0 ∧ j.complete = false) :
    Joined j' (l + pc'.joinLoad) := by
  obtain ⟨owner, output, discarder, clearing⟩ := h
  induction hs with
  | finalizeStage =>
    obtain ⟨hzero, hc⟩ := hfirst _ _ rfl
    refine ⟨owner, ?_, fun hcomplete => ?_, clearing⟩
    · simp only [Bool.toNat_true]
      omega
    · rw [hc] at hcomplete
      cases hcomplete
  | finalizeComplete =>
    refine ⟨owner, output, fun _ hinterest _ => ?_, clearing⟩
    have hinterest : j.interest = false := hinterest
    simp [Pc.joinLoad, hinterest]
  | finalizeDiscard | dropDiscard =>
    refine ⟨owner, ?_, nofun, clearing⟩
    simp only [JoinSide.discard, Bool.toNat_false]
    omega
  | readOutput hout =>
    simp only [Pc.joinLoad, JoinLoad.add_joining, JoinLoad.add_leaving, hout,
      Bool.toNat_true] at owner output
    refine ⟨?_, ?_, nofun, clearing⟩
    · simp only [Pc.joinLoad, JoinLoad.add_joining, JoinLoad.add_leaving]
      omega
    · simp only [Bool.toNat_false]
      omega
  | joinFlag | joinRewake =>
    have hheld : j.handle = false := by
      cases hj : j.handle
      · rfl
      · simp [Pc.joinLoad, hj] at owner
        omega
    refine ⟨?_, output, discarder, clearing⟩
    simp [Pc.joinLoad, hheld, JoinSide.wake] at owner ⊢
    omega
  | dropInterest =>
    have hinterest : j.interest = true := by
      cases hj : j.interest
      · simp [Pc.joinLoad, hj] at owner
        omega
      · rfl
    simp only [Pc.joinLoad, hinterest, JoinLoad.add_joining, JoinLoad.add_leaving,
      JoinLoad.add_clearing, Bool.not_true, Bool.toNat_false] at owner clearing
    refine ⟨?_, output, fun hc _ _ => ?_, ?_⟩
    · simp [Pc.joinLoad]
      omega
    · have hc : j.complete = true := hc
      simp [Pc.joinLoad, hc]
    · simp [Pc.joinLoad]
      omega
  | dropWaker | dropWakerComplete =>
    refine ⟨owner, output, discarder, ?_⟩
    simp only [Pc.joinLoad, JoinLoad.add_clearing] at clearing ⊢
    omega
  | _ => exact ⟨owner, output, discarder, clearing⟩

end

/-- Before `finalize` has written the stage, nobody else has. -/
theorem Consistent.unstaged (h : Consistent t) {i : ℕ} {op : Op S} {via : Via}
    {outcome : Outcome} (hi : t.ops[i]? = some op) (hpc : op.pc = .finalizeStage via outcome) :
    t.shared.finalized = 0 ∧ (view t.shared.word).complete = false := by
  have hone := h.running_add_finalizing_le
  have hload := load_eraseIdx hi
  have hsane := (load_sane (t.ops.eraseIdx i)).staged
  have hop : op.pc.load.running + op.pc.load.finalizing = 1 ∧ op.pc.load.staged = 0 := by
    rw [hpc]
    cases via <;> exact ⟨rfl, rfl⟩
  rw [hload, Load.add_running, Load.add_finalizing] at hone
  have hc : (view t.shared.word).complete = false := by
    by_contra hc
    have hquiet := h.quiet_of_complete (by simpa using hc)
    rw [hload, Load.add_running, Load.add_finalizing] at hquiet
    omega
  refine ⟨?_, hc⟩
  rw [h.staged.finalized, hc, hload, Load.add_staged, Bool.toNat_false]
  omega

/-- An operation that has no part in the protocol yet. -/
def Pc.quiet : Pc S → Bool
  | .finalizeStage _ _ => true
  | pc => !pc.inJoin

theorem Pc.joinLoad_of_quiet {pc : Pc S} (h : pc.quiet = true) : pc.joinLoad = {} := by
  cases pc <;> first | rfl | cases h

theorem Pc.quiet_of_not_inJoin {pc : Pc S} (h : pc.inJoin = false) : pc.quiet = true := by
  cases pc <;> first | rfl | cases h

/-- The operations after an action that has no part in the protocol. -/
inductive QuietOps (ops : List (Op S)) : List (Op S) → Prop where
  | same : QuietOps ops ops
  | set {i op pc} : ops[i]? = some op → op.pc.inJoin = false → pc.quiet = true →
      QuietOps ops (ops.set i (op.next pc))
  | start {op} : op.pc.quiet = true → QuietOps ops (ops ++ [op])

inductive JoinMoves (t : Task S) : Action S → JoinSide → List (Op S) → Prop where
  | access {i op j pc} : t.ops[i]? = some op → JoinAccess t.shared.joinSide op.pc j pc →
      JoinMoves t (.advance i) j (t.ops.set i (op.next pc))
  | quiet {a ops} : QuietOps t.ops ops → (∀ thread waker, a ≠ .pollJoin thread waker) →
      JoinMoves t a t.shared.joinSide ops
  | pollJoin {thread : S.Thread} {waker : ℕ} : t.shared.joinHandle = true →
      JoinMoves t (.pollJoin thread waker) { t.shared.joinSide with handle := false }
        (t.ops ++ [⟨thread, none, .readOutput waker⟩])
  | dropJoin {thread : S.Thread} : t.shared.joinHandle = true →
      JoinMoves t (.dropJoin thread) { t.shared.joinSide with handle := false }
        (t.ops ++ [⟨thread, none, .dropJoinInterest⟩])

theorem Task.joinHandle_of_mayGiveUp (h : t.mayGiveUp .join t.shared.joinHandle.toNat = true) :
    t.shared.joinHandle = true := by
  cases hj : t.shared.joinHandle <;> simp [Task.mayGiveUp, hj] at h ⊢

theorem Consistent.joinMoves_advance (h : Consistent t) {i : ℕ}
    (hs : TaskHarness.step env t (.advance i) = some t') :
    JoinMoves t (.advance i) t'.shared.joinSide t'.ops := by
  obtain ⟨op, hi, hs⟩ := Option.bind_eq_some_iff.mp hs
  obtain ⟨⟨sh, pc⟩, hop, rfl⟩ := Option.map_eq_some_iff.mp hs
  cases hpc : op.pc.inJoin with
  | true => exact .access hi (joinAccess_of_opStep hop hpc)
  | false =>
    have hcount := h.counted
    rw [load_eraseIdx hi] at hcount
    obtain ⟨hside, hnext⟩ := (hcount.access hop).joinSide_eq hpc
    have hquiet : pc.quiet = true := by
      cases hpc' : pc.inJoin with
      | false => exact Pc.quiet_of_not_inJoin hpc'
      | true =>
        obtain ⟨via, outcome, rfl⟩ := hnext hpc'
        rfl
    change JoinMoves t _ sh.joinSide _
    rw [hside]
    exact .quiet (.set hi hpc hquiet) nofun

theorem Consistent.joinMoves (h : Consistent t) {a : Action S}
    (hs : TaskHarness.step env t a = some t') : JoinMoves t a t'.shared.joinSide t'.ops := by
  have hm := h.moves hs
  cases a with
  | advance i => exact h.joinMoves_advance hs
  | pollReturns i result =>
    cases hm with
    | pollReturns hi hpc =>
      exact .quiet (.set hi (by rw [hpc]; rfl) (by cases result <;> rfl)) nofun
  | cloneWaker lender =>
    cases hm with
    | cloneWaker _ hview =>
      convert JoinMoves.quiet (a := .cloneWaker lender) .same nofun using 1
      simp [Shared.joinSide, hview]
  | cloneAbort lender =>
    cases hm with
    | cloneAbort _ hview =>
      convert JoinMoves.quiet (a := .cloneAbort lender) .same nofun using 1
      simp [Shared.joinSide, hview]
  | pollJoin thread waker =>
    cases hm with
    | pollJoin hmay => exact .pollJoin (Task.joinHandle_of_mayGiveUp hmay)
  | dropJoin thread =>
    cases hm with
    | dropJoin hmay => exact .dropJoin (Task.joinHandle_of_mayGiveUp hmay)
  | move | takeRegistry =>
    cases hm
    exact .quiet .same nofun
  | _ =>
    cases hm
    exact .quiet (.start rfl) nofun

theorem QuietOps.joinLoad_eq {ops ops' : List (Op S)} (h : QuietOps ops ops') :
    joinLoad ops' = joinLoad ops := by
  cases h with
  | same => rfl
  | set hi hpc hquiet =>
    rw [joinLoad_set hi, joinLoad_eraseIdx hi, Pc.joinLoad_of_quiet (Pc.quiet_of_not_inJoin hpc)]
    exact congrArg _ (Pc.joinLoad_of_quiet hquiet)
  | start hquiet =>
    rw [joinLoad_append_singleton, Pc.joinLoad_of_quiet hquiet]
    rfl

theorem joined_new (thread : S.Thread) (target : ℕ) :
    Joined (Task.new thread target).shared.joinSide (joinLoad (Task.new thread target).ops) := by
  constructor <;> simp [Task.new, Shared.joinSide, joinLoad, Pc.joinLoad, Stage.isFinished]

theorem Joined.step (hcon : Consistent t) (h : Joined t.shared.joinSide (joinLoad t.ops))
    {a : Action S} (hs : TaskHarness.step env t a = some t') :
    Joined t'.shared.joinSide (joinLoad t'.ops) := by
  have hm := hcon.joinMoves hs
  generalize t'.shared.joinSide = j, t'.ops = ops at hm ⊢
  cases hm with
  | access hi hacc =>
    rw [joinLoad_eraseIdx hi] at h
    rw [joinLoad_set hi]
    exact h.access hacc fun via outcome hpc => hcon.unstaged hi hpc
  | quiet hops =>
    rw [hops.joinLoad_eq]
    exact h
  | pollJoin hheld | dropJoin hheld =>
    obtain ⟨owner, output, discarder, clearing⟩ := h
    rw [joinLoad_append_singleton]
    refine ⟨?_, output, discarder, clearing⟩
    simp [Shared.joinSide, Pc.joinLoad, hheld] at owner ⊢
    omega

/-- A poll of the `JoinHandle`: its waker, and how many wakers had been woken before it. -/
structure JoinPoll where
  waker : ℕ
  before : ℕ
  deriving DecidableEq

/-- A task, with the last poll of its `JoinHandle`. -/
structure Watch (S : Scheduler) where
  task : Task S
  polled : Option JoinPoll

namespace Watch

def new (thread : S.Thread) (target : ℕ) : Watch S where
  task := Task.new thread target
  polled := none

def step (w : Watch S) (a : S.Env × Action S) : Option (Watch S) :=
  (stepIn w.task a).map fun t =>
    { task := t
      polled := match a.2 with
        | .pollJoin _ waker => some ⟨waker, w.task.shared.joinWoken.length⟩
        | _ => w.polled }

end Watch

def JoinPoll.WokenIn (p : JoinPoll) (woken : List ℕ) : Prop := p.waker ∈ woken.drop p.before

instance (p : JoinPoll) (woken : List ℕ) : Decidable (p.WokenIn woken) :=
  inferInstanceAs (Decidable (_ ∈ _))

theorem JoinPoll.WokenIn.append {p : JoinPoll} {woken : List ℕ} (h : p.WokenIn woken)
    (more : List ℕ) : p.WokenIn (woken ++ more) := by
  rw [WokenIn, List.drop_append]
  exact List.mem_append_left _ h

theorem JoinPoll.wokenIn_append_waker {p : JoinPoll} {woken : List ℕ}
    (h : p.before ≤ woken.length) : p.WokenIn (woken ++ [p.waker]) := by
  rw [WokenIn, List.drop_append_of_le_length h]
  simp

/-- The waker has been woken or is where `finalize` looks for it. -/
def JoinPoll.Posted (p : JoinPoll) (j : JoinSide) : Prop :=
  p.WokenIn j.woken ∨ j.trailer = some p.waker

def Pc.Posts (j : JoinSide) (p : JoinPoll) : Pc S → Prop
  | .readOutput waker | .joinStore waker => waker = p.waker
  | .joinFlag | .joinRewake => p.Posted j
  | _ => True

/-- `finalize` is about to take the trailer's waker. -/
def Pc.wakesJoin : Pc S → Bool
  | .finalizeWake _ _ => true
  | _ => false

theorem Pc.wakesJoin_of_not_inJoin {pc : Pc S} (h : pc.inJoin = false) : pc.wakesJoin = false := by
  cases pc <;> first | rfl | cases h

structure Announced (p : JoinPoll) (j : JoinSide) (ops : List (Op S)) : Prop where
  before : p.before ≤ j.woken.length
  /-- The last poll returned pending and the handle is still there. -/
  held : j.handle = true → p.WokenIn j.woken ∨
    (j.trailer = some p.waker ∧ (j.complete = true → ∃ op ∈ ops, op.pc.wakesJoin = true))
  polls : ∀ op ∈ ops, op.pc.Posts j p

section
variable {p : JoinPoll} {j j' : JoinSide} {ops : List (Op S)}

theorem JoinPoll.Posted.wake (h : p.Posted j) (hbefore : p.before ≤ j.woken.length) :
    p.WokenIn j.wake.woken := by
  rcases h with hwoken | htrailer
  · exact hwoken.append _
  · simp only [JoinSide.wake, htrailer, Option.toList_some]
    exact JoinPoll.wokenIn_append_waker hbefore

variable {i : ℕ} {op : Op S}

theorem mem_set_of_ne {q : Op S} (hi : ops[i]? = some op) (hq : q ∈ ops) (hne : q ≠ op)
    (op' : Op S) : q ∈ ops.set i op' := by
  obtain ⟨k, hk⟩ := List.getElem?_of_mem hq
  have hik : i ≠ k := by
    rintro rfl
    rw [hi] at hk
    exact hne (Option.some.inj hk).symm
  refine List.mem_of_getElem? (i := k) ?_
  rw [List.getElem?_set_ne hik]
  exact hk

/-- A finalizing operation stays where it is when another one advances. -/
theorem exists_wakesJoin_set (hi : ops[i]? = some op)
    (hpc : op.pc.wakesJoin = false) (h : ∃ q ∈ ops, q.pc.wakesJoin = true) (op' : Op S) :
    ∃ q ∈ ops.set i op', q.pc.wakesJoin = true := by
  obtain ⟨q, hq, hwakes⟩ := h
  refine ⟨q, mem_set_of_ne hi hq ?_ op', hwakes⟩
  rintro rfl
  simp [hpc] at hwakes

theorem joining_le_joinLoad (hi : ops[i]? = some op) :
    op.pc.joinLoad.joining ≤ (joinLoad ops).joining :=
  le_total (fun op : Op S => op.pc.joinLoad.joining) hi

theorem clearing_le_joinLoad (hi : ops[i]? = some op) :
    op.pc.joinLoad.clearing ≤ (joinLoad ops).clearing :=
  le_total (fun op : Op S => op.pc.joinLoad.clearing) hi

/-- While the handle is polled, nobody else has it. -/
theorem Joined.unheld (h : Joined j (joinLoad ops)) (hi : ops[i]? = some op)
    (hpc : op.pc.joinLoad.joining = 1) : j.handle = false := by
  have howner := h.owner
  have hle := joining_le_joinLoad hi
  cases hj : j.handle
  · rfl
  · simp [hj] at howner
    omega

theorem Joined.gone (h : Joined j (joinLoad ops)) (hi : ops[i]? = some op)
    (hpc : op.pc.joinLoad.clearing = 1) : j.handle = false ∧ (joinLoad ops).joining = 0 := by
  have howner := h.owner
  have hclearing := h.clearing
  have hle := clearing_le_joinLoad hi
  cases hinterest : j.interest
  · cases hj : j.handle
    · simp [hj, hinterest] at howner ⊢
      omega
    · simp [hj, hinterest] at howner
      omega
  · simp [hinterest] at hclearing
    omega

/-- What a poll in progress relies on outlives every access next to it. -/
theorem JoinPoll.Posted.access (hposted : p.Posted j) (h : Announced p j ops)
    {pc' : Pc S} (hi : ops[i]? = some op) (hacc : JoinAccess j op.pc j' pc')
    (hclear : op.pc.joinLoad.clearing = 0) : p.Posted j' := by
  have hpost := h.polls op (List.mem_of_getElem? hi)
  generalize op.pc = pc at hacc hclear hpost
  induction hacc with
  | finalizeWake | finalizeUnread | joinRewake => exact .inl (hposted.wake h.before)
  | joinStore => exact .inr (congrArg some hpost)
  | dropWaker | dropWakerComplete => simp [Pc.joinLoad] at hclear
  | _ => exact hposted

theorem Announced.access (hj : Joined j (joinLoad ops)) (h : Announced p j ops)
    {pc' : Pc S} (hi : ops[i]? = some op) (hacc : JoinAccess j op.pc j' pc') :
    Announced p j' (ops.set i (op.next pc')) := by
  have hpost := h.polls op (List.mem_of_getElem? hi)
  have hunheld := hj.unheld hi
  have hgone := hj.gone hi
  have hlater := exists_wakesJoin_set hi
  have hnew : op.next pc' ∈ ops.set i (op.next pc') :=
    List.mem_iff_getElem?.mpr ⟨i, by simp [(List.getElem?_eq_some_iff.mp hi).1]⟩
  have hold : ∀ q ∈ ops, q.pc.Posts j' p := by
    intro q hq
    have hqpost := h.polls q hq
    obtain ⟨k, hk⟩ := List.getElem?_of_mem hq
    have hjoining := joining_le_joinLoad hk
    have hkeep := fun hposted : p.Posted j => hposted.access h hi hacc
    generalize q.pc = qc at hqpost hjoining
    cases qc with
    | joinFlag | joinRewake =>
      refine hkeep hqpost ?_
      by_contra hclear
      have hone : op.pc.joinLoad.clearing = 1 := by
        generalize op.pc = pc at hclear
        cases pc <;> first | rfl | exact absurd rfl hclear
      have := (hgone hone).2
      simp only [Pc.joinLoad] at hjoining
      omega
    | readOutput | joinStore => exact hqpost
    | _ => trivial
  refine ⟨?_, ?_, fun q hq => ?_⟩
  · have hbefore := h.before
    generalize op.pc = pc at hacc
    induction hacc with
    | finalizeWake | finalizeUnread | joinRewake =>
      simp only [JoinSide.wake, List.length_append]
      omega
    | _ => exact hbefore
  · intro hheld
    have hbefore := h.before
    have hsame := h.held
    generalize hop : op.pc = pc at hacc hpost hunheld hgone hlater
    induction hacc with
    | finalizeComplete =>
      exact (hsame hheld).imp id fun ⟨htrailer, _⟩ => ⟨htrailer, fun _ => ⟨_, hnew, rfl⟩⟩
    | finalizeWake | finalizeUnread =>
      have hposted : p.Posted j := (hsame hheld).imp id And.left
      exact .inl (hposted.wake hbefore)
    | joinFlag hc =>
      refine hpost.imp id fun htrailer => ⟨htrailer, fun hcomplete => ?_⟩
      have hcomplete : j.complete = true := hcomplete
      simp [hc] at hcomplete
    | joinRewake => exact .inl (JoinPoll.Posted.wake hpost hbefore)
    | readOutput | readNothing | joinStore | joinComplete =>
      have hfalse := hunheld rfl
      have hheld : j.handle = true := hheld
      simp [hfalse] at hheld
    | dropFlag | dropWaker | dropWakerComplete =>
      have hfalse := (hgone rfl).1
      have hheld : j.handle = true := hheld
      simp [hfalse] at hheld
    | finalizeStage | finalizeDiscard | dropInterest | dropDiscard =>
      refine (hsame hheld).imp id fun ⟨htrailer, hwakes⟩ => ⟨htrailer, fun hc => ?_⟩
      exact hlater rfl (hwakes hc) _
  · rcases List.mem_or_eq_of_mem_set hq with hq | rfl
    · exact hold q hq
    · change pc'.Posts j' p
      generalize op.pc = pc at hacc hpost
      induction hacc with
      | readNothing => exact hpost
      | joinStore => exact .inr (congrArg some hpost)
      | joinComplete => exact hpost
      | _ => trivial

theorem Announced.quiet {ops' : List (Op S)} (h : Announced p j ops) (hops : QuietOps ops ops') :
    Announced p j ops' := by
  obtain ⟨before, held, polls⟩ := h
  have hposts : ∀ {pc : Pc S}, pc.quiet = true → pc.Posts j p := by
    intro pc hquiet
    cases pc <;> trivial
  cases hops with
  | same => exact ⟨before, held, polls⟩
  | set hi hpc hquiet =>
    refine ⟨before, fun hheld => ?_, fun q hq => ?_⟩
    · refine (held hheld).imp id fun ⟨htrailer, hwakes⟩ => ⟨htrailer, fun hc => ?_⟩
      exact exists_wakesJoin_set hi (Pc.wakesJoin_of_not_inJoin hpc) (hwakes hc) _
    · rcases List.mem_or_eq_of_mem_set hq with hq | rfl
      · exact polls q hq
      · exact hposts hquiet
  | start hquiet =>
    refine ⟨before, fun hheld => ?_, fun q hq => ?_⟩
    · refine (held hheld).imp id fun ⟨htrailer, hwakes⟩ => ⟨htrailer, fun hc => ?_⟩
      obtain ⟨q, hq, hwakes⟩ := hwakes hc
      exact ⟨q, List.mem_append_left _ hq, hwakes⟩
    · rcases List.mem_append.mp hq with hq | hq
      · exact polls q hq
      · obtain rfl := List.mem_singleton.mp hq
        exact hposts hquiet

end

structure Watched (w : Watch S) : Prop where
  consistent : Consistent w.task
  joined : Joined w.task.shared.joinSide (joinLoad w.task.ops)
  announced : ∀ p, w.polled = some p → Announced p w.task.shared.joinSide w.task.ops

theorem Joined.polls_nothing {j : JoinSide} {ops : List (Op S)} (h : Joined j (joinLoad ops))
    (hheld : j.handle = true) (p : JoinPoll) : ∀ op ∈ ops, op.pc.Posts j p := by
  intro op hop
  obtain ⟨i, hi⟩ := List.getElem?_of_mem hop
  have hnot := h.unheld hi
  generalize op.pc = pc at hnot
  cases pc with
  | readOutput | joinStore | joinFlag | joinRewake => simp [hnot rfl] at hheld
  | _ => trivial

theorem Watched.step {w w' : Watch S} (h : Watched w) {a : S.Env × Action S}
    (hs : Watch.step w a = some w') : Watched w' := by
  obtain ⟨env, a⟩ := a
  obtain ⟨t', hstep, rfl⟩ := Option.map_eq_some_iff.mp hs
  refine ⟨h.consistent.step hstep, h.joined.step h.consistent hstep, fun p hp => ?_⟩
  have hm := h.consistent.joinMoves hstep
  generalize t'.shared.joinSide = j, t'.ops = ops at hm
  cases hm with
  | access hi hacc => exact (h.announced p hp).access h.joined hi hacc
  | quiet hops hne =>
    refine (h.announced p ?_).quiet hops
    cases a <;> first | exact hp | exact absurd rfl (hne _ _)
  | pollJoin hheld =>
    cases hp
    rename_i waker
    refine ⟨le_rfl, nofun, fun q hq => ?_⟩
    rcases List.mem_append.mp hq with hq | hq
    · have := h.joined.polls_nothing hheld ⟨waker, w.task.shared.joinWoken.length⟩ q hq
      generalize q.pc = pc at this
      cases pc <;> exact this
    · obtain rfl := List.mem_singleton.mp hq
      rfl
  | dropJoin hheld =>
    obtain ⟨before, held, polls⟩ := h.announced p hp
    refine ⟨before, nofun, fun q hq => ?_⟩
    rcases List.mem_append.mp hq with hq | hq
    · have := polls q hq
      generalize q.pc = pc at this
      cases pc <;> exact this
    · obtain rfl := List.mem_singleton.mp hq
      trivial

theorem watched_of_reachable {w : Watch S}
    (h : Reachable Watch.step anyStep (Watch.new thread target) w) : Watched w :=
  h.invariant ⟨consistent_new _ _, joined_new _ _, nofun⟩ fun _ _ _ hw _ hs => hw.step hs

/-- An access of a poll or of the drop of the `JoinHandle`. -/
def Pc.usesHandle : Pc S → Bool
  | .readOutput _ | .joinStore _ | .joinFlag | .joinRewake | .dropJoinInterest | .dropJoinFlag _
  | .dropJoinWaker _ | .dropJoinDiscard => true
  | _ => false

def Pc.inFinalize : Pc S → Bool
  | .finalizeStage _ _ | .finalizeComplete _ | .finalizeWake _ _ | .finalizeDiscard _
  | .finalizeRemove _ => true
  | _ => false

/-- The `JoinHandle` has been dropped or has returned the output. -/
def Task.handleGone (t : Task S) : Bool :=
  !t.shared.joinHandle && t.ops.all fun op => !op.pc.usesHandle

def Task.finalizeFinished (t : Task S) : Bool :=
  0 < t.shared.finalized && t.ops.all fun op => !op.pc.inFinalize

/-- What `JoinHandle::poll` and `JoinHandle::drop` rely on. -/
structure JoinServed (w : Watch S) : Prop where
  /-- The last poll returned pending, the handle is still there and the task is complete. -/
  notified : ∀ p, w.polled = some p → w.task.shared.joinHandle = true →
    Snapshot.isComplete w.task.shared.word = true →
    p.WokenIn w.task.shared.joinWoken ∨
      ∃ i op, w.task.ops[i]? = some op ∧ op.pc.wakesJoin = true ∧
        ∀ env, ∃ t', step env w.task (.advance i) = some t' ∧ p.WokenIn t'.shared.joinWoken
  once : w.task.shared.outputsRead + w.task.shared.outputsDiscarded ≤ 1
  delivered : w.task.handleGone = true → w.task.finalizeFinished = true →
    w.task.shared.outputsRead + w.task.shared.outputsDiscarded = 1 ∧
      w.task.shared.stage = .consumed

theorem Watched.waker_taken {w : Watch S} (h : Watched w) {p : JoinPoll} (hp : w.polled = some p)
    (htrailer : w.task.shared.trailer = some p.waker) {i : ℕ} {op : Op S}
    (hi : w.task.ops[i]? = some op) (hpc : op.pc.wakesJoin = true) (env : S.Env) :
    ∃ t', TaskHarness.step env w.task (.advance i) = some t' ∧ p.WokenIn t'.shared.joinWoken := by
  obtain ⟨thread, lender, pc⟩ := op
  cases pc with
  | finalizeWake via interest =>
    refine ⟨_, by simp only [TaskHarness.step, hi, Option.bind_some, opStep, Option.map_some]; rfl, ?_⟩
    exact JoinPoll.Posted.wake (j := w.task.shared.joinSide) (.inr htrailer)
      (h.announced p hp).before
  | _ => cases hpc

theorem Watched.consumed {w : Watch S} (h : Watched w) (hgone : w.task.handleGone = true)
    (hdone : w.task.finalizeFinished = true) :
    w.task.shared.outputsRead + w.task.shared.outputsDiscarded = 1 ∧
      w.task.shared.stage = .consumed := by
  simp only [Task.handleGone, Task.finalizeFinished, Bool.and_eq_true, Bool.not_eq_true',
    List.all_eq_true, decide_eq_true_eq] at hgone hdone
  obtain ⟨hunheld, huses⟩ := hgone
  obtain ⟨hfinalized, hfinalize⟩ := hdone
  have hload : ∀ op ∈ w.task.ops, op.pc.joinLoad = {} ∧ op.pc.load.staged = 0 := by
    intro op hop
    have hnot := huses op hop
    have hnot' := hfinalize op hop
    generalize op.pc = pc at hnot hnot'
    cases pc with
    | finalizeComplete | finalizeWake | finalizeDiscard => cases hnot'
    | readOutput | joinStore | joinFlag | joinRewake | dropJoinInterest | dropJoinFlag
    | dropJoinWaker | dropJoinDiscard => cases hnot
    | _ => exact ⟨rfl, rfl⟩
  obtain ⟨owner, output, discarder, -⟩ := h.joined
  have hle := h.consistent.finalized_le
  have hstaged := h.consistent.staged
  have hzero : (load w.task.ops).staged = 0 := total_eq_zero_iff.mpr fun op hop => (hload op hop).2
  have hc : (view w.task.shared.word).complete = true := by
    have := hstaged.finalized
    cases hc : (view w.task.shared.word).complete
    · simp [hc, hzero] at this
      omega
    · rfl
  have hzero : (joinLoad w.task.ops).joining = 0 ∧ (joinLoad w.task.ops).leaving = 0 ∧
      (joinLoad w.task.ops).discarding = 0 := by
    refine ⟨total_eq_zero_iff.mpr ?_, total_eq_zero_iff.mpr ?_, total_eq_zero_iff.mpr ?_⟩ <;>
      intro op hop <;> simp [(hload op hop).1]
  obtain ⟨hjoining, hleaving, hdiscarding⟩ := hzero
  simp only [Shared.joinSide, hunheld, hjoining, hleaving, hdiscarding, hc] at owner output discarder
  have hout : w.task.shared.stage.isFinished = false := by
    by_contra hout
    rw [Bool.not_eq_false] at hout
    cases hinterest : (view w.task.shared.word).joinInterest with
    | false => exact absurd (discarder trivial hinterest hout) (Nat.lt_irrefl 0)
    | true =>
      simp [hinterest] at owner
      simp [hout] at output
      omega
  refine ⟨by simp [hout] at output; omega, ?_⟩
  have hrunning := hstaged.stage
  cases hstage : w.task.shared.stage with
  | running =>
    have := hrunning.mp hstage
    omega
  | finished outcome => simp [hstage, Stage.isFinished] at hout
  | consumed => rfl

theorem join_served {w : Watch S} (h : Reachable Watch.step anyStep (Watch.new thread target) w) :
    JoinServed w := by
  have hw := watched_of_reachable h
  refine ⟨fun p hp hheld hc => ?_, ?_, hw.consumed⟩
  · rcases (hw.announced p hp).held hheld with hwoken | ⟨htrailer, hwakes⟩
    · exact .inl hwoken
    · obtain ⟨op, hop, hpc⟩ := hwakes hc
      obtain ⟨i, hi⟩ := List.getElem?_of_mem hop
      exact .inr ⟨i, op, hi, hpc, hw.waker_taken hp htrailer hi hpc⟩
  · have houtput := hw.joined.output
    have hle := hw.consistent.finalized_le
    simp only [Shared.joinSide] at houtput
    omega

/-- The handle is gone and has left no waker behind. -/
structure Unattended (t : Task S) : Prop where
  handle : t.shared.joinHandle = false
  joining : (joinLoad t.ops).joining = 0
  trailer : t.shared.trailer = none

theorem Unattended.step (hcon : Consistent t) (h : Unattended t) {a : Action S}
    (hs : TaskHarness.step env t a = some t') :
    Unattended t' ∧ t'.shared.joinWoken = t.shared.joinWoken := by
  obtain ⟨handle, joining, trailer⟩ := h
  have hm := hcon.joinMoves hs
  suffices hside : t'.shared.joinSide.handle = false ∧ (joinLoad t'.ops).joining = 0 ∧
      t'.shared.joinSide.trailer = none ∧ t'.shared.joinSide.woken = t.shared.joinWoken from
    ⟨⟨hside.1, hside.2.1, hside.2.2.1⟩, hside.2.2.2⟩
  generalize t'.shared.joinSide = j, t'.ops = ops at hm
  cases hm with
  | access hi hacc =>
    rename_i i op pc
    have hsplit := joinLoad_eraseIdx hi
    rw [hsplit, JoinLoad.add_joining] at joining
    have hnot : op.pc.joinLoad.joining = 0 := by omega
    rw [joinLoad_set hi]
    simp only [Op.next, JoinLoad.add_joining]
    generalize op.pc = pc at hacc hnot
    have hwake : t.shared.joinSide.wake = t.shared.joinSide := by
      simp [JoinSide.wake, Shared.joinSide, trailer]
    cases hacc with
    | readOutput | readNothing | joinStore | joinComplete | joinFlag | joinRewake => cases hnot
    | finalizeWake | finalizeUnread =>
      rw [hwake]
      exact ⟨handle, by simp [Pc.joinLoad]; omega, trailer, rfl⟩
    | _ => exact ⟨handle, by simp [Pc.joinLoad]; omega, by first | exact trailer | rfl, rfl⟩
  | quiet hops => exact ⟨handle, by rw [hops.joinLoad_eq]; exact joining, trailer, rfl⟩
  | pollJoin hheld | dropJoin hheld => simp [handle] at hheld

theorem Unattended.unwoken {w w' : Watch S} (hcon : Consistent w.task) (h : Unattended w.task)
    (hreach : Reachable Watch.step anyStep w w') :
    w'.task.shared.joinWoken = w.task.shared.joinWoken := by
  have hkept := hreach.invariant (I := fun w' => Consistent w'.task ∧ Unattended w'.task ∧
    w'.task.shared.joinWoken = w.task.shared.joinWoken) ⟨hcon, h, rfl⟩ ?_
  · exact hkept.2.2
  · rintro w₁ ⟨env, a⟩ w₂ ⟨hcon₁, h₁, hwoken⟩ - hs
    obtain ⟨t', hstep, rfl⟩ := Option.map_eq_some_iff.mp hs
    obtain ⟨h₂, hsame⟩ := h₁.step hcon₁ hstep
    exact ⟨hcon₁.step hstep, h₂, hsame.trans hwoken⟩

end Eddy.TaskHarness

namespace Eddy.MultiThread
open TaskState TaskHarness Interleaving

/-- The task is queued, and the `JoinHandle` is polled with waker 7. -/
def polledPending : List (Action scheduler) :=
  spawnSteps ++ .pollJoin none 7 :: advances 1 3

def runToComplete (op : ℕ) : List (Action scheduler) :=
  .take (some 0) 0 :: advances op 2 ++ .pollReturns op .ready :: advances op 2

theorem join_waker_taken_by_finalize :
    ∃ w : Watch scheduler, Reachable Watch.step anyStep (Watch.new none 0) w ∧
      w.polled = some ⟨7, 0⟩ ∧ w.task.shared.joinHandle = true ∧
      Snapshot.isComplete w.task.shared.word = true ∧ w.task.shared.joinWoken = [] ∧
      JoinServed w := by
  obtain ⟨w, hreach, hw⟩ := exists_reachable_of_run
    (show (run (guarded Watch.step anyStep) (Watch.new none 0 : Watch scheduler)
      (under (.open 1) (polledPending ++ runToComplete 2))).any (fun w =>
        w.polled = some ⟨7, 0⟩ && w.task.shared.joinHandle &&
          Snapshot.isComplete w.task.shared.word && w.task.shared.joinWoken = []) = true by
      decide +kernel)
  simp only [Bool.and_eq_true, decide_eq_true_eq] at hw
  exact ⟨w, hreach, hw.1.1.1, hw.1.1.2, hw.1.2, hw.2, join_served hreach⟩

/-- The poll returned pending, the handle was dropped and the task completed: the waker is
never woken. -/
theorem dropped_join_waker_never_woken :
    ∃ w : Watch scheduler, Reachable Watch.step anyStep (Watch.new none 0) w ∧
      w.polled = some ⟨7, 0⟩ ∧ w.task.shared.outputsRead = 0 ∧
      Snapshot.isComplete w.task.shared.word = true ∧ w.task.finalizeFinished = true ∧
      ∀ w', Reachable Watch.step anyStep w w' → w'.task.shared.joinWoken = [] := by
  obtain ⟨w, hreach, hw⟩ := exists_reachable_of_run
    (show (run (guarded Watch.step anyStep) (Watch.new none 0 : Watch scheduler)
      (under (.open 1) (polledPending ++ .dropJoin none :: advances 2 4 ++ runToComplete 3 ++
        advances 3 5))).any (fun w =>
          w.polled = some ⟨7, 0⟩ && w.task.shared.outputsRead = 0 &&
            Snapshot.isComplete w.task.shared.word && w.task.finalizeFinished &&
            !w.task.shared.joinHandle && (joinLoad w.task.ops).joining = 0 &&
            w.task.shared.trailer = none && w.task.shared.joinWoken = []) = true by
      decide +kernel)
  simp only [Bool.and_eq_true, decide_eq_true_eq, Bool.not_eq_true'] at hw
  obtain ⟨⟨⟨⟨⟨⟨⟨hpolled, hread⟩, hc⟩, hdone⟩, hhandle⟩, hjoining⟩, htrailer⟩, hwoken⟩ := hw
  refine ⟨w, hreach, hpolled, hread, hc, hdone, fun w' hreach' => ?_⟩
  rw [Unattended.unwoken (watched_of_reachable hreach).consistent ⟨hhandle, hjoining, htrailer⟩
    hreach', hwoken]

end Eddy.MultiThread
