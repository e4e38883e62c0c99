import Eddy.TaskInvariant

/-!
# Tasks under interleaved operations

The invariants of one access lift to every action on the task: an operation advances, the
future's poll returns, an entry is taken, or a new operation starts through one of the
task's handles. An operation that works through a handle it does not own keeps the handle,
and hence the cell, alive.
-/

namespace Eddy.TaskHarness
open TaskState Interleaving

variable {S : Scheduler}

def After.byRef : After S → Bool
  | .scheduled caller _ => caller = .wakeByRef
  | _ => false

/-- An operation that works through a handle it does not own. -/
def Pc.byRef : Pc S → Bool
  | .wakeByRef | .shutdown => true
  | .schedule caller _ | .scheduled caller _ => caller = .wakeByRef
  | .finalizeStage via _ | .finalizeComplete via | .finalizeWake via _ | .finalizeDiscard via
  | .finalizeRemove via => !via.spends
  | .dropReference after | .dealloc after | .deferInc after | .deferPush after => after.byRef
  | _ => false

@[simp] theorem After.byRef_pc (after : After S) : after.pc.byRef = after.byRef := by
  cases after <;> rfl

@[simp] theorem After.byRef_ofRest (caller : Caller) (rest : Option S.Post) :
    (After.ofRest caller rest).byRef = (rest.isSome && caller = .wakeByRef) := by
  cases rest <;> rfl

structure Consistent (t : Task S) : Prop where
  counted : Counted t.shared (load t.ops)
  claimed : Claimed t.shared (load t.ops)
  staged : Staged t.shared (load t.ops)
  /-- What an operation has borrowed exists. -/
  lent : ∀ op ∈ t.ops, ∀ x, op.lender = some x → t.lends x = true
  byRef : ∀ op ∈ t.ops, op.pc.byRef = true → op.lender ≠ none

/-- The only operation of a new task is about to register it. -/
theorem load_new (thread : S.Thread) (target : ℕ) :
    load (Task.new thread target).ops = { refs := 1, handing := 1, registering := 1 } := rfl

theorem consistent_new (thread : S.Thread) (target : ℕ) : Consistent (Task.new thread target) where
  counted := by
    rw [load_new]
    refine ⟨?_, fun _ => ?_, fun h => ?_, fun _ => ?_, fun _ h => ?_, ?_, ?_⟩ <;>
      simp [Task.new, Shared.handles, Registry.refs, Registry.vacant] at *
    decide
  claimed := by
    rw [load_new]
    constructor <;> simp [Task.new, Shared.claims]
  staged := by
    rw [load_new]
    constructor <;> simp [Task.new]
  lent := by simp [Task.new]
  byRef := by simp [Task.new, Pc.byRef]

section
variable {sh sh' : Shared S} {l : Load} {pc pc' : Pc S} {env : S.Env} {thread : S.Thread}

/-- The handles that an access leaves alone. -/
structure Keeps (sh sh' : Shared S) : Prop where
  wakers : sh'.wakers = sh.wakers
  aborts : sh'.aborts = sh.aborts
  join : sh.joinHandle = true → sh'.joinHandle = true
  registry : sh.registry = .taken → sh'.registry = .taken

theorem Access.keeps (h : Access env thread sh pc sh' pc')
    (habsent : pc.load.registering = 1 → sh.registry = .absent) : Keeps sh sh' := by
  induction h <;> constructor <;> simp_all [Pc.load, Shared.touchFuture]

structure Grows (sh sh' : Shared S) : Prop where
  cancelled : (view sh.word).cancelled = true → (view sh'.word).cancelled = true
  complete : (view sh.word).complete = true → (view sh'.word).complete = true
  polls : sh.polls ≤ sh'.polls
  dropped : sh.dropped ≤ sh'.dropped
  /-- Only a poll or completion takes NOTIFIED back. -/
  notified : (view sh.word).notified = true →
    (view sh'.word).notified = true ∨ sh.polls < sh'.polls ∨ (view sh'.word).complete = true

theorem Access.grows (h : Access env thread sh pc sh' pc') : Grows sh sh' := by
  induction h <;> constructor <;> simp_all [Shared.touchFuture]

theorem opStep_keeps (hcount : Counted sh (l + pc.load))
    (hs : opStep env thread sh pc = some (sh', pc')) : Keeps sh sh' :=
  (hcount.access hs).keeps fun hpc => (hcount.vacant hpc).1

/-- An operation that works through a handle has done so from its start. -/
theorem Access.byRef (h : Access env thread sh pc sh' pc') (hpc : pc'.byRef = true) :
    pc.byRef = true := by
  induction h with
  | queued =>
    rw [After.byRef_pc, After.byRef_ofRest, Bool.and_eq_true] at hpc
    exact hpc.2
  | dropped =>
    rw [Pc.byRef, After.byRef_ofRest, Bool.and_eq_true] at hpc
    exact hpc.2
  | droppedReference | dealloc | forgotten | deferred => rwa [After.byRef_pc] at hpc
  | droppedLast | deallocElsewhere | deferInc => exact hpc
  | _ => simp_all [Pc.byRef, After.byRef, Via.spends]

/-- Only a refused spawn and a `schedule` call drop an entry. -/
theorem Access.dropped_cases (h : Access env thread sh pc sh' pc') :
    sh'.dropped = sh.dropped ∨
    (pc = .register ∧ S.refuses env = true ∧ sh'.registry = sh.registry) ∨
    ∃ caller pre rest, pc = .schedule caller pre ∧
      S.pre env thread sh.target sh.ownerId pre = .drop rest := by
  induction h with
  | refused hrefuses => exact .inr (.inl ⟨rfl, hrefuses, rfl⟩)
  | dropped hpre => exact .inr (.inr ⟨_, _, _, rfl, hpre⟩)
  | _ => exact .inl rfl

/-- Only a `schedule` call queues an entry. -/
theorem Access.entries_cases (h : Access env thread sh pc sh' pc') :
    sh'.entries = sh.entries ∨ ∃ caller pre place rest, pc = .schedule caller pre ∧
      S.pre env thread sh.target sh.ownerId pre = .queue place rest ∧
      sh'.entries = sh.entries ++ [place] := by
  induction h with
  | queued hpre => exact .inr ⟨_, _, _, _, rfl, hpre, rfl⟩
  | _ => exact .inl rfl

/-- No access makes an operation take an entry. -/
theorem Access.poll_le (h : Access env thread sh pc sh' pc') :
    pc'.load.running + pc'.load.starting ≤ pc.load.running + pc.load.starting := by
  induction h with
  | queued | droppedReference | dealloc | forgotten | deferred => simp
  | _ => simp [Pc.load, Via.holdsRunning]

theorem Pc.isFinished_iff : pc.isFinished = true ↔ pc = .finished := by
  cases pc <;> simp [Pc.isFinished]

theorem Access.not_finished (h : Access env thread sh pc sh' pc') : pc.isFinished = false := by
  induction h <;> rfl

end

variable {t t' : Task S} {env : S.Env}

theorem load_finished : (Pc.finished : Pc S).load = {} := rfl

variable {a : Action S} {x : Lender} {k i : ℕ}

/-- A polling operation other than the one at `i` is still polling after `i` moves. -/
theorem any_polling_set {ops : List (Op S)} {op op' : Op S} (hi : ops[i]? = some op)
    (hpc : op.pc.isPolling = false) (h : (ops.any fun op => op.pc.isPolling) = true) :
    ((ops.set i op').any fun op => op.pc.isPolling) = true := by
  rw [List.any_eq_true] at h ⊢
  obtain ⟨p, hp, hpolling⟩ := h
  obtain ⟨j, hj⟩ := List.getElem?_of_mem hp
  refine ⟨p, ?_, hpolling⟩
  have hne : i ≠ j := by
    rintro rfl
    rw [hi] at hj
    cases hj
    simp [hpc] at hpolling
  exact List.mem_of_getElem? (by rwa [List.getElem?_set_ne hne])

/-- What is borrowed belongs to an owner that is not a deferred deallocation. -/
theorem lent_of_lends (hx : t.lends x = true) : Lent t.shared (load t.ops) := by
  have hsane := (load_sane t.ops).refs
  unfold Lent
  cases x <;> simp only [Task.lends, decide_eq_true_eq] at hx
  case poll =>
    obtain ⟨p, hp, hpolling⟩ := List.any_eq_true.mp hx
    obtain ⟨j, hj⟩ := List.getElem?_of_mem hp
    have hone : 1 ≤ (load t.ops).polling := by
      have := le_total (fun op : Op S => op.pc.load.polling) hj
      have hload : p.pc.load.polling = 1 := by
        cases hpc : p.pc <;> simp only [hpc, Pc.isPolling, Bool.false_eq_true] at hpolling
        rfl
      simp only [hload] at this
      exact this
    simp only [Shared.handles]
    omega
  all_goals
    simp only [Shared.handles, hx, Registry.refs, Bool.toNat_true]
    omega

theorem Consistent.advance (h : Consistent t) (hs : step env t (.advance i) = some t') :
    Consistent t' := by
  obtain ⟨op, hi, hs⟩ := Option.bind_eq_some_iff.mp hs
  obtain ⟨⟨sh', pc'⟩, hop, rfl⟩ := Option.map_eq_some_iff.mp hs
  have hmem := List.mem_of_getElem? hi
  have hl := load_sane (t.ops.eraseIdx i)
  have hcount := h.counted
  have hclaim := h.claimed
  have hstage := h.staged
  rw [load_eraseIdx hi] at hcount hclaim hstage
  have hpolling : op.pc.isPolling = false := by
    cases hpc : op.pc <;> first | rfl | (rw [hpc] at hop; cases hop)
  have hacc := hcount.access hop
  have hkeeps := opStep_keeps hcount hop
  refine ⟨?_, ?_, ?_, ?_, ?_⟩
  · rw [load_set hi]
    refine hcount.of_access hl (fun hpc => ?_) hacc
    obtain ⟨x, hx⟩ := Option.ne_none_iff_exists'.mp (h.byRef op hmem (by rw [hpc]; rfl))
    rw [← load_eraseIdx hi]
    exact lent_of_lends (h.lent op hmem x hx)
  · rw [load_set hi]
    exact hclaim.of_access hacc
  · rw [load_set hi]
    exact hstage.of_access hl hclaim hacc
  · intro p hp x hx
    have hbefore : t.lends x = true := by
      rcases List.mem_or_eq_of_mem_set hp with hp | rfl
      · exact h.lent p hp x hx
      · refine h.lent op hmem x ?_
        simp only [Op.next] at hx
        split_ifs at hx
        exact hx
    cases x <;> simp only [Task.lends, decide_eq_true_eq] at hbefore ⊢
    case waker => rwa [hkeeps.wakers]
    case abort => rwa [hkeeps.aborts]
    case join => exact hkeeps.join hbefore
    case registry => exact hkeeps.registry hbefore
    case poll => exact any_polling_set hi hpolling hbefore
  · intro p hp hpc
    rcases List.mem_or_eq_of_mem_set hp with hp | rfl
    · exact h.byRef p hp hpc
    · have hold := h.byRef op hmem ((hcount.access hop).byRef hpc)
      have hfin : pc'.isFinished = false := by
        cases pc' <;> first | rfl | cases hpc
      simpa [Op.next, hfin] using hold

/-- The future's poll returns when nothing works through its waker any more. -/
theorem Consistent.pollReturns (h : Consistent t) {result : PollResult}
    (hs : step env t (.pollReturns i result) = some t') : Consistent t' := by
  obtain ⟨op, hi, hs⟩ := Option.bind_eq_some_iff.mp hs
  split_ifs at hs with hpoll
  cases hs
  simp only [Bool.and_eq_true, Bool.not_eq_true', Task.borrowed, List.any_eq_false] at hpoll
  obtain ⟨hpolling, hfree⟩ := hpoll
  have hpc : op.pc = .polling := by
    cases hpc : op.pc <;> simp only [hpc, Pc.isPolling, Bool.false_eq_true] at hpolling
    rfl
  have hcount := h.counted
  have hclaim := h.claimed
  have hstage := h.staged
  rw [load_eraseIdx hi, hpc] at hcount hclaim hstage
  refine ⟨?_, ?_, ?_, ?_, ?_⟩
  · rw [load_set hi]
    cases result <;> exact hcount.moved rfl rfl rfl rfl rfl le_rfl le_rfl
  · rw [load_set hi]
    cases result <;> exact hclaim.moved ⟨rfl, rfl, rfl, rfl⟩ rfl rfl rfl rfl rfl
  · rw [load_set hi]
    have hlocked := hstage.locked
    have hle := Bool.toNat_le t.shared.stageLocked
    simp only [Pc.load, Load.add_polling] at hlocked
    have hzero : (load (t.ops.eraseIdx i)).polling = 0 := by omega
    cases result <;>
      exact ⟨hstage.finalized, hstage.stage, by simp [Op.next, PollResult.next, Pc.load, hzero]⟩
  · intro p hp x hx
    have hbefore : ∃ q ∈ t.ops, q.lender = some x := by
      rcases List.mem_or_eq_of_mem_set hp with hp | rfl
      · exact ⟨p, hp, hx⟩
      · simp only [Op.next] at hx
        split_ifs at hx
        exact ⟨op, List.mem_of_getElem? hi, hx⟩
    obtain ⟨q, hq, hqx⟩ := hbefore
    have hlends := h.lent q hq x hqx
    cases x <;> first | exact hlends | exact absurd hqx (by simpa using hfree q hq)
  · intro p hp hpc
    rcases List.mem_or_eq_of_mem_set hp with hp | rfl
    · exact h.byRef p hp hpc
    · cases result <;> cases hpc

/-- A new operation takes over references from the shared part. -/
theorem Consistent.begin (h : Consistent t) {sh : Shared S} {thread : S.Thread} {pc : Pc S}
    (hcount : Counted sh (load t.ops + pc.load)) (hclaim : Claimed sh (load t.ops + pc.load))
    (hstage : Staged sh (load t.ops + pc.load)) (hpc : pc.byRef = false)
    (hlends : ∀ x, t.borrowed x = true → t.lends x = true →
      Task.lends (t.begin sh thread pc) x = true) : Consistent (t.begin sh thread pc) where
  counted := by
    rw [Task.begin, load_append_singleton]
    exact hcount
  claimed := by
    rw [Task.begin, load_append_singleton]
    exact hclaim
  staged := by
    rw [Task.begin, load_append_singleton]
    exact hstage
  lent := by
    intro op hop x hx
    rcases List.mem_append.mp hop with hop | hop
    · refine hlends x ?_ (h.lent op hop x hx)
      exact List.any_eq_true.mpr ⟨op, hop, by simp [hx]⟩
    · obtain rfl := List.mem_singleton.mp hop
      cases hx
  byRef := by
    intro op hop hb
    rcases List.mem_append.mp hop with hop | hop
    · exact h.byRef op hop hb
    · obtain rfl := List.mem_singleton.mp hop
      simp [hpc] at hb

/-- A new operation works through a handle that exists. -/
theorem Consistent.borrow (h : Consistent t) {thread : S.Thread} {pc : Pc S}
    (hx : t.lends x = true) (hpc : pc.load = {}) : Consistent (t.borrow thread x pc) where
  counted := by
    rw [Task.borrow, load_append_singleton]
    simp only [hpc]
    exact h.counted
  claimed := by
    rw [Task.borrow, load_append_singleton]
    simp only [hpc]
    exact h.claimed
  staged := by
    rw [Task.borrow, load_append_singleton]
    simp only [hpc]
    exact h.staged
  lent := by
    have hkeep : ∀ y, t.lends y = true → (t.borrow thread x pc).lends y = true := by
      intro y hy
      cases y <;> first | exact hy | simp_all [Task.lends, Task.borrow]
    intro op hop y hy
    rcases List.mem_append.mp hop with hop | hop
    · exact hkeep y (h.lent op hop y hy)
    · obtain rfl := List.mem_singleton.mp hop
      cases hy
      exact hkeep x hx
  byRef := by
    intro op hop hb
    rcases List.mem_append.mp hop with hop | hop
    · exact h.byRef op hop hb
    · obtain rfl := List.mem_singleton.mp hop
      simp

/-- A handle is given up only if another one is left, or nobody works through it. -/
theorem Task.mayGiveUp_spec {n : ℕ} (h : t.mayGiveUp x n = true) :
    0 < n ∧ (t.borrowed x = true → 0 < n - 1) := by
  simp only [Task.mayGiveUp, Bool.or_eq_true, Bool.and_eq_true, decide_eq_true_eq,
    Bool.not_eq_true'] at h
  rcases h with h | ⟨h, hfree⟩
  · exact ⟨by omega, fun _ => by omega⟩
  · exact ⟨h, by simp [hfree]⟩

theorem any_polling_append {ops : List (Op S)} (op : Op S)
    (h : (ops.any fun op => op.pc.isPolling) = true) :
    ((ops ++ [op]).any fun op => op.pc.isPolling) = true := by
  simp [List.any_append, h]

/-- The operations in progress and one that has finished. -/
theorem Consistent.countedIdle (h : Consistent t) :
    Counted t.shared (load t.ops + (Pc.finished : Pc S).load) := h.counted

theorem Consistent.claimedIdle (h : Consistent t) :
    Claimed t.shared (load t.ops + (Pc.finished : Pc S).load) := h.claimed

theorem Consistent.stagedIdle (h : Consistent t) :
    Staged t.shared (load t.ops + (Pc.finished : Pc S).load) := h.staged

/-- An owned waker goes into an operation. -/
theorem Consistent.giveUpWaker (h : Consistent t) {thread : S.Thread} {pc : Pc S}
    (hgive : t.mayGiveUp .waker t.shared.wakers = true) (hpc : pc.load = { refs := 1 })
    (hbyRef : pc.byRef = false) :
    Consistent (t.begin { t.shared with wakers := t.shared.wakers - 1 } thread pc) := by
  obtain ⟨hpos, hleft⟩ := Task.mayGiveUp_spec hgive
  refine h.begin ?_ ?_ ?_ hbyRef ?_
  · refine h.countedIdle.moved rfl rfl ?_ ?_ ?_ ?_ ?_ <;>
      simp only [hpc, Shared.handles, load_finished] <;> omega
  · refine h.claimedIdle.moved ⟨rfl, rfl, rfl, rfl⟩ ?_ ?_ ?_ rfl rfl <;>
      simp only [hpc, load_finished]
  · refine h.stagedIdle.moved rfl rfl Iff.rfl rfl ?_ ?_ <;>
      simp only [hpc, load_finished]
  · intro x hborrowed hlends
    cases x with
    | waker => exact decide_eq_true (hleft hborrowed)
    | poll => exact any_polling_append _ hlends
    | abort | join | registry => exact hlends

theorem Consistent.giveUpAbort (h : Consistent t) {thread : S.Thread}
    (hgive : t.mayGiveUp .abort t.shared.aborts = true) :
    Consistent (t.begin { t.shared with aborts := t.shared.aborts - 1 } thread
      (.dropReference .return)) := by
  obtain ⟨hpos, hleft⟩ := Task.mayGiveUp_spec hgive
  refine h.begin ?_ ?_ ?_ rfl ?_
  · refine h.countedIdle.moved rfl rfl ?_ rfl rfl le_rfl le_rfl
    simp only [Shared.handles, Pc.load, After.refs]
    omega
  · exact h.claimedIdle.moved ⟨rfl, rfl, rfl, rfl⟩ rfl rfl rfl rfl rfl
  · exact h.stagedIdle.moved rfl rfl Iff.rfl rfl rfl rfl
  · intro x hborrowed hlends
    cases x with
    | abort => exact decide_eq_true (hleft hborrowed)
    | poll => exact any_polling_append _ hlends
    | waker | join | registry => exact hlends

/-- The `JoinHandle` goes into an operation: nothing else can work through it meanwhile. -/
theorem Consistent.giveUpJoin (h : Consistent t) {thread : S.Thread} {pc : Pc S} {joining : ℕ}
    (hgive : t.mayGiveUp .join t.shared.joinHandle.toNat = true)
    (hpc : pc.load = { refs := 1, joining := joining }) (hjoining : joining ≤ 1)
    (hbyRef : pc.byRef = false) :
    Consistent (t.begin { t.shared with joinHandle := false } thread pc) := by
  obtain ⟨hpos, hleft⟩ := Task.mayGiveUp_spec hgive
  have hle := Bool.toNat_le t.shared.joinHandle
  have hone : t.shared.joinHandle.toNat = 1 := by omega
  refine h.begin ?_ ?_ ?_ hbyRef ?_
  · refine h.countedIdle.moved rfl rfl ?_ ?_ ?_ ?_ ?_ <;>
      simp only [hpc, Shared.handles, load_finished, Bool.toNat_false] <;> omega
  · refine h.claimedIdle.moved ⟨rfl, rfl, rfl, rfl⟩ ?_ ?_ ?_ rfl rfl <;>
      simp only [hpc, load_finished]
  · refine h.stagedIdle.moved rfl rfl Iff.rfl rfl ?_ ?_ <;>
      simp only [hpc, load_finished]
  · intro x hborrowed hlends
    cases x with
    | join =>
      have := hleft hborrowed
      omega
    | poll => exact any_polling_append _ hlends
    | waker | abort | registry => exact hlends

/-- A handle is cloned. -/
theorem Consistent.clone (h : Consistent t) {sh : Shared S} {word : UInt64}
    (hx : t.lends x = true) (hinc : State.refInc t.shared.word = some word)
    (hsh : sh = { t.shared with word := word, wakers := sh.wakers, aborts := sh.aborts })
    (hwakers : t.shared.wakers ≤ sh.wakers) (haborts : t.shared.aborts ≤ sh.aborts)
    (hmore : sh.wakers + sh.aborts = t.shared.wakers + t.shared.aborts + 1) :
    Consistent { t with shared := sh } := by
  obtain ⟨hview, hmax⟩ := view_refInc hinc
  refine ⟨?_, ?_, ?_, ?_, h.byRef⟩
  · change Counted sh (load t.ops + (Pc.finished : Pc S).load)
    refine h.countedIdle.incremented (lent_of_lends hx) ?_ hmax ?_ ?_ rfl ?_ ?_ ?_ <;>
      rw [hsh] <;> simp [hview, Shared.handles, load_finished]
    omega
  · change Claimed sh (load t.ops + (Pc.finished : Pc S).load)
    refine h.claimedIdle.moved ?_ rfl ?_ rfl ?_ ?_ <;> rw [hsh]
    simp [hview]
  · change Staged sh (load t.ops + (Pc.finished : Pc S).load)
    refine h.stagedIdle.moved ?_ ?_ ?_ ?_ rfl rfl <;> rw [hsh]
    simp [hview]
  · intro op hop y hy
    have hlends := h.lent op hop y hy
    cases y <;> simp only [Task.lends, decide_eq_true_eq] at hlends ⊢
    case waker => omega
    case abort => omega
    case join => rw [hsh]; exact hlends
    case registry => rw [hsh]; exact hlends
    case poll => exact hlends

theorem length_eraseIdx_add_one {α : Type*} {l : List α} {x : α} (h : l[k]? = some x) :
    (l.eraseIdx k).length + 1 = l.length := by
  have hlt := (List.getElem?_eq_some_iff.mp h).1
  rw [List.length_eraseIdx_of_lt hlt]
  omega

/-- A queue entry is taken to be polled. -/
theorem Consistent.take (h : Consistent t) {thread : S.Thread}
    (hs : step env t (.take thread k) = some t') : Consistent t' := by
  obtain ⟨place, hk, hs⟩ := Option.bind_eq_some_iff.mp hs
  split_ifs at hs
  cases hs
  have hlen := length_eraseIdx_add_one hk
  refine h.begin ?_ ?_ ?_ rfl ?_
  · refine h.countedIdle.moved rfl rfl ?_ rfl rfl le_rfl le_rfl
    simp only [Shared.handles, Pc.load]
    omega
  · refine h.claimedIdle.moved ⟨rfl, rfl, rfl, rfl⟩ rfl ?_ rfl rfl rfl
    simp only [Pc.load]
    omega
  · exact h.stagedIdle.moved rfl rfl Iff.rfl rfl rfl rfl
  · intro x _ hlends
    cases x with
    | poll => exact any_polling_append _ hlends
    | waker | abort | join | registry => exact hlends

/-- The scheduler drops a queue entry. -/
theorem Consistent.discard (h : Consistent t) {thread : S.Thread}
    (hs : step env t (.discard thread k) = some t') : Consistent t' := by
  obtain ⟨place, hk, hs⟩ := Option.bind_eq_some_iff.mp hs
  split_ifs at hs
  cases hs
  have hlen := length_eraseIdx_add_one hk
  refine h.begin ?_ ?_ ?_ rfl ?_
  · refine h.countedIdle.moved rfl rfl ?_ rfl rfl le_rfl le_rfl
    simp only [Shared.handles, Pc.load, After.refs]
    omega
  · have hclaims := h.claimed
    have hq : t.shared.claims (load t.ops) =
        (t.shared.entries.eraseIdx k).length + (load t.ops).handing + (load t.ops).starting + 1 := by
      simp only [Shared.claims]
      omega
    rw [Claimed, hq] at hclaims
    exact claimed_add.mpr (Claims.drop hclaims)
  · exact h.stagedIdle.moved rfl rfl Iff.rfl rfl rfl rfl
  · intro x _ hlends
    cases x with
    | poll => exact any_polling_append _ hlends
    | waker | abort | join | registry => exact hlends

theorem Consistent.runDeferred (h : Consistent t) {thread : S.Thread}
    (hs : step env t (.runDeferred thread) = some t') : Consistent t' := by
  simp only [step] at hs
  split_ifs at hs with hdef
  cases hs
  simp only [Bool.and_eq_true, decide_eq_true_eq] at hdef
  refine h.begin ?_ ?_ ?_ rfl ?_
  · refine h.countedIdle.moved rfl rfl ?_ rfl ?_ le_rfl le_rfl <;>
      simp only [Shared.handles, Pc.load] <;> omega
  · exact h.claimedIdle.moved ⟨rfl, rfl, rfl, rfl⟩ rfl rfl rfl rfl rfl
  · exact h.stagedIdle.moved rfl rfl Iff.rfl rfl rfl rfl
  · intro x _ hlends
    cases x with
    | poll => exact any_polling_append _ hlends
    | waker | abort | join | registry => exact hlends

theorem Consistent.takeRegistry (h : Consistent t)
    (hs : step env t .takeRegistry = some t') : Consistent t' := by
  simp only [step] at hs
  split_ifs at hs with hreg
  cases hs
  refine ⟨?_, h.claimed, ⟨h.staged.finalized, h.staged.stage, h.staged.locked⟩, ?_, h.byRef⟩
  · change Counted { t.shared with registry := .taken } (load t.ops + (Pc.finished : Pc S).load)
    refine h.countedIdle.moved rfl rfl ?_ rfl rfl ?_ le_rfl <;>
      simp [Shared.handles, Registry.refs, Registry.vacant, hreg]
  · intro op hop x hx
    have hlends := h.lent op hop x hx
    cases x with
    | registry => rfl
    | waker | abort | join | poll => exact hlends

theorem Consistent.releaseRegistry (h : Consistent t) {thread : S.Thread}
    (hs : step env t (.releaseRegistry thread) = some t') : Consistent t' := by
  simp only [step] at hs
  split_ifs at hs with hreg
  cases hs
  simp only [Bool.and_eq_true, decide_eq_true_eq, Bool.not_eq_true'] at hreg
  obtain ⟨htaken, hfree⟩ := hreg
  refine h.begin ?_ ?_ ?_ rfl ?_
  · refine h.countedIdle.moved rfl rfl ?_ rfl rfl ?_ le_rfl
    · simp only [Shared.handles, Registry.refs, htaken, Pc.load, After.refs]
      omega
    · simp [Registry.vacant, htaken, Pc.load]
  · exact h.claimedIdle.moved ⟨rfl, rfl, rfl, rfl⟩ rfl rfl rfl rfl rfl
  · exact h.stagedIdle.moved rfl rfl Iff.rfl rfl rfl rfl
  · intro x hborrowed hlends
    cases x with
    | poll => exact any_polling_append _ hlends
    | registry => simp [hfree] at hborrowed
    | waker | abort | join => exact hlends

theorem Consistent.step (h : Consistent t)
    (hs : TaskHarness.step env t a = some t') : Consistent t' := by
  cases a with
  | advance i => exact h.advance hs
  | pollReturns i result => exact h.pollReturns hs
  | take thread k => exact h.take hs
  | move k place =>
    obtain ⟨source, hk, hs⟩ := Option.bind_eq_some_iff.mp hs
    split_ifs at hs
    cases hs
    refine ⟨?_, ?_, ⟨h.staged.finalized, h.staged.stage, h.staged.locked⟩, ?_, h.byRef⟩
    · change Counted _ (load t.ops + (Pc.finished : Pc S).load)
      exact h.countedIdle.moved rfl rfl (by simp [Shared.handles]) rfl rfl le_rfl le_rfl
    · change Claimed _ (load t.ops + (Pc.finished : Pc S).load)
      exact h.claimedIdle.moved ⟨rfl, rfl, rfl, rfl⟩ rfl (by simp) rfl rfl rfl
    · intro op hop x hx
      have hlends := h.lent op hop x hx
      cases x <;> exact hlends
  | discard thread k => exact h.discard hs
  | runDeferred thread => exact h.runDeferred hs
  | wake thread =>
    simp only [TaskHarness.step] at hs
    split_ifs at hs with hgive
    cases hs
    exact h.giveUpWaker hgive rfl rfl
  | wakeByRef thread lender =>
    simp only [TaskHarness.step] at hs
    split_ifs at hs with hlend
    cases hs
    exact h.borrow (Bool.and_eq_true_iff.mp hlend).2 rfl
  | cloneWaker lender =>
    simp only [TaskHarness.step] at hs
    split_ifs at hs with hlend
    obtain ⟨word, hinc, rfl⟩ := Option.map_eq_some_iff.mp hs
    exact h.clone (Bool.and_eq_true_iff.mp hlend).2 hinc rfl (Nat.le_succ _) le_rfl (by simp; omega)
  | dropWaker thread =>
    simp only [TaskHarness.step] at hs
    split_ifs at hs with hgive
    cases hs
    exact h.giveUpWaker hgive rfl rfl
  | abort thread lender =>
    simp only [TaskHarness.step] at hs
    split_ifs at hs with hlend
    cases hs
    exact h.borrow (Bool.and_eq_true_iff.mp hlend).2 rfl
  | cloneAbort lender =>
    simp only [TaskHarness.step] at hs
    split_ifs at hs with hlend
    obtain ⟨word, hinc, rfl⟩ := Option.map_eq_some_iff.mp hs
    exact h.clone (Bool.and_eq_true_iff.mp hlend).2 hinc rfl le_rfl (Nat.le_succ _) (by simp; omega)
  | dropAbort thread =>
    simp only [TaskHarness.step] at hs
    split_ifs at hs with hgive
    cases hs
    exact h.giveUpAbort hgive
  | pollJoin thread waker =>
    simp only [TaskHarness.step] at hs
    split_ifs at hs with hgive
    cases hs
    exact h.giveUpJoin hgive rfl le_rfl rfl
  | dropJoin thread =>
    simp only [TaskHarness.step] at hs
    split_ifs at hs with hgive
    cases hs
    exact h.giveUpJoin hgive rfl (Nat.zero_le 1) rfl
  | takeRegistry => exact h.takeRegistry hs
  | releaseRegistry thread => exact h.releaseRegistry hs

inductive Moves (env : S.Env) (t : Task S) : Action S → Task S → Prop where
  | access {i op sh pc} : t.ops[i]? = some op → Access env op.thread t.shared op.pc sh pc →
      Moves env t (.advance i) { shared := sh, ops := t.ops.set i (op.next pc) }
  | pollReturns {i op result} : t.ops[i]? = some op → op.pc = .polling →
      t.borrowed .poll = false →
      Moves env t (.pollReturns i result)
        { shared := { t.shared with stageLocked := false }
          ops := t.ops.set i (op.next result.next) }
  | take {thread k place} : t.shared.entries[k]? = some place → S.mayTake env thread place = true →
      Moves env t (.take thread k)
        (t.begin { t.shared with
          entries := t.shared.entries.eraseIdx k
          ownerId := S.claimOwner thread t.shared.ownerId } thread .toRunning)
  | move {k source place} : t.shared.entries[k]? = some source → S.mayMove env source place = true →
      Moves env t (.move k place)
        { t with shared := { t.shared with entries := t.shared.entries.set k place } }
  | discard {thread k place} : t.shared.entries[k]? = some place → S.mayDiscard env place = true →
      Moves env t (.discard thread k)
        (t.begin { t.shared with
          entries := t.shared.entries.eraseIdx k
          dropped := t.shared.dropped + 1 } thread (.dropReference .return))
  | runDeferred {thread} : 0 < t.shared.deferred → S.runsDeferred env thread = true →
      Moves env t (.runDeferred thread)
        (t.begin { t.shared with deferred := t.shared.deferred - 1 } thread .deallocNow)
  | wake {thread} : t.mayGiveUp .waker t.shared.wakers = true →
      Moves env t (.wake thread)
        (t.begin { t.shared with wakers := t.shared.wakers - 1 } thread .wakeByVal)
  | wakeByRef {thread lender} : lender.lendsWaker = true → t.lends lender = true →
      Moves env t (.wakeByRef thread lender) (t.borrow thread lender .wakeByRef)
  | cloneWaker {lender word} : t.lends lender = true →
      view word = { view t.shared.word with refs := (view t.shared.word).refs + 1 } →
      Moves env t (.cloneWaker lender)
        { t with shared := { t.shared with word := word, wakers := t.shared.wakers + 1 } }
  | dropWaker {thread} : t.mayGiveUp .waker t.shared.wakers = true →
      Moves env t (.dropWaker thread)
        (t.begin { t.shared with wakers := t.shared.wakers - 1 } thread (.dropReference .return))
  | abort {thread lender} : lender.lendsAbort = true → t.lends lender = true →
      Moves env t (.abort thread lender) (t.borrow thread lender .shutdown)
  | cloneAbort {lender word} : t.lends lender = true →
      view word = { view t.shared.word with refs := (view t.shared.word).refs + 1 } →
      Moves env t (.cloneAbort lender)
        { t with shared := { t.shared with word := word, aborts := t.shared.aborts + 1 } }
  | dropAbort {thread} : t.mayGiveUp .abort t.shared.aborts = true →
      Moves env t (.dropAbort thread)
        (t.begin { t.shared with aborts := t.shared.aborts - 1 } thread (.dropReference .return))
  | pollJoin {thread waker} : t.mayGiveUp .join t.shared.joinHandle.toNat = true →
      Moves env t (.pollJoin thread waker)
        (t.begin { t.shared with joinHandle := false } thread (.readOutput waker))
  | dropJoin {thread} : t.mayGiveUp .join t.shared.joinHandle.toNat = true →
      Moves env t (.dropJoin thread)
        (t.begin { t.shared with joinHandle := false } thread .dropJoinInterest)
  | takeRegistry : t.shared.registry = .listed →
      Moves env t .takeRegistry { t with shared := { t.shared with registry := .taken } }
  | releaseRegistry {thread} : t.shared.registry = .taken → t.borrowed .registry = false →
      Moves env t (.releaseRegistry thread)
        (t.begin { t.shared with registry := .removed } thread (.dropReference .return))

theorem Pc.eq_polling {pc : Pc S} (h : pc.isPolling = true) : pc = .polling := by
  cases pc <;> first | rfl | cases h

theorem Consistent.moves (h : Consistent t)
    (hs : TaskHarness.step env t a = some t') : Moves env t a t' := by
  cases a with
  | advance i =>
    obtain ⟨op, hi, hs⟩ := Option.bind_eq_some_iff.mp hs
    obtain ⟨⟨sh, pc⟩, hop, rfl⟩ := Option.map_eq_some_iff.mp hs
    have hcount := h.counted
    rw [load_eraseIdx hi] at hcount
    exact .access hi (hcount.access hop)
  | pollReturns i result =>
    obtain ⟨op, hi, hs⟩ := Option.bind_eq_some_iff.mp hs
    split_ifs at hs with hpoll
    cases hs
    simp only [Bool.and_eq_true, Bool.not_eq_true'] at hpoll
    exact .pollReturns hi (Pc.eq_polling hpoll.1) hpoll.2
  | take thread k =>
    obtain ⟨place, hk, hs⟩ := Option.bind_eq_some_iff.mp hs
    split_ifs at hs with hmay
    cases hs
    exact .take hk hmay
  | move k place =>
    obtain ⟨source, hk, hs⟩ := Option.bind_eq_some_iff.mp hs
    split_ifs at hs with hmay
    cases hs
    exact .move hk hmay
  | discard thread k =>
    obtain ⟨place, hk, hs⟩ := Option.bind_eq_some_iff.mp hs
    split_ifs at hs with hmay
    cases hs
    exact .discard hk hmay
  | cloneWaker lender | cloneAbort lender =>
    simp only [TaskHarness.step] at hs
    split_ifs at hs with hlend
    obtain ⟨word, hinc, rfl⟩ := Option.map_eq_some_iff.mp hs
    first
      | exact .cloneWaker (Bool.and_eq_true_iff.mp hlend).2 (view_refInc hinc).1
      | exact .cloneAbort (Bool.and_eq_true_iff.mp hlend).2 (view_refInc hinc).1
  | takeRegistry =>
    simp only [TaskHarness.step] at hs
    split_ifs at hs with hreg
    cases hs
    exact .takeRegistry hreg
  | wakeByRef thread lender | abort thread lender | releaseRegistry thread | runDeferred thread =>
    simp only [TaskHarness.step] at hs
    split_ifs at hs with hlend
    cases hs
    simp only [Bool.and_eq_true, decide_eq_true_eq, Bool.not_eq_true'] at hlend
    constructor
    · exact hlend.1
    · exact hlend.2
  | wake thread | dropWaker thread | dropAbort thread | pollJoin thread waker | dropJoin thread =>
    simp only [TaskHarness.step] at hs
    split_ifs at hs with hgive
    cases hs
    constructor
    exact hgive

theorem Moves.grows (h : Moves env t a t') : Grows t.shared t'.shared := by
  induction h with
  | access _ hacc => exact hacc.grows
  | _ => constructor <;> simp_all [Task.begin, Task.borrow]

/-- The first access of an operation. -/
def Pc.isStart : Pc S → Bool
  | .toRunning | .wakeByVal | .wakeByRef | .shutdown | .readOutput _ | .dropJoinInterest
  | .dropReference .return | .deallocNow => true
  | _ => false

/-- An operation after an action was there before, has made an access or seen the poll
return, or is new. -/
theorem Moves.mem_ops (h : Moves env t a t') {p : Op S} (hp : p ∈ t'.ops) :
    p ∈ t.ops ∨
    (∃ i op pc, a = .advance i ∧ t.ops[i]? = some op ∧
      Access env op.thread t.shared op.pc t'.shared pc ∧ p = op.next pc) ∨
    (∃ op ∈ t.ops, ∃ result, op.pc = .polling ∧ p = op.next (PollResult.next result)) ∨
    (p.pc.isStart = true ∧ a.startThread = some p.thread ∧
      (p.pc = .toRunning → ∃ place ∈ t.shared.entries, S.mayTake env p.thread place = true) ∧
      (p.pc = .deallocNow → S.runsDeferred env p.thread = true)) := by
  induction h with
  | access hi hacc =>
    rcases List.mem_or_eq_of_mem_set hp with hp | rfl
    · exact .inl hp
    · exact .inr (.inl ⟨_, _, _, rfl, hi, hacc, rfl⟩)
  | pollReturns hi hpc =>
    rcases List.mem_or_eq_of_mem_set hp with hp | rfl
    · exact .inl hp
    · exact .inr (.inr (.inl ⟨_, List.mem_of_getElem? hi, _, hpc, rfl⟩))
  | move | cloneWaker | cloneAbort | takeRegistry => exact .inl hp
  | take hk hmay =>
    rcases List.mem_append.mp hp with hp | hp
    · exact .inl hp
    · obtain rfl := List.mem_singleton.mp hp
      exact .inr (.inr (.inr
        ⟨rfl, rfl, fun _ => ⟨_, List.mem_of_getElem? hk, hmay⟩, nofun⟩))
  | runDeferred _ hruns =>
    rcases List.mem_append.mp hp with hp | hp
    · exact .inl hp
    · obtain rfl := List.mem_singleton.mp hp
      exact .inr (.inr (.inr ⟨rfl, rfl, nofun, fun _ => hruns⟩))
  | _ =>
    rcases List.mem_append.mp hp with hp | hp
    · exact .inl hp
    · obtain rfl := List.mem_singleton.mp hp
      exact .inr (.inr (.inr ⟨rfl, rfl, nofun, nofun⟩))

theorem Moves.poll_eq_zero (hm : Moves env t a t') {away : S.Thread → Prop}
    (h : ∀ op ∈ t.ops, away op.thread → op.pc.load.running + op.pc.load.starting = 0)
    (haway : ∀ thread place, S.mayTake env thread place = true → ¬ away thread) :
    ∀ op ∈ t'.ops, away op.thread → op.pc.load.running + op.pc.load.starting = 0 := by
  intro p hp hthread
  rcases hm.mem_ops hp with
    hp | ⟨i, op, pc, -, hi, hacc, rfl⟩ | ⟨op, hop, result, hpc, rfl⟩ | ⟨hstart, -, hmay, -⟩
  · exact h p hp hthread
  · have hzero := h op (List.mem_of_getElem? hi) hthread
    have hle := hacc.poll_le
    exact Nat.le_zero.mp (hle.trans hzero.le)
  · have hzero := h op hop hthread
    simp [hpc, Pc.load] at hzero
  · have hne : p.pc ≠ .toRunning := by
      intro hpc
      obtain ⟨place, -, hmay⟩ := hmay hpc
      exact haway _ _ hmay hthread
    generalize p.pc = pc at hstart hne
    cases pc <;> first | rfl | exact absurd rfl hne | simp [Pc.isStart] at hstart

/-- Every state of every interleaving is consistent, whatever the scheduler does. -/
theorem consistent_of_reachable {guard : Task S → S.Env × Action S → Prop} {thread : S.Thread}
    {target : ℕ} (h : Reachable stepIn guard (Task.new thread target) t) : Consistent t :=
  h.invariant (consistent_new thread target) fun _ _ _ hs _ taken => hs.step taken

end Eddy.TaskHarness
