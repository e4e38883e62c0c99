import Eddy.TaskExclusion

/-!
# One queue claim, and no lost wakeup

As long as the scheduler has dropped no entry, NOTIFIED on a task that neither runs nor is
complete stands for exactly one queue entry: queued, in the hands of a `schedule` call, or
being polled. A wake leaves NOTIFIED set, and only a poll or completion takes it back.
-/

namespace Eddy.TaskHarness
open TaskState Interleaving

variable {S : Scheduler} {t t' : Task S} {env : S.Env} {thread : S.Thread} {target : ℕ}

/-- The queue entries and the `schedule` calls in progress. -/
def Task.claims (t : Task S) : ℕ :=
  t.shared.entries.length + total (fun op => op.pc.load.handing) t.ops

/-- A poll that has the entry in hand and does not hold the RUNNING bit. -/
def Pc.pollsEntry : Pc S → Bool
  | .toRunning => true
  | .finalizeStage via _ | .finalizeComplete via => via = .entry || via = .idle
  | _ => false

def Task.polling (t : Task S) : ℕ := total (fun op => op.pc.pollsEntry.toNat) t.ops

structure SingleClaim (t : Task S) : Prop where
  notified : Snapshot.isNotified t.shared.word = true → Snapshot.isRunning t.shared.word = false →
    Snapshot.isComplete t.shared.word = false → t.claims + t.polling = 1
  unclaimed : Snapshot.isNotified t.shared.word = false ∨ Snapshot.isRunning t.shared.word = true →
    t.claims = 0

def Pc.isWake : Pc S → Bool
  | .wakeByVal | .wakeByRef => true
  | _ => false

/-- Operation `i` is about to wake a task that is neither complete nor cancelled. -/
def Task.wakes (t : Task S) (i : ℕ) : Bool :=
  (t.ops[i]?.any fun op => op.pc.isWake) && !Snapshot.isComplete t.shared.word &&
    !Snapshot.isCancelled t.shared.word

/-- A poll that has taken an entry and can still go on to a poll of the future. -/
def Pc.runsEntry : Pc S → Bool
  | .toRunning => true
  | pc => pc.holdsRunning

/-- All entries have been run: none is queued, in the hands of a call or being polled. -/
def Task.settled (t : Task S) : Bool := t.claims = 0 && t.ops.all fun op => !op.pc.runsEntry

def Pc.aborting : Pc S → Bool
  | .finalizeStage via _ | .finalizeComplete via => via = .abort
  | _ => false

@[simp] theorem After.aborting_pc (after : After S) : after.pc.aborting = false := by
  cases after <;> rfl

variable {pc pc' : Pc S} {guard : Task S → S.Env × Action S → Prop} {sh sh' : Shared S}

theorem Access.aborting (h : Access env thread sh pc sh' pc')
    (hpc : pc'.aborting = true) :
    (view sh'.word).notified = false ∨ (pc.aborting = true ∧ sh'.word = sh.word) := by
  induction h with
  | queued | droppedReference | dealloc | forgotten | deferred => simp at hpc
  | shutdownIdle hview _ _ _ hn => exact .inl (by simp [hview, hn])
  | finalizeStage => exact .inr ⟨hpc, rfl⟩
  | _ => simp [Pc.aborting] at hpc

/-- Only a wake of a task that is not cancelled sets NOTIFIED. -/
theorem Access.notifies (h : Access env thread sh pc sh' pc')
    (hn : (view sh.word).notified = false) (hn' : (view sh'.word).notified = true) :
    (view sh.word).cancelled = false := by
  induction h <;> simp_all [Shared.touchFuture]

theorem Pc.aborting_load (h : pc.aborting = true) : pc.load.finalizing = 1 := by
  cases pc <;> simp [aborting] at h <;> simp [load, h, Via.holdsRunning]

theorem Consistent.cancelled_of_aborting (h : Consistent t) {op : Op S} (hop : op ∈ t.ops)
    (hpc : op.pc.aborting = true) : (view t.shared.word).cancelled = true := by
  obtain ⟨i, hi⟩ := List.getElem?_of_mem hop
  have hone := finalizing_le_load hi
  rw [Pc.aborting_load hpc] at hone
  by_contra hx
  have := h.claimed.uncancelled (by simpa using hx)
  omega

theorem unnotified_of_reachable
    (h : Reachable stepIn guard (Task.new thread target) t) :
    Consistent t ∧ ∀ op ∈ t.ops, op.pc.aborting = true → (view t.shared.word).notified = false := by
  refine h.invariant (I := fun t => Consistent t ∧
    ∀ op ∈ t.ops, op.pc.aborting = true → (view t.shared.word).notified = false)
    ⟨consistent_new _ _, by simp [Task.new, Pc.aborting]⟩ ?_
  rintro t ⟨env, a⟩ t' ⟨hcon, hops⟩ - hs
  have hm := hcon.moves hs
  refine ⟨hcon.step hs, fun p hp hpc => ?_⟩
  have hkeep : ∀ op ∈ t.ops, op.pc.aborting = true → (view t'.shared.word).notified = false := by
    intro op hop habort
    have hn := hops op hop habort
    have hx := hcon.cancelled_of_aborting hop habort
    cases hm with
    | access _ hacc =>
      by_contra hn'
      simp [hacc.notifies hn (by simpa using hn')] at hx
    | _ => simp_all [Task.begin, Task.borrow]
  rcases hm.mem_ops hp with
    hp | ⟨i, op, pc, -, hi, hacc, rfl⟩ | ⟨op, -, result, -, rfl⟩ | ⟨hstart, -, -⟩
  · exact hkeep p hp hpc
  · rcases hacc.aborting hpc with hn | ⟨hold, hword⟩
    · exact hn
    · rw [hword]
      exact hops op (List.mem_of_getElem? hi) hold
  · cases result <;> cases hpc
  · generalize p.pc = pc at hstart hpc
    cases pc <;> simp [Pc.aborting, Pc.isStart] at hpc hstart

theorem Task.polling_eq (h : ∀ op ∈ t.ops, op.pc.aborting = false) :
    t.polling = (load t.ops).starting + (load t.ops).finalizing := by
  have hsplit : ∀ pc : Pc S,
      pc.load.starting + pc.load.finalizing = pc.pollsEntry.toNat + pc.aborting.toNat := by
    intro pc
    cases pc with
    | finalizeStage via _ | finalizeComplete via => cases via <;> rfl
    | _ => rfl
  have hnone : total (fun op : Op S => op.pc.aborting.toNat) t.ops = 0 :=
    total_eq_zero_iff.mpr fun op hop => by simp [h op hop]
  have hsum : total (fun op : Op S => op.pc.load.starting + op.pc.load.finalizing) t.ops =
      total (fun op => op.pc.pollsEntry.toNat + op.pc.aborting.toNat) t.ops := by
    simp only [hsplit]
  rw [total_add, total_add, hnone] at hsum
  exact hsum.symm

theorem singleClaim_of_reachable
    (h : Reachable stepIn guard (Task.new thread target) t) (hkept : t.shared.dropped = 0) :
    SingleClaim t := by
  obtain ⟨hcon, haborting⟩ := unnotified_of_reachable h
  have hclaims := hcon.claimed.claims
  have hunnotified := hcon.claimed.unnotified
  have hq : t.shared.claims (load t.ops) = t.claims + (load t.ops).starting := rfl
  rw [hq, hkept] at hclaims hunnotified
  refine ⟨fun hn hr hc => ?_, fun hidle => ?_⟩
  · rw [isNotified_eq] at hn
    rw [isRunning_eq] at hr
    rw [isComplete_eq] at hc
    rw [Task.polling_eq fun op hop => ?_]
    · simp [hn, hr, hc] at hclaims
      omega
    · by_contra habort
      simp [haborting op hop (by simpa using habort)] at hn
  · rcases hidle with hn | hr
    · have := hunnotified hn
      omega
    · rw [isRunning_eq] at hr
      simp [hr] at hclaims
      omega

theorem Access.wakes (h : Access env thread sh pc sh' pc')
    (hpc : pc.isWake = true) (hc : (view sh.word).complete = false)
    (hx : (view sh.word).cancelled = false) : (view sh'.word).notified = true := by
  induction h <;> simp_all [Pc.isWake]

theorem notified_until_polled {polls : ℕ}
    {t₁ t₂ : Task S} (hcon : Consistent t₁) (hpolls : polls ≤ t₁.shared.polls)
    (hn : (view t₁.shared.word).notified = true) (h : Reachable stepIn guard t₁ t₂) :
    Consistent t₂ ∧ polls ≤ t₂.shared.polls ∧ ((view t₂.shared.word).notified = true ∨
      polls < t₂.shared.polls ∨ (view t₂.shared.word).complete = true) := by
  refine h.invariant (I := fun t => Consistent t ∧ polls ≤ t.shared.polls ∧
    ((view t.shared.word).notified = true ∨ polls < t.shared.polls ∨
      (view t.shared.word).complete = true)) ⟨hcon, hpolls, .inl hn⟩ ?_
  rintro t ⟨env, a⟩ t' ⟨hcon, hpolls, hfollow⟩ - hs
  have hgrows := (hcon.moves hs).grows
  refine ⟨hcon.step hs, hpolls.trans hgrows.polls, ?_⟩
  rcases hfollow with hn | hmore | hc
  · rcases hgrows.notified hn with hn | hmore | hc
    · exact .inl hn
    · exact .inr (.inl (hpolls.trans_lt hmore))
    · exact .inr (.inr hc)
  · exact .inr (.inl (hmore.trans_le hgrows.polls))
  · exact .inr (.inr (hgrows.complete hc))

/-- Where all entries have been run, a task that is still notified has been cancelled. -/
theorem Consistent.cancelled_of_settled (hcon : Consistent t)
    (hreachable : ∀ op ∈ t.ops, op.pc ≠ .unreachable) (hkept : t.shared.dropped = 0)
    (hsettled : t.settled = true) (hn : (view t.shared.word).notified = true)
    (hc : (view t.shared.word).complete = false) : (view t.shared.word).cancelled = true := by
  obtain ⟨hclaims, hops⟩ := Bool.and_eq_true_iff.mp hsettled
  rw [decide_eq_true_eq] at hclaims
  rw [List.all_eq_true] at hops
  have hstarting : (load t.ops).starting = 0 := total_eq_zero_iff.mpr fun op hop => by
    have hrun := hops op hop
    cases hpc : op.pc <;> first | rfl | simp [hpc, Pc.runsEntry] at hrun
  have hrunning : (load t.ops).running = 0 := total_eq_zero_iff.mpr fun op hop => by
    have hrun := hops op hop
    have hne := hreachable op hop
    cases hpc : op.pc with
    | finalizeStage via _ | finalizeComplete via =>
      cases via <;> first | rfl | simp [hpc, Pc.runsEntry, Pc.holdsRunning] at hrun
    | _ => first | rfl | exact absurd hpc hne | simp [hpc, Pc.runsEntry, Pc.holdsRunning] at hrun
  have hr : (view t.shared.word).running = false := by
    have := hcon.claimed.running
    rw [hrunning] at this
    simpa using this.symm
  have hq : t.shared.claims (load t.ops) = t.claims + (load t.ops).starting := rfl
  have htotal := hcon.claimed.claims
  simp [hq, hclaims, hstarting, hkept, hn, hc, hr] at htotal
  by_contra hx
  have := hcon.claimed.uncancelled (by simpa using hx)
  omega

theorem step_advance (env : S.Env) {i : ℕ} {op : Op S} (hi : t.ops[i]? = some op) :
    step env t (.advance i) = (opStep env op.thread t.shared op.pc).map fun after =>
      { shared := after.1, ops := t.ops.set i (op.next after.2) } := by
  simp only [step, hi, Option.bind_some]

theorem entry_polled (hcon : Consistent t) {k : ℕ} {place : S.Place}
    (hk : t.shared.entries[k]? = some place) (hmay : S.mayTake env thread place = true)
    (hx : (view t.shared.word).cancelled = false) :
    ∃ t₁ t₂, step env t (.take thread k) = some t₁ ∧
      step env t₁ (.advance t.ops.length) = some t₂ ∧
      t₂.shared.polls = t.shared.polls + 1 := by
  have hlen := length_eraseIdx_add_one hk
  have hclaims := hcon.claimed
  have hq : t.shared.claims (load t.ops) =
      (t.shared.entries.eraseIdx k).length + (load t.ops).handing + (load t.ops).starting + 1 := by
    simp only [Shared.claims]
    omega
  rw [Claimed, hq] at hclaims
  obtain ⟨hc, hr, -⟩ := hclaims.of_entry
  let t₁ := t.begin { t.shared with
    entries := t.shared.entries.eraseIdx k
    ownerId := S.claimOwner thread t.shared.ownerId } thread .toRunning
  have htake : step env t (.take thread k) = some t₁ := by simp [step, hk, hmay, t₁]
  have hop : t₁.ops[t.ops.length]? = some ⟨thread, none, .toRunning⟩ := by simp [t₁, Task.begin]
  have hpoll : opStep env thread t₁.shared .toRunning = some ({ t₁.shared with
      word := Snapshot.unsetNotified (Snapshot.setRunning t.shared.word)
      polls := t.shared.polls + 1 }, .lockStage) := by
    simp [opStep, State.transitionToRunning, t₁, Task.begin, hc, hx, hr]
  have hadvance := step_advance env hop
  rw [hpoll] at hadvance
  exact ⟨t₁, _, htake, hadvance, rfl⟩

/-- What happens to the task's claims and to a wake, as long as no entry is dropped. -/
structure WakesKept (t : Task S) : Prop where
  claim : SingleClaim t
  /-- A wake is followed by a further poll, unless the task completes or is cancelled. -/
  wake : ∀ env i t₁ t₂, t.wakes i = true → step env t (.advance i) = some t₁ →
    Reachable stepIn anyStep t₁ t₂ → t₂.shared.dropped = 0 → t₂.settled = true →
    t.shared.polls < t₂.shared.polls ∨ Snapshot.isComplete t₂.shared.word = true ∨
      Snapshot.isCancelled t₂.shared.word = true
  /-- An entry that is run starts a poll. -/
  run : ∀ env thread (k : ℕ) place, t.shared.entries[k]? = some place →
    S.mayTake env thread place = true → Snapshot.isCancelled t.shared.word = false →
    ∃ t₁ t₂, step env t (.take thread k) = some t₁ ∧
      step env t₁ (.advance t.ops.length) = some t₂ ∧ t₂.shared.polls = t.shared.polls + 1

theorem no_wakeup_lost (h : Reachable stepIn anyStep (Task.new thread target) t)
    (hkept : t.shared.dropped = 0) : WakesKept t := by
  have hcon := consistent_of_reachable h
  refine ⟨singleClaim_of_reachable h hkept, ?_, fun env thread k place hk hmay hx =>
    entry_polled hcon hk hmay hx⟩
  intro env i t₁ t₂ hwakes hs hreach hkept₂ hsettled
  simp only [Task.wakes, Bool.and_eq_true, Bool.not_eq_true', Option.any_eq_true] at hwakes
  obtain ⟨⟨⟨op, hi, hop⟩, hc⟩, hx⟩ := hwakes
  have hcon₁ := hcon.step hs
  have hgrows := (hcon.moves hs).grows
  have hn : (view t₁.shared.word).notified = true := by
    cases hcon.moves hs with
    | access hi' hacc =>
      rw [hi] at hi'
      cases hi'
      exact hacc.wakes hop hc hx
  obtain ⟨hcon₂, -, hfollow⟩ := notified_until_polled hcon₁ hgrows.polls hn hreach
  have hreach₂ : Reachable stepIn anyStep (Task.new thread target) t₂ :=
    (Reachable.next h trivial (show stepIn t (env, .advance i) = some t₁ from hs)).trans hreach
  rcases hfollow with hn₂ | hmore | hc₂
  · cases hc₂ : (view t₂.shared.word).complete with
    | true => exact .inr (.inl hc₂)
    | false => exact .inr (.inr (hcon₂.cancelled_of_settled (reachable_stage hreach₂).2 hkept₂
        hsettled hn₂ hc₂))
  · exact .inl hmore
  · exact .inr (.inl hc₂)

end Eddy.TaskHarness

namespace Eddy.MultiThread
open TaskState TaskHarness Interleaving

/-- Worker 0 is polling the task, which is about to wake itself. -/
def selfWake : List (Env × Action scheduler) :=
  under (.open 1) (spawnSteps ++ .take (some 0) 0 :: advances 1 2 ++ [.wakeByRef (some 0) .poll])

def returnReady : List (Env × Action scheduler) :=
  under (.open 1) (.pollReturns 1 .ready :: advances 1 6)

/-- The poll goes on to return pending, and the task is queued, in the LIFO slot of worker 0,
and polled again. -/
def returnPending : List (Env × Action scheduler) :=
  under (.open 1) (.pollReturns 1 .pending :: advances 1 4 ++ .take (some 0) 0 :: advances 3 2 ++
    .pollReturns 3 .pending :: advances 3 2)

theorem self_wake_polled_again :
    ∃ t t₁ t₂ : Task scheduler, Reachable stepIn anyStep (Task.new none 0) t ∧
      t.wakes 2 = true ∧ step (Env.open 1) t (.advance 2) = some t₁ ∧
      Reachable stepIn anyStep t₁ t₂ ∧ t₂.settled = true ∧ t₂.shared.dropped = 0 ∧
      (t.shared.polls < t₂.shared.polls ∨ Snapshot.isComplete t₂.shared.word = true ∨
        Snapshot.isCancelled t₂.shared.word = true) := by
  obtain ⟨t, hreach, ht⟩ := exists_reachable_of_run
    (show (run (guarded stepIn anyStep) (Task.new none 0 : Task scheduler) selfWake).any (fun t =>
      t.shared.dropped = 0 && t.wakes 2 && (step (Env.open 1) t (.advance 2)).any fun t₁ =>
        (run (guarded stepIn anyStep) t₁ returnPending).any fun t₂ =>
          t₂.settled && t₂.shared.dropped = 0) = true by decide +kernel)
  simp only [Bool.and_eq_true, decide_eq_true_eq, Option.any_eq_true] at ht
  obtain ⟨⟨hkept, hwakes⟩, t₁, hs, t₂, hrun, hsettled, hkept₂⟩ := ht
  have hreach₂ := reachable_of_run hrun
  exact ⟨t, t₁, t₂, hreach, hwakes, hs, hreach₂, hsettled, hkept₂,
    (no_wakeup_lost hreach hkept).wake _ _ _ _ hwakes hs hreach₂ hkept₂ hsettled⟩

/-- A wake during the poll that returns the output is not followed by a further poll. -/
theorem self_wake_before_ready :
    ∃ t t₁ t₂ : Task scheduler, Reachable stepIn anyStep (Task.new none 0) t ∧
      0 < t.shared.polls ∧ t.wakes 2 = true ∧ step (Env.open 1) t (.advance 2) = some t₁ ∧
      Reachable stepIn anyStep t₁ t₂ ∧ t₂.settled = true ∧ t₂.shared.dropped = 0 ∧
      t₂.shared.polls = t.shared.polls := by
  obtain ⟨t, hreach, ht⟩ := exists_reachable_of_run
    (show (run (guarded stepIn anyStep) (Task.new none 0 : Task scheduler) selfWake).any (fun t =>
      0 < t.shared.polls && t.wakes 2 && (step (Env.open 1) t (.advance 2)).any fun t₁ =>
        (run (guarded stepIn anyStep) t₁ returnReady).any fun t₂ =>
          t₂.settled && t₂.shared.dropped = 0 && t₂.shared.polls = t.shared.polls) = true by
      decide +kernel)
  simp only [Bool.and_eq_true, decide_eq_true_eq, Option.any_eq_true] at ht
  obtain ⟨⟨hpolls, hwakes⟩, t₁, hs, t₂, hrun, ⟨hsettled, hkept₂⟩, hsame⟩ := ht
  exact ⟨t, t₁, t₂, hreach, hpolls, hwakes, hs, reachable_of_run hrun, hsettled, hkept₂, hsame⟩

end Eddy.MultiThread
