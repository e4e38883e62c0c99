import Eddy.UringDrain
import Eddy.FairRuns

/-!
# The destructor of a ring

`Inner::drop` runs when nobody has a handle of the ring any more. It cancels what is left in the
tables and reaps until nothing is left, while the kernel goes on.
-/

namespace Eddy.Uring
open Table Interleaving FairRuns

/-- What a blocking `io_uring_enter` returns. -/
inductive Enter where
  | event
  | interrupted
  | failed
  deriving DecidableEq

/-- Where the thread is in `Inner::drop`. -/
inductive Place where
  | submit
  | cancel
  | submitCancels (targets : List ℕ)
  | loop
  | reaping (available : ℕ) (reaper : Reaper)
  /-- The lock is released: it submits and wakes. -/
  | reaped (reaper : Reaper)
  | count
  | enter
  | closed
  deriving DecidableEq

structure Teardown where
  ring : Ring
  place : Place
  wakes : List ℕ

/-- The cancellations of `Inner::drop`. -/
def queueCancels (r : Ring) : List ℕ → Ring
  | [] => r
  | target :: targets =>
    match nextUserData r with
    | (.error _, r) => r
    | (.ok cancelUserData, r) =>
      match queueSqeLocked r
        { opcode := .asyncCancel, fd := -1, addr := .userData target, userData := cancelUserData,
          owner := target } with
      | .error _ => queueCancels r targets
      | .ok r =>
        queueCancels { r with
          cancelTargets := Function.update r.cancelTargets cancelUserData (some target) } targets

/-- The operations that have a result leave the tables. -/
def dropCompleted (r : Ring) : Ring :=
  (r.ops.entries.filter fun (_, op) => op.result.isSome).foldl (fun r (key, op) =>
    { r.dropOp key with
      opsByUserData := Function.update r.opsByUserData op.userData none }) r

/-- The operations with a future and without one. -/
def Ring.entries (r : Ring) : List OrphanedOp :=
  r.ops.values.map OpState.toOrphanedOp ++ r.orphaned.values

namespace Teardown

def begin (ring : Ring) : Teardown := ⟨ring, .submit, []⟩

/-- The next section of `Inner::drop`, with what the kernel answers. -/
def run (t : Teardown) (answer : Option ℕ) (enter : Enter) : Option Teardown :=
  match t.place with
  | .submit => some { t with ring := (submitInner t.ring answer).2, place := .cancel }
  | .cancel =>
    let targets := t.ring.entries.map OrphanedOp.userData
    some { t with ring := queueCancels t.ring targets, place := .submitCancels targets }
  | .submitCancels targets =>
    some { t with
      ring := (submitInner t.ring answer).2
      place := if targets.isEmpty then .closed else .loop }
  | .loop => some { t with place := .reaping t.ring.io.cq.length ⟨false, []⟩ }
  | .reaping (available + 1) reaper =>
    t.ring.io.reap.map fun (cqe, io) =>
      let (ring, wake, refill) := reapCqe { t.ring with io := io } cqe
      { t with
        ring := ring
        place := .reaping available ⟨reaper.refill || refill, reaper.wake ++ wake⟩ }
  | .reaping 0 reaper =>
    let (queued, ring) := queuePendingCleanupsLocked t.ring
    some { t with
      ring := ring
      place := .reaped { reaper with refill := reaper.refill || queued } }
  | .reaped ⟨true, wake⟩ =>
    some { t with ring := (submitInner t.ring answer).2, place := .reaped ⟨false, wake⟩ }
  | .reaped ⟨false, wake⟩ => some { t with place := .count, wakes := t.wakes ++ wake }
  | .count =>
    let ring := dropCompleted t.ring
    some { t with
      ring := ring
      place := if ring.ops.values.length + ring.orphaned.values.length = 0 then .closed
        else .enter }
  | .enter =>
    match enter with
    | .event => if t.ring.io.cq.isEmpty then none else some { t with place := .loop }
    | .interrupted => some { t with place := .loop }
    | .failed => some { t with place := .closed }
  | .closed => none

inductive Label where
  /-- The SQPOLL thread takes submissions. -/
  | consume (n : ℕ)
  /-- The kernel posts a completion of the submission at position `i`. -/
  | post (i : ℕ) (res : ℤ) (flags : ℕ)
  | run (answer : Option ℕ) (enter : Enter)

def step (t : Teardown) : Label → Option Teardown
  | .consume n =>
    if t.ring.sqpoll then
      some { t with
        ring := { t.ring with io := t.ring.io.consume n } }
    else none
  | .post i res flags =>
    (t.ring.io.inFlight[i]?).map fun sqe =>
      { t with
        ring := { t.ring with io := t.ring.io.post Cqe.last i ⟨sqe, res, flags⟩ } }
  | .run answer enter => t.run answer enter

/-- A section of the thread. -/
def Own : Label → Prop
  | .run .. => True
  | _ => False

/-- The thread is not blocked in `io_uring_enter`. -/
def Ready (t : Teardown) : Prop :=
  t.place ≠ .closed ∧ (t.place = .enter → t.ring.io.cq ≠ [])

/-- The kernel posts all completions that are outstanding, and does not refuse for ever to take
buffers back. -/
structure Served (ρ : ℕ → Teardown) : Prop where
  posts : ∀ n, ∀ sqe ∈ (ρ n).ring.io.sq ++ (ρ n).ring.io.inFlight,
    ∃ m, n ≤ m ∧ ∃ cqe ∈ (ρ m).ring.io.posted, cqe.sqe = sqe ∧ cqe.last = true
  refuses : ∃ n, ∀ m, ∀ cqe ∈ (ρ m).ring.io.posted, cqe.sqe.opcode = .removeBuffers →
    cqe.res < 0 → cqe ∈ (ρ n).ring.io.posted

end Teardown

/-- Nobody has a handle of the ring. -/
def System.Unused (s : System) : Prop :=
  (∀ slot ∈ s.slots, slot = .idle) ∧ s.reaping = none ∧ s.reapers = []

/-- `Inner::drop` comes to its end. -/
def Ring.Closes (r : Ring) : Prop :=
  ∀ ρ act, ρ 0 = Teardown.begin r → Runs Teardown.step ρ act →
    Fair Teardown.Own Teardown.Ready ρ act → Teardown.Served ρ →
    (∀ n, (ρ n).ring.allocated < 2 ^ 64) → ∃ n, (ρ n).place = .closed

namespace Ring
variable {r r' r'' : Ring}

/-- The entries of one ring are entries of another, in other states. -/
structure Steady (r r' : Ring) : Prop where
  sqEntries : r'.sqEntries = r.sqEntries
  entries : ∀ op' ∈ r'.entries, ∃ op ∈ r.entries, op'.shape = op.shape

theorem mem_entries {op : OrphanedOp} :
    op ∈ r.entries ↔ (∃ key op', r.ops.get key = some op' ∧ op'.toOrphanedOp = op) ∨
      ∃ key, r.orphaned.get key = some op := by
  simp only [entries, List.mem_append, List.mem_map, Slab.mem_values]
  constructor
  · rintro (⟨op', ⟨key, hkey⟩, rfl⟩ | horphan)
    · exact .inl ⟨key, op', hkey, rfl⟩
    · exact .inr horphan
  · rintro (⟨key, op', hkey, rfl⟩ | horphan)
    · exact .inl ⟨op', ⟨key, hkey⟩, rfl⟩
    · exact .inr horphan

/-- A cancellation of `Inner::drop` is queued or not; without a `user_data` it is the last. -/
theorem queueCancels_cases (r : Ring) (target : ℕ) (targets : List ℕ) :
    ∃ r', Asks r r' ∧ (r'.io = r.io ∨ ∃ sqe, r'.io = r.io.queue sqe) ∧
      (queueCancels r (target :: targets) = r' ∨
        queueCancels r (target :: targets) = queueCancels r' targets) := by
  rw [queueCancels]
  rcases hnext : Uring.nextUserData r with ⟨result, r₁⟩
  have hr₁ := Asks.of_next hnext
  obtain rfl : r₁ = (Uring.nextUserData r).2 := by rw [hnext]
  cases result with
  | error => exact ⟨_, hr₁, .inl rfl, .inl rfl⟩
  | ok u =>
    dsimp only
    split
    · exact ⟨_, hr₁, .inl rfl, .inr rfl⟩
    · rename_i r₂ hqueue
      have hr₂ := hr₁.queue hqueue
      refine ⟨{ r₂ with cancelTargets := Function.update r₂.cancelTargets u (some target) },
        ⟨hr₂.ops, hr₂.opsByUserData, hr₂.orphaned, hr₂.sqEntries, hr₂.allocated⟩, ?_, .inr rfl⟩
      exact .inr ⟨_, congrArg Ring.io (queueSqeLocked_eq_ok hqueue)⟩

namespace Steady

theorem trans (h : Steady r r') (h' : Steady r' r'') : Steady r r'' := by
  refine ⟨h'.sqEntries.trans h.sqEntries, ?_⟩
  intro op'' hop''
  obtain ⟨op', hop', hshape'⟩ := h'.entries op'' hop''
  obtain ⟨op, hop, hshape⟩ := h.entries op' hop'
  exact ⟨op, hop, hshape'.trans hshape⟩

theorem of_slots (hentries : r'.sqEntries = r.sqEntries)
    (hops : ∀ key op', r'.ops.get key = some op' →
      ∃ op ∈ r.entries, op'.toOrphanedOp.shape = op.shape)
    (horphaned : ∀ key op', r'.orphaned.get key = some op' →
      ∃ op ∈ r.entries, op'.shape = op.shape) : Steady r r' := by
  refine ⟨hentries, ?_⟩
  intro op' hop'
  rcases mem_entries.mp hop' with ⟨key, op, hkey, rfl⟩ | ⟨key, hkey⟩
  · exact hops key op hkey
  · exact horphaned key op' hkey

variable {key : ℕ}

theorem old_op {op : OpState} (h : r.ops.get key = some op) :
    ∃ old ∈ r.entries, op.toOrphanedOp.shape = old.shape :=
  ⟨op.toOrphanedOp, mem_entries.mpr (.inl ⟨key, op, h, rfl⟩), rfl⟩

theorem old_orphan {op : OrphanedOp} (h : r.orphaned.get key = some op) :
    ∃ old ∈ r.entries, op.shape = old.shape :=
  ⟨op, mem_entries.mpr (.inr ⟨key, h⟩), rfl⟩

theorem of_eq (hentries : r'.sqEntries = r.sqEntries) (hops : r'.ops = r.ops)
    (horphaned : r'.orphaned = r.orphaned) : Steady r r' := by
  apply of_slots hentries
  · intro key op hop
    exact old_op (hops ▸ hop)
  · intro key op hop
    exact old_orphan (horphaned ▸ hop)

theorem modifyOp {f : OpState → OpState} (hentries : r'.sqEntries = r.sqEntries)
    (hops : r'.ops = r.ops.modify key f) (horphaned : r'.orphaned = r.orphaned)
    (hf : ∀ op, r.ops.get key = some op → (f op).toOrphanedOp.shape = op.toOrphanedOp.shape) :
    Steady r r' := by
  apply of_slots hentries
  · intro j op hop
    rw [hops, Slab.get_modify] at hop
    split_ifs at hop with hj
    · subst hj
      obtain ⟨old, hold, rfl⟩ := Option.map_eq_some_iff.mp hop
      rw [hf old hold]
      exact old_op hold
    · exact old_op hop
  · intro j op hop
    exact old_orphan (horphaned ▸ hop)

theorem removeOp (hentries : r'.sqEntries = r.sqEntries)
    (hops : r'.ops = r.ops.remove key) (horphaned : r'.orphaned = r.orphaned) : Steady r r' := by
  apply of_slots hentries
  · intro j op hop
    rw [hops, Slab.get_remove] at hop
    split_ifs at hop
    exact old_op hop
  · intro j op hop
    exact old_orphan (horphaned ▸ hop)

theorem modifyOrphan {f : OrphanedOp → OrphanedOp} (hentries : r'.sqEntries = r.sqEntries)
    (hops : r'.ops = r.ops) (horphaned : r'.orphaned = r.orphaned.modify key f)
    (hf : ∀ op, r.orphaned.get key = some op → (f op).shape = op.shape) : Steady r r' := by
  apply of_slots hentries
  · intro j op hop
    exact old_op (hops ▸ hop)
  · intro j op hop
    rw [horphaned, Slab.get_modify] at hop
    split_ifs at hop with hj
    · subst hj
      obtain ⟨old, hold, rfl⟩ := Option.map_eq_some_iff.mp hop
      rw [hf old hold]
      exact old_orphan hold
    · exact old_orphan hop

theorem removeOrphan (hentries : r'.sqEntries = r.sqEntries) (hops : r'.ops = r.ops)
    (horphaned : r'.orphaned = r.orphaned.remove key) : Steady r r' := by
  apply of_slots hentries
  · intro j op hop
    exact old_op (hops ▸ hop)
  · intro j op hop
    rw [horphaned, Slab.get_remove] at hop
    split_ifs at hop
    exact old_orphan hop

theorem queueSqeLocked {sqe : Sqe} (h : Uring.queueSqeLocked r sqe = .ok r') : Steady r r' := by
  rw [queueSqeLocked_eq_ok h]
  exact .of_eq rfl rfl rfl

theorem submitInner (r : Ring) (answer : Option ℕ) : Steady r (Uring.submitInner r answer).2 := by
  obtain ⟨n, sqPending, heq⟩ := exists_submitInner_eq r answer
  rw [heq]
  exact .of_eq rfl rfl rfl

theorem of_asks (h : Asks r r') : Steady r r' := .of_eq h.sqEntries h.ops h.orphaned

theorem queueCancels (r : Ring) (targets : List ℕ) :
    Steady r (Uring.queueCancels r targets) := by
  induction targets generalizing r with
  | nil => exact .of_eq rfl rfl rfl
  | cons target targets ih =>
    obtain ⟨r', hasks, -, heq | heq⟩ := queueCancels_cases r target targets
    · rw [heq]
      exact .of_asks hasks
    · rw [heq]
      exact (of_asks hasks).trans (ih r')

theorem orphan {orphanKey : ℕ} (hvacant : r.orphaned.Vacant orphanKey) :
    Steady r (Uring.orphan r key orphanKey).2 := by
  unfold Uring.orphan
  cases hkey : r.ops.get key with
  | none => exact .of_eq rfl rfl rfl
  | some op =>
    dsimp only
    split_ifs
    · exact .removeOp rfl rfl rfl
    · refine of_slots rfl ?_ ?_
      · intro j op' hop'
        rw [Slab.get_remove] at hop'
        split_ifs at hop'
        exact old_op hop'
      · intro j op' hop'
        rw [Slab.get_insert hvacant] at hop'
        split_ifs at hop'
        · cases hop'
          exact old_op hkey
        · exact old_orphan hop'

theorem poll (r : Ring) (f : Future) : Steady r (Uring.poll r f).1 := by
  unfold Uring.poll Uring.takeMultishotEvent Uring.takeResult
  split_ifs
  · cases hm : (r.ops.get f.key).bind fun op => op.multishot with
    | none => exact .of_eq rfl rfl rfl
    | some m =>
      dsimp only
      cases m.events with
      | nil => exact .of_eq rfl rfl rfl
      | cons event events =>
        refine .modifyOp rfl rfl rfl ?_
        intro op hop
        have hm : op.multishot = some m := by simpa [hop] using hm
        simp [OrphanedOp.shape, hm]
  · cases r.ops.get f.key with
    | none => exact .of_eq rfl rfl rfl
    | some op =>
      dsimp only
      cases op.result with
      | none => exact .of_eq rfl rfl rfl
      | some result => exact .removeOp rfl rfl rfl

theorem removeMultishot (r : Ring) (key : ℕ) : Steady r (Uring.removeMultishot r key) := by
  unfold Uring.removeMultishot
  split
  · exact .of_eq rfl rfl rfl
  · exact .removeOp rfl rfl rfl

theorem reapCancel (r : Ring) (target : ℕ) (res : ℤ) :
    Steady r (Uring.reapCancel r target res) := by
  unfold Uring.reapCancel
  split
  · split
    · dsimp only
      split
      · exact .removeOrphan rfl rfl rfl
      · exact .of_eq rfl rfl rfl
    · split
      · dsimp only
        split
        · exact .removeOp rfl rfl rfl
        · exact .of_eq rfl rfl rfl
      · exact .of_eq rfl rfl rfl
  · exact .of_eq rfl rfl rfl

theorem reapCleanup (r : Ring) (target : ℕ) (res : ℤ) :
    Steady r (Uring.reapCleanup r target res).1 := by
  unfold Uring.reapCleanup
  split
  · exact .modifyOp rfl rfl rfl fun op _ => op.cleaned_shape res
  · split
    · split
      · exact .of_eq rfl rfl rfl
      · rename_i op hop
        split
        · rename_i op' hcleaned
          refine .modifyOrphan rfl rfl rfl ?_
          intro old hold
          rw [hop] at hold
          cases hold
          exact OrphanedOp.cleaned_shape hcleaned
        · exact .removeOrphan rfl rfl rfl
    · exact .of_eq rfl rfl rfl

theorem reapProvide (r : Ring) (target : ℕ) (res : ℤ) :
    Steady r (Uring.reapProvide r target res).1 := by
  unfold Uring.reapProvide
  split
  · split
    · exact .modifyOp rfl rfl rfl fun op _ => op.provideFailed_shape res
    · exact .of_eq rfl rfl rfl
  · exact .of_eq rfl rfl rfl

theorem reapOp (r : Ring) (key : ℕ) (cqe : Cqe) : Steady r (Uring.reapOp r key cqe).1 := by
  unfold Uring.reapOp
  split
  · exact .of_eq rfl rfl rfl
  · have hanswered : Steady r { r with ops := r.ops.modify key (OpState.answered · cqe) } :=
      .modifyOp rfl rfl rfl fun op _ => op.answered_shape cqe
    dsimp only
    split
    · exact hanswered
    · exact hanswered.trans (.of_asks (.queueProvideBufferLocked ..))

theorem reapOrphan (r : Ring) (key : ℕ) (cqe : Cqe) : Steady r (Uring.reapOrphan r key cqe) := by
  unfold Uring.reapOrphan
  split
  · exact .of_eq rfl rfl rfl
  · rename_i op hop
    dsimp only
    split
    · rename_i op' hanswered
      refine .modifyOrphan rfl rfl rfl ?_
      intro old hold
      rw [hop] at hold
      cases hold
      exact OrphanedOp.answered_shape hanswered
    · exact .removeOrphan rfl rfl rfl

theorem reapCqe (r : Ring) (cqe : Cqe) : Steady r (Uring.reapCqe r cqe).1 := by
  unfold Uring.reapCqe
  split
  · refine trans ?_ (reapCancel _ _ _)
    exact .of_eq rfl rfl rfl
  · split
    · dsimp only
      split
      · refine trans ?_ (reapCleanup _ _ _)
        exact .of_eq rfl rfl rfl
      · refine trans ?_ (reapProvide _ _ _)
        exact .of_eq rfl rfl rfl
    · split
      · exact reapOp ..
      · split
        · exact reapOrphan ..
        · exact .of_eq rfl rfl rfl

theorem queueCleanup (r : Ring) (request : ℕ × ℕ × ℕ) :
    Steady r (Uring.queueCleanup r request).2 := by
  obtain ⟨target, count, group⟩ := request
  have hr₁ := of_asks (Asks.queueRemoveBuffersLocked r target count group)
  unfold Uring.queueCleanup
  dsimp only
  rcases hqueue : Uring.queueRemoveBuffersLocked r target count group with ⟨result, r₁⟩
  rw [hqueue] at hr₁
  cases result with
  | error => exact hr₁
  | ok u =>
    refine hr₁.trans ?_
    have hops : Steady r₁ { r₁ with
        ops := (r₁.ops.find fun op => op.userData == target).elim r₁.ops fun key =>
          r₁.ops.modify key (OpState.setCleanup · u) } := by
      cases r₁.ops.find fun op => op.userData == target with
      | none => exact .of_eq rfl rfl rfl
      | some key => exact .modifyOp rfl rfl rfl fun op _ => OrphanedOp.setCleanup_shape _ u
    refine hops.trans ?_
    dsimp only
    cases r₁.orphaned.find fun op => op.userData == target with
    | none => exact .of_eq rfl rfl rfl
    | some key => exact .modifyOrphan rfl rfl rfl fun op _ => OrphanedOp.setCleanup_shape op u

theorem queueCleanups (r : Ring) (requests : List (ℕ × ℕ × ℕ)) :
    Steady r (Uring.queueCleanups r requests).2 := by
  induction requests generalizing r with
  | nil => exact .of_eq rfl rfl rfl
  | cons request requests ih => exact (queueCleanup r request).trans (ih _)

end Steady

end Ring

/-- A `REMOVE_BUFFERS` can name the number of the stream's buffers. -/
def OrphanedOp.Countable (op : OrphanedOp) : Prop :=
  ∀ size g, op.pool = some (size, g) → op.buffers size < 2 ^ 16

theorem OrphanedOp.Countable.of_none {op : OrphanedOp} (h : op.pool = none) : op.Countable := by
  intro size g hpool
  rw [h] at hpool
  cases hpool

theorem OrphanedOp.Countable.of_shape {op op' : OrphanedOp} (h : op.Countable)
    (hshape : op'.shape = op.shape) : op'.Countable := by
  intro size g hpool
  rw [pool_of_shape hshape] at hpool
  unfold OrphanedOp.buffers
  rw [resource_of_shape hshape]
  exact h size g hpool

namespace Ring
variable {r r' : Ring}

/-- The ring has room for submissions, and the buffers of every pool can be counted in a `u16`. -/
structure Fits (r : Ring) : Prop where
  room : 0 < r.sqEntries
  counted : ∀ op ∈ r.entries, op.Countable

theorem Fits.steady (h : r.Fits) (hsteady : Steady r r') : r'.Fits := by
  refine ⟨hsteady.sqEntries ▸ h.room, ?_⟩
  intro op' hop'
  obtain ⟨op, hop, hshape⟩ := hsteady.entries op' hop'
  exact (h.counted op hop).of_shape hshape

/-- One operation is put into its slot, and perhaps taken out again. -/
theorem Fits.insert (h : r.Fits) {key : ℕ} {op : OpState} (hkey : r.ops.Vacant key)
    (hop : op.Countable) (hentries : r'.sqEntries = r.sqEntries)
    (hops : r'.ops = r.ops.insert key op) (horphaned : r'.orphaned = r.orphaned) : r'.Fits := by
  refine ⟨hentries ▸ h.room, ?_⟩
  intro op' hop'
  rcases mem_entries.mp hop' with ⟨j, op'', hj, rfl⟩ | ⟨j, hj⟩
  · rw [hops, Slab.get_insert hkey] at hj
    split_ifs at hj
    · cases hj
      exact hop
    · exact h.counted _ (mem_entries.mpr (.inl ⟨j, op'', hj, rfl⟩))
  · rw [horphaned] at hj
    exact h.counted _ (mem_entries.mpr (.inr ⟨j, hj⟩))

theorem Fits.startOp (h : r.Fits) {key : ℕ} (hkey : r.ops.Vacant key) (q : Request) (waker : ℕ) :
    (Uring.startOp r key q waker).2.Fits := by
  unfold Uring.startOp
  rcases hnext : Uring.nextUserData r with ⟨result, r₁⟩
  obtain rfl : r₁ = (Uring.nextUserData r).2 := by rw [hnext]
  cases result with
  | error => exact h.steady (.of_eq rfl rfl rfl)
  | ok u =>
    dsimp only
    let op : OpState := ⟨⟨q.resource, u, none⟩, none, some waker⟩
    have hinsert : Fits { (Uring.nextUserData r).2 with
        ops := r.ops.insert key op
        opsByUserData := Function.update r.opsByUserData u (some key) } :=
      h.insert hkey (.of_none rfl) rfl rfl rfl
    cases q.resource.addrLen with
    | error error => exact hinsert.steady (.removeOp rfl rfl rfl)
    | ok addr =>
      dsimp only
      split
      · exact hinsert.steady (.removeOp rfl rfl rfl)
      · rename_i hqueue
        exact hinsert.steady (.queueSqeLocked hqueue)

theorem Fits.startMultishotAccept (h : r.Fits) {key : ℕ} (hkey : r.ops.Vacant key) (fd : ℤ)
    (waker : ℕ) : (Uring.startMultishotAccept r key fd waker).2.Fits := by
  unfold Uring.startMultishotAccept
  split_ifs
  · exact h
  · rcases hnext : Uring.nextUserData r with ⟨result, r₁⟩
    obtain rfl : r₁ = (Uring.nextUserData r).2 := by rw [hnext]
    cases result with
    | error => exact h.steady (.of_eq rfl rfl rfl)
    | ok u =>
      dsimp only
      let op : OpState :=
        ⟨⟨.multishotAccept, u, some ⟨.accept, [], false, true, none⟩⟩, none, some waker⟩
      have hinsert : Fits { (Uring.nextUserData r).2 with
          ops := r.ops.insert key op
          opsByUserData := Function.update r.opsByUserData u (some key) } :=
        h.insert hkey (.of_none rfl) rfl rfl rfl
      split
      · exact hinsert.steady (.removeOp rfl rfl rfl)
      · rename_i hqueue
        exact hinsert.steady (.queueSqeLocked hqueue)

theorem Fits.startMultishotRecv (h : r.Fits) {key : ℕ} (hkey : r.ops.Vacant key) (fd : ℤ)
    (bufferSize bufferCount waker : ℕ) :
    (Uring.startMultishotRecv r key fd bufferSize bufferCount waker).2.Fits := by
  unfold Uring.startMultishotRecv
  split_ifs with hsize hcount hpositive
  · exact h
  · exact h
  · exact h
  · exact h
  · rcases hnext : Uring.nextUserData r with ⟨result, r₁⟩
    obtain rfl : r₁ = (Uring.nextUserData r).2 := by rw [hnext]
    cases result with
    | error => exact h.steady (.of_eq rfl rfl rfl)
    | ok u =>
      dsimp only
      let op : OpState :=
        ⟨⟨.multishotRecv (bufferSize * bufferCount), u,
          some ⟨.recv bufferSize r.nextBufferGroup, [], false, false, none⟩⟩, none, some waker⟩
      have hcountable : op.Countable := by
        rintro size g hpool
        cases hpool
        have hbuffers : op.buffers bufferSize = bufferCount :=
          Nat.mul_div_cancel_left _ (Nat.pos_of_ne_zero (not_or.mp hpositive).1)
        rw [hbuffers]
        exact Nat.lt_of_not_le hcount
      have hinsert : Fits { (Uring.nextUserData r).2 with
          nextBufferGroup := max ((r.nextBufferGroup + 1) % 2 ^ 16) 1
          ops := r.ops.insert key op
          opsByUserData := Function.update r.opsByUserData u (some key) } :=
        h.insert hkey hcountable rfl rfl rfl
      split
      · rename_i hsecond
        exact hinsert.steady (.of_asks (.of_next hsecond))
      · rename_i hsecond
        have hfits := hinsert.steady (.of_asks (.of_next hsecond))
        split
        · exact hfits
        · rename_i hqueue
          have hfits := hfits.steady (.queueSqeLocked hqueue)
          split
          · exact hfits.steady (.removeOp rfl rfl rfl)
          · rename_i hqueue'
            refine hfits.steady (.trans ?_ (.queueSqeLocked hqueue'))
            exact .of_eq rfl rfl rfl

theorem Fits.run (h : r.Fits) {key : ℕ} (hkey : r.ops.Vacant key) (start : Start) (waker : ℕ) :
    (start.run r key waker).2.Fits := by
  cases start with
  | op request => exact h.startOp hkey request waker
  | acceptMultishot fd => exact h.startMultishotAccept hkey fd waker
  | recvMultishot fd bufferSize bufferCount =>
    exact h.startMultishotRecv hkey fd bufferSize bufferCount waker

theorem Fits.client (h : r.Fits) {now : ℕ} {slot slot' : Slot} {move : ClientMove}
    (hstep : ClientStep r now slot move r' slot') : r'.Fits := by
  induction hstep with
  | @start key key' waker start _ hvacant hrun | @startFailed key waker start _ hvacant hrun =>
    have hfits := h.run hvacant start waker
    rwa [hrun] at hfits
  | submit | submitCancel => exact h.steady (.submitInner ..)
  | drop _ hvacant => exact h.steady (.orphan hvacant)
  | poll => exact h.steady (.poll ..)
  | finish => exact h.steady (.removeMultishot ..)
  | register => exact h.steady (.modifyOp rfl rfl rfl fun _ _ => rfl)
  | cancel => exact h.steady (.of_asks (.queueCancel ..))
  | check | uncancel => exact h.steady (.of_eq rfl rfl rfl)
  | checkUnfinished => exact h

theorem Fits.new {sqEntries : ℕ} (h : 0 < sqEntries) (sqpoll : Bool) :
    (Ring.new sqEntries sqpoll).Fits := by
  refine ⟨h, ?_⟩
  intro op hop
  cases hop

end Ring

/-- A ring that was made with room for submissions. -/
theorem System.fits_of_reachable {guard : System → Label → Prop} {sqEntries futures : ℕ}
    {sqpoll : Bool} {s : System} (hroom : 0 < sqEntries)
    (h : Reachable System.step guard (.new sqEntries sqpoll futures) s) : s.ring.Fits := by
  refine h.invariant (I := fun s => s.ring.Fits) (.new hroom sqpoll) ?_
  intro s a s' hfits _ hstep
  cases Steps.of_eq hstep with
  | consume | post | reapBegin | reaperWake | reaperReturn =>
    exact hfits.steady (.of_eq rfl rfl rfl)
  | submit | reaperSubmit => exact hfits.steady (.submitInner ..)
  | client _ hclient => exact hfits.client hclient
  | @reapCqe _ _ cqe io =>
    have hio : s.ring.Steady { s.ring with io := io } := .of_eq rfl rfl rfl
    exact hfits.steady (hio.trans (.reapCqe _ cqe))
  | reapEnd => exact hfits.steady (.queueCleanups ..)

end Eddy.Uring
