import Eddy.UringPools

/-!
# Runs that lose no buffer

Every section of the code and every step of the kernel keeps the buffers of the live streams, as
long as a buffer that is given back finds room in the submission queue, no stream goes on after it
has ended, and a new stream gets a group that nobody uses.
-/

namespace Eddy.Uring
open Table Interleaving

namespace Ring
variable {r r' : Ring} {cqe : Cqe} {io : Traffic Sqe Cqe}

/-- Only a `user_data` is used up. -/
theorem Routed.pooled_alloc (h : r.Routed) (hpooled : r.table.Pooled)
    (htable : r'.table = r.table ∨ r'.table = { r.table with allocated := r.allocated + 1 }) :
    r'.table.Pooled := by
  refine hpooled.of_io ?_ ?_
  · apply Shrinks.of_eq h.valid
    · rcases htable with htable | htable <;> rw [htable]
    · rcases htable with htable | htable <;> rw [htable]
  · have hio : r'.table.io = r.table.io := by rcases htable with htable | htable <;> rw [htable]
    exact hio

theorem Routed.pooled_submitInner (h : r.Routed) (hpooled : r.table.Pooled) (answer : Option ℕ) :
    (Uring.submitInner r answer).2.table.Pooled := by
  obtain ⟨n, sqPending, heq⟩ := exists_submitInner_eq r answer
  rw [heq]
  exact hpooled.consume h.valid n

theorem Routed.pooled_queueCancel (h : r.Routed) (hpooled : r.table.Pooled) (target : ℕ)
    (hb : (Uring.queueCancel r target).2.allocated < 2 ^ 64) :
    (Uring.queueCancel r target).2.table.Pooled := by
  rw [(Asks.queueCancel r target).allocated] at hb
  unfold Uring.queueCancel
  simp only [h.nextUserData hb]
  split
  · exact h.pooled_alloc hpooled (.inr rfl)
  · rename_i hqueue
    rw [queueSqeLocked_eq_ok hqueue]
    refine hpooled.queue (.of_eq h.valid rfl rfl) rfl (.of_unused fun g => ?_) nofun
    simp [Sqe.uses, Sqe.selects, Opcode.buffers]

variable {key : ℕ}

/-- The start fails after the entry was made. -/
theorem Routed.pooled_rejected (h : r.Routed) (hpooled : r.table.Pooled)
    (hkey : r.ops.Vacant key) {op : OpState} (huser : op.userData = r.allocated + 1) :
    (table { r with
      nextUserData := max ((r.allocated + 1 + 1) % 2 ^ 64) 1
      allocated := r.allocated + 1
      ops := (r.ops.insert key op).remove key
      opsByUserData := Function.update
        (Function.update r.opsByUserData (r.allocated + 1) (some key)) (r.allocated + 1)
          none }).Pooled := by
  have hstarted : Started r false 0 _ := h.rejected hkey huser false
  cases hstarted with
  | rejected _ htable => exact h.pooled_alloc hpooled htable

/-- The entry of an operation without a pool is made, and its submission queued. -/
theorem Routed.pooled_queued (h : r.Routed) (hpooled : r.table.Pooled)
    (hkey : r.ops.Vacant key) (op : OpState) {sqe : Sqe} (huser : op.userData = r.allocated + 1)
    (hpool : op.pool = none) (huses : ∀ g, sqe.uses g = false)
    (hopcode : sqe.opcode ≠ .provideBuffers) :
    (table { r with
      nextUserData := max ((r.allocated + 1 + 1) % 2 ^ 64) 1
      allocated := r.allocated + 1
      ops := r.ops.insert key op
      opsByUserData := Function.update r.opsByUserData (r.allocated + 1) (some key)
      io := r.io.queue sqe
      sqPending := r.sqPending + 1 }).Pooled := by
  have hnew := h.valid.ne_of_lt (Nat.lt_succ_self r.allocated)
  have hnone : r.opsByUserData op.userData = none := by
    rw [huser]
    exact (h.valid.index _).mpr (h.valid.fresh hnew).1
  obtain ⟨-, hlookup⟩ := h.ops.insert hkey hnone
  rw [huser] at hlookup
  refine hpooled.queue ?_ rfl (.of_unused huses) hopcode
  exact .setOp h.valid hlookup rfl fun hne => absurd hpool hne

theorem Routed.pooled_startOp (h : r.Routed) (hpooled : r.table.Pooled)
    (hkey : r.ops.Vacant key) (q : Request) (waker : ℕ)
    (hb : (Uring.startOp r key q waker).2.allocated < 2 ^ 64) :
    (Uring.startOp r key q waker).2.table.Pooled := by
  rw [allocated_startOp] at hb
  unfold Uring.startOp
  simp only [h.nextUserData hb]
  cases q.resource.addrLen with
  | error error => exact h.pooled_rejected hpooled hkey rfl
  | ok addr =>
    simp only
    split
    · exact h.pooled_rejected hpooled hkey rfl
    · rename_i hqueue
      rw [queueSqeLocked_eq_ok hqueue]
      refine h.pooled_queued hpooled hkey ⟨⟨q.resource, r.allocated + 1, none⟩, none, some waker⟩ rfl
        rfl (fun g => ?_) ?_
      · cases q <;> simp [Sqe.uses, Sqe.selects, Request.sqe, Request.opcode, Opcode.buffers,
          Sqe.multishot, recvMultishot]
      · cases q <;> simp [Request.sqe, Request.opcode]

theorem Routed.pooled_startMultishotAccept (h : r.Routed) (hpooled : r.table.Pooled)
    (hkey : r.ops.Vacant key) (fd : ℤ) (waker : ℕ)
    (hb : (Uring.startMultishotAccept r key fd waker).2.allocated < 2 ^ 64) :
    (Uring.startMultishotAccept r key fd waker).2.table.Pooled := by
  have hstarted := h.startMultishotAccept hkey fd waker hb
  unfold Uring.startMultishotAccept at hb ⊢
  split_ifs at hb ⊢
  · exact hpooled
  · have hb₁ : r.allocated + 1 < 2 ^ 64 := by
      rcases hnext : Uring.nextUserData r with ⟨result, r₁⟩
      have hr₁ : r₁.allocated = r.allocated + 1 := by
        rw [← allocated_nextUserData r, hnext]
      rw [hnext] at hb
      cases result with
      | error => exact hr₁ ▸ hb
      | ok u =>
        dsimp only at hb
        split at hb
        · exact hr₁ ▸ hb
        · rename_i hqueue
          rw [queueSqeLocked_eq_ok hqueue] at hb
          exact hr₁ ▸ hb
    simp only [h.nextUserData hb₁]
    split
    · exact h.pooled_rejected hpooled hkey rfl
    · rename_i hqueue
      rw [queueSqeLocked_eq_ok hqueue]
      refine h.pooled_queued hpooled hkey ⟨⟨.multishotAccept, r.allocated + 1,
        some ⟨.accept, [], false, true, none⟩⟩, none, some waker⟩ rfl rfl (fun g => ?_) nofun
      simp [Sqe.uses, Sqe.selects, Opcode.buffers]

theorem Routed.pooled_startMultishotRecv (h : r.Routed) (hpooled : r.table.Pooled)
    (hkey : r.ops.Vacant key) (fd : ℤ) (bufferSize bufferCount waker : ℕ)
    (hfree : bufferSize < 2 ^ 32 → bufferCount < 2 ^ 16 → 0 < bufferSize → 0 < bufferCount →
      2 ≤ sqSpaceLocked r → r.table.GroupFree r.nextBufferGroup)
    (hb : (Uring.startMultishotRecv r key fd bufferSize bufferCount waker).2.allocated < 2 ^ 64) :
    (Uring.startMultishotRecv r key fd bufferSize bufferCount waker).2.table.Pooled := by
  by_cases hchecks : 2 ^ 32 ≤ bufferSize ∨ 2 ^ 16 ≤ bufferCount ∨
      (bufferSize = 0 ∨ bufferCount = 0) ∨ sqSpaceLocked r < 2
  · unfold Uring.startMultishotRecv
    split_ifs with h₁ h₂ h₃ h₄
    · exact hpooled
    · exact hpooled
    · exact hpooled
    · exact hpooled
    · exact absurd hchecks (by tauto)
  · push Not at hchecks
    obtain ⟨hsize, hcount, ⟨hsize', hcount'⟩, hspace⟩ := hchecks
    have hpositive : ¬ (bufferSize = 0 ∨ bufferCount = 0) := not_or.mpr ⟨hsize', hcount'⟩
    have hb₂ := allocated_startMultishotRecv h hsize.not_ge hcount.not_ge hpositive hspace.not_gt hb
    rw [h.startMultishotRecv_eq fd waker hsize.not_ge hcount.not_ge hpositive hspace.not_gt hb₂]
    have hfresh := h.valid.ne_of_lt (Nat.lt_succ_self r.allocated)
    have hnone : r.opsByUserData (r.allocated + 1) = none :=
      (h.valid.index _).mpr (h.valid.fresh hfresh).1
    have hlookup := (h.ops.insert (a := recvOp r bufferSize bufferCount waker) hkey hnone).2
    have hbuffers : (recvOp r bufferSize bufferCount waker).buffers bufferSize = bufferCount :=
      Nat.mul_div_cancel_left _ (Nat.pos_of_ne_zero hsize')
    refine hpooled.startRecv (recvControl r bufferSize bufferCount) (recvSqe r fd bufferSize)
      (hfree hsize hcount (Nat.pos_of_ne_zero hsize') (Nat.pos_of_ne_zero hcount') hspace)
      rfl rfl rfl (fun id hid => ?_) rfl rfl rfl rfl rfl ⟨hlookup, rfl⟩ rfl
    replace hid : id < bufferCount := lt_of_lt_of_eq hid hbuffers
    simp only [Sqe.ids, recvControl, Int.toNat_natCast, List.mem_range', zero_add]
    exact ⟨id, hid, by omega⟩

theorem Routed.pooled_run (h : r.Routed) (hpooled : r.table.Pooled)
    (hkey : r.ops.Vacant key) (start : Start) (waker : ℕ)
    (hfree : ∀ fd bufferSize bufferCount, start = .recvMultishot fd bufferSize bufferCount →
      bufferSize < 2 ^ 32 → bufferCount < 2 ^ 16 → 0 < bufferSize → 0 < bufferCount →
      2 ≤ sqSpaceLocked r → r.table.GroupFree r.nextBufferGroup)
    (hb : (start.run r key waker).2.allocated < 2 ^ 64) : (start.run r key waker).2.table.Pooled := by
  cases start with
  | op request => exact h.pooled_startOp hpooled hkey request waker hb
  | acceptMultishot fd => exact h.pooled_startMultishotAccept hpooled hkey fd waker hb
  | recvMultishot fd bufferSize bufferCount =>
    exact h.pooled_startMultishotRecv hpooled hkey fd bufferSize bufferCount waker
      (hfree fd bufferSize bufferCount rfl) hb

/-- A completion of a live stream gives its buffer back, which finds room in the queue. -/
theorem Routed.pooled_reapCqe (h : r.Routed) (hpooled : r.table.Pooled)
    (hreap : r.io.reap = some (cqe, io)) (horderly : r.table.Orderly cqe)
    (hroom : ∀ op ∈ r.table.op cqe.userData, (op.refill cqe).isSome = true →
      r.io.sq.length < r.sqEntries)
    (hb : (Uring.reapCqe { r with io := io } cqe).1.allocated < 2 ^ 64) :
    (Uring.reapCqe { r with io := io } cqe).1.table.Pooled := by
  by_cases hother : r.cancelTargets cqe.userData = none →
      r.provideTargets cqe.userData = none → r.opsByUserData cqe.userData = none
  · rw [(h.reapCqe_other io hother).2.1]
    refine hpooled.reap h.valid hreap horderly fun op hop => ?_
    rcases h.valid.reap_cases hreap with ⟨hopcode, -⟩ | ⟨hopcode, -⟩ | ⟨hopcode, -⟩ |
      ⟨-, -, hcancel, hprovide, -⟩
    · have := (h.valid.started_of_answer hreap hop).2.2.1
      simp [hopcode, Opcode.control] at this
    · have := (h.valid.started_of_answer hreap hop).2.2.1
      simp [hopcode, Opcode.control] at this
    · have := (h.valid.started_of_answer hreap hop).2.2.1
      simp [hopcode, Opcode.control] at this
    · rw [(h.valid.index _).mp (hother hcancel hprovide)] at hop
      cases hop
  · push Not at hother
    obtain ⟨hcancel, hprovide, hsome⟩ := hother
    obtain ⟨key, hkey⟩ := Option.ne_none_iff_exists'.mp hsome
    obtain ⟨op, hget, huser, hlookup⟩ := h.get_of_index hkey
    obtain ⟨hindexed, htable⟩ := h.answered_table io hcancel hprovide hget huser hlookup
    unfold Uring.reapCqe at hb ⊢
    simp only [hcancel, hprovide, hkey] at hb ⊢
    unfold Uring.reapOp at hb ⊢
    simp only [hget] at hb ⊢
    cases hrefill : op.refill cqe with
    | none =>
      simp only
      rw [htable]
      refine hpooled.reap h.valid hreap horderly fun op' hop' => ?_
      rw [hlookup] at hop'
      cases hop'
      exact hrefill
    | some refill =>
      simp only [hrefill] at hb ⊢
      have hreaped := h.reaped hreap hindexed htable ⟨rfl, rfl⟩
      have hroom : io.sq.length < r.sqEntries := by
        obtain ⟨rest, -, rfl⟩ := Traffic.reap_eq_some.mp hreap
        exact hroom op hlookup (by rw [hrefill]; rfl)
      rw [(Asks.queueProvideBufferLocked ..).allocated] at hb
      unfold Uring.queueProvideBufferLocked
      rw [hreaped.routed.nextUserData hb]
      simp only
      rw [queueSqeLocked_of_space (by exact hroom)]
      let sqe : Sqe :=
        { opcode := .provideBuffers, fd := 1, off := refill.bufferId,
          addr := .resource refill.start, len := refill.length, userData := r.allocated + 1,
          bufIndex := refill.bufferGroup, owner := cqe.userData }
      have hop := congrArg Table.op htable
      have horphan := congrArg Table.orphan htable
      exact hpooled.refill h.valid hreap horderly sqe hlookup hrefill rfl rfl rfl rfl hop horphan rfl

theorem Routed.pooled_queueCleanup (h : r.Routed) (hpooled : r.table.Pooled) {op : OrphanedOp}
    {target count group : ℕ} (hheld : r.table.held target = some op)
    (hrequest : cleanupRequest op = some (target, count, group))
    (hb : (Uring.queueCleanup r (target, count, group)).2.allocated < 2 ^ 64) :
    (Uring.queueCleanup r (target, count, group)).2.table.Pooled := by
  rw [allocated_queueCleanup] at hb
  unfold Uring.queueCleanup Uring.queueRemoveBuffersLocked
  simp only [h.nextUserData hb]
  cases hqueue : queueSqeLocked _ _ with
  | error => exact h.pooled_alloc hpooled (.inr rfl)
  | ok r₂ =>
    rw [queueSqeLocked_eq_ok hqueue]
    let sqe : Sqe :=
      { opcode := .removeBuffers, flags := ioDrain, fd := count, userData := r.allocated + 1,
        bufIndex := group, owner := target }
    obtain ⟨-, hlookup, -, hlookup'⟩ := h.setCleanup target (r.allocated + 1)
    exact hpooled.cleanup h.valid sqe rfl hheld hrequest hlookup hlookup' rfl

theorem Routed.pooled_queuePendingCleanupsLocked (h : r.Routed) (hpooled : r.table.Pooled)
    (hb : (Uring.queuePendingCleanupsLocked r).2.allocated < 2 ^ 64) :
    (Uring.queuePendingCleanupsLocked r).2.table.Pooled := by
  refine h.queuePendingCleanupsLocked_keep (P := fun r => r.table.Pooled) hpooled ?_ hb
  intro r' op request hrouted hpooled' hheld hrequest hb'
  exact hrouted.pooled_queueCleanup hpooled' hheld hrequest hb'

end Ring

/-- A dropped stream is moved to the orphans, or released. -/
theorem Table.Move.orphan_of_drop {v v' : Table} {u : ℕ} (h : Move v (.drop u) v') {w : ℕ}
    {op' : OrphanedOp} (hw : v'.orphan w = some op') :
    v.orphan w = some op' ∨ ∃ op, v.op w = some op ∧ op' = op.toOrphanedOp := by
  cases h with
  | dropComplete => exact .inl hw
  | dropToOrphan hop =>
    by_cases hwu : w = u
    · subst hwu
      simp only [Table.setOrphan, Function.update_self, Option.some.injEq] at hw
      exact .inr ⟨_, hop, hw.symm⟩
    · simp only [Table.setOrphan, Function.update_of_ne hwu] at hw
      exact .inl hw

namespace System
variable {s s' : System}

/-- The sections of the futures. -/
theorem Routed.pooled_client (h : s.Routed) (hpooled : s.ring.table.Pooled) {i now : ℕ}
    {old slot : Slot} {move : ClientMove} {ring : Ring} (hi : s.slots[i]? = some old)
    (hstep : ClientStep s.ring now old move ring slot)
    (hfree : ∀ key fd bufferSize bufferCount waker,
      move = .start key (.recvMultishot fd bufferSize bufferCount) waker →
      bufferSize < 2 ^ 32 → bufferCount < 2 ^ 16 → 0 < bufferSize → 0 < bufferCount →
      2 ≤ sqSpaceLocked s.ring → s.ring.table.GroupFree s.ring.nextBufferGroup)
    (hb : ring.allocated < 2 ^ 64) : ring.table.Pooled := by
  have hvalid := h.ring.valid
  have hstart : ∀ {key waker : ℕ} {start : Start} {result : Option ℕ}, s.ring.ops.Vacant key →
      move = .start key start waker → start.run s.ring key waker = (result, ring) →
      ring.table.Pooled := by
    intro key waker start result hvacant hmove hrun
    have hpooled' := h.ring.pooled_run hpooled hvacant start waker (fun fd bufferSize bufferCount
      heq => hfree key fd bufferSize bufferCount waker (heq ▸ hmove)) (by rwa [hrun])
    rwa [hrun] at hpooled'
  cases hstep with
  | start hvacant hrun | startFailed hvacant hrun => exact hstart hvacant rfl hrun
  | @submit f answer => exact h.ring.pooled_submitInner hpooled answer
  | @drop _ f orphanKey hold hvacant =>
    have hf : old.future = some f := by rcases hold with rfl | rfl | rfl <;> rfl
    obtain ⟨op, hkey, -, -⟩ := h.ring.get_of_index ((h.fits i old hi).holds hf).1
    have horphan := h.ring.orphan hkey hvacant
    refine hpooled.of_io ?_ horphan.io
    exact .removeOp hvalid horphan.op fun u op' hu => horphan.move.orphan_of_drop hu
  | @poll _ f waker hold =>
    have hf : old.future = some f := by rcases hold with rfl | rfl <;> rfl
    have hholds := (h.fits i old hi).holds hf
    have hpoll : Polled s.ring { f with waker := waker, since := now } _ := h.ring.poll hholds
    rcases hresult : poll s.ring { f with waker := waker, since := now } with ⟨ring, slot⟩
    rw [hresult] at hpoll
    cases hpoll with
    | @event _ op m event events _ _ hop hm _ htable =>
      rw [htable]
      refine hpooled.of_io (.setOp hvalid rfl rfl fun _ => ⟨op, hop, ?_, ?_⟩) rfl
      · simp [OrphanedOp.shape, hm]
      · intro hterminal
        simpa [OrphanedOp.terminal, hm] using hterminal
    | result _ _ _ _ htable =>
      rw [htable]
      exact hpooled.of_io (.removeOp hvalid rfl fun u op' hu => .inl hu) rfl
    | nothing => exact hpooled
  | check => exact hpooled.of_io (.of_eq hvalid rfl rfl) rfl
  | checkUnfinished => exact hpooled
  | @finish f =>
    obtain ⟨⟨hindex, op, hop, hisSome⟩, hmultishot, hended⟩ := h.fits i _ hi
    obtain ⟨op', hkey, huser, hop'⟩ := h.ring.get_of_index hindex
    obtain rfl : op' = op := Option.some.inj (hop'.symm.trans hop)
    obtain ⟨-, -, htable⟩ := h.ring.removeMultishot hkey (hisSome.trans hmultishot)
      (huser.symm ▸ hended)
    rw [htable]
    exact hpooled.of_io (.removeOp hvalid rfl fun u op' hu => .inl hu) rfl
  | @register _ f hold =>
    have hf : old.future = some f := by rcases hold with ⟨rfl, -⟩ | rfl <;> rfl
    obtain ⟨op, hkey, huser, hop⟩ := h.ring.get_of_index ((h.fits i old hi).holds hf).1
    obtain ⟨-, -, htable⟩ := h.ring.storeWaker hkey f.waker
    rw [htable]
    exact hpooled.of_io (.setOp hvalid rfl rfl fun _ => ⟨op, huser ▸ hop, rfl, fun ht => ht⟩) rfl
  | @cancel target => exact h.ring.pooled_queueCancel hpooled target hb
  | @submitCancel c answer => exact h.ring.pooled_submitInner hpooled answer
  | uncancel => exact hpooled.of_io (.of_eq hvalid rfl rfl) rfl

/-- What the kernel documents about the buffers that it selects: it has them, and says how much of
them it has filled. -/
def Selects (s : System) : Label → Prop
  | .post i res flags => ∀ sqe ∈ s.ring.io.inFlight[i]?, Cqe.Sane ⟨sqe, res, flags⟩ ∧
    (Cqe.selected ⟨sqe, res, flags⟩ = true →
      Cqe.bufferId ⟨sqe, res, flags⟩ ∈ available s.ring.io sqe.bufIndex)
  | .consume _ | .submit _ | .client .. | .reapBegin | .reapCqe | .reapEnd | .reaperSubmit ..
  | .reaperWake _ | .reaperReturn _ => True

def NextGroupFree (s : System) : Prop :=
  (∀ op ∈ s.ring.ops.values.map OpState.toOrphanedOp ++ s.ring.orphaned.values,
    op.pool.map Prod.snd ≠ some s.ring.nextBufferGroup) ∧
  (∀ sqe ∈ outstanding s.ring.io, sqe.uses s.ring.nextBufferGroup = false) ∧
  available s.ring.io s.ring.nextBufferGroup = []

instance (s : System) : Decidable s.NextGroupFree := inferInstanceAs (Decidable (_ ∧ _ ∧ _))

instance (s : System) : (a : Label) → Decidable (s.Selects a)
  | .post i _ _ => inferInstanceAs (Decidable (∀ sqe ∈ s.ring.io.inFlight[i]?, _))
  | .consume _ | .submit _ | .client .. | .reapBegin | .reapCqe | .reapEnd | .reaperSubmit ..
  | .reaperWake _ | .reaperReturn _ => .isTrue trivial

/-- A buffer that is given back finds room in the submission queue, no stream goes on after it has
ended, and a new stream gets a group that nobody uses. -/
def Refills (s : System) : Label → Prop
  | .reapCqe => ∀ cqe ∈ s.ring.io.cq.head?, s.ring.table.Orderly cqe ∧
    ∀ op ∈ s.ring.table.op cqe.userData, (op.refill cqe).isSome = true →
      s.ring.io.sq.length < s.ring.sqEntries
  | .client _ (.start _ (.recvMultishot _ bufferSize bufferCount) _) =>
    bufferSize < 2 ^ 32 → bufferCount < 2 ^ 16 → 0 < bufferSize → 0 < bufferCount →
      2 ≤ sqSpaceLocked s.ring → s.NextGroupFree
  | _ => True

instance (s : System) : (a : Label) → Decidable (s.Refills a)
  | .reapCqe => inferInstanceAs (Decidable (∀ cqe ∈ s.ring.io.cq.head?, _))
  | .client _ (.start _ (.recvMultishot _ _ _) _) =>
    inferInstanceAs (Decidable (_ → _ → _ → _ → _ → _))
  | .client _ (.start _ (.op _) _) | .client _ (.start _ (.acceptMultishot _) _)
  | .client _ (.submit _) | .client _ (.poll _) | .client _ .check | .client _ .finish
  | .client _ .register | .client _ (.drop _) | .client _ .cancel | .client _ .uncancel
  | .post .. | .consume _ | .submit _ | .reapBegin | .reapEnd | .reaperSubmit .. | .reaperWake _
  | .reaperReturn _ => .isTrue trivial

theorem Routed.groupFree (h : s.Routed) (hfree : s.NextGroupFree) :
    s.ring.table.GroupFree s.ring.nextBufferGroup := by
  obtain ⟨hentries, hsqes, havailable⟩ := hfree
  refine ⟨fun u op size hu hpool => ?_, hsqes, havailable⟩
  have hmem : op ∈ s.ring.ops.values.map OpState.toOrphanedOp ++ s.ring.orphaned.values := by
    cases hop : s.ring.table.op u with
    | none =>
      simp only [Table.held, hop, Option.elim_none] at hu
      have huser := (h.ring.valid.orphan u op hu).1
      refine List.mem_append_right _ (h.ring.orphaned.mem_values.mpr ?_)
      rw [huser]
      exact hu
    | some op' =>
      simp only [Table.held, hop, Option.elim_some, Option.some.injEq] at hu
      subst hu
      have huser := (h.ring.valid.op u op' hop).1
      refine List.mem_append_left _ (List.mem_map_of_mem (h.ring.ops.mem_values.mpr ?_))
      rw [huser]
      exact hop
  exact hentries op hmem (by rw [hpool]; rfl)

theorem Routed.pooled_step {a : Label} (h : s.Routed) (hpooled : s.ring.table.Pooled)
    (hselects : s.Selects a) (hrefills : s.Refills a) (hstep : s.step a = some s')
    (hb : s'.ring.allocated < 2 ^ 64) : s'.ring.table.Pooled := by
  cases Steps.of_eq hstep with
  | @consume n => exact hpooled.consume h.ring.valid n
  | post hsqe =>
    obtain ⟨hsane, hselected⟩ := hselects _ hsqe
    exact hpooled.post h.ring.valid hsqe hsane hselected
  | @submit answer => exact h.ring.pooled_submitInner hpooled answer
  | client hi hclient =>
    refine h.pooled_client hpooled hi hclient ?_ hb
    rintro key fd bufferSize bufferCount waker rfl hsize hcount hsize' hcount' hspace
    exact h.groupFree (hrefills hsize hcount hsize' hcount' hspace)
  | reapBegin => exact hpooled
  | reapCqe _ hreap =>
    obtain ⟨rest, hcq, -⟩ := Traffic.reap_eq_some.mp hreap
    obtain ⟨horderly, hroom⟩ := hrefills _ (by rw [hcq]; rfl)
    exact h.ring.pooled_reapCqe hpooled hreap horderly hroom hb
  | reapEnd => exact h.ring.pooled_queuePendingCleanupsLocked hpooled hb
  | @reaperSubmit j answer => exact h.ring.pooled_submitInner hpooled answer
  | reaperWake | reaperReturn => exact hpooled

/-- The kernel keeps to its documentation, and no buffer is lost. -/
def KeepsBuffers (s : System) (a : Label) : Prop := s.Selects a ∧ s.Refills a

instance (s : System) (a : Label) : Decidable (s.KeepsBuffers a) := instDecidableAnd

/-- Every buffer of a live stream is in exactly one place, and no two streams have the same
group. -/
structure ConservesBuffers (s : System) : Prop where
  places : ∀ i f op size g, s.future i = some f → s.ring.ops.get f.key = some op →
    op.pool = some (size, g) → op.terminal = false → ∀ id < op.buffers size,
      places s.ring.io g id = 1
  groups : ∀ i j f f' op op' size size' g, s.future i = some f → s.future j = some f' →
    s.ring.ops.get f.key = some op → s.ring.ops.get f'.key = some op' →
    op.pool = some (size, g) → op'.pool = some (size', g) → i = j

theorem Routed.conserves (h : s.Routed) (hpooled : s.ring.table.Pooled) : s.ConservesBuffers := by
  have hop : ∀ {i f op}, s.future i = some f → s.ring.ops.get f.key = some op →
      s.ring.table.op f.userData = some op := by
    intro i f op hf hget
    obtain ⟨op', hget', -, hop⟩ := h.ring.get_of_index (h.holds hf).1
    rw [hget] at hget'
    cases hget'
    exact hop
  refine ⟨fun i f op size g hf hget hpool hlive => ?_, ?_⟩
  · exact hpooled.kept f.userData op size g (hop hf hget) hpool hlive
  · intro i j f f' op op' size size' g hf hf' hget hget' hpool hpool'
    refine h.apart i j f f' hf hf' ?_
    exact hpooled.apart f.userData f'.userData op.toOrphanedOp op'.toOrphanedOp size size' g
      (held_of_op (hop hf hget)) (held_of_op (hop hf' hget')) hpool hpool'

theorem pooled_new (sqEntries : ℕ) (sqpoll : Bool) : (Ring.new sqEntries sqpoll).table.Pooled := by
  refine ⟨?_, ?_, ?_, ?_⟩
  · intro sqe hsqe
    cases hsqe
  · intro u u' op op' size size' g hu
    cases hu
  · intro cqe hcqe
    cases hcqe
  · intro u op size g hu
    cases hu

/-- In a run that keeps them, all buffers of a live stream can be found. -/
theorem buffers_conserved {sqEntries futures : ℕ} {sqpoll : Bool}
    (h : Reachable System.step KeepsBuffers (.new sqEntries sqpoll futures) s)
    (hb : s.ring.allocated < 2 ^ 64) : s.ConservesBuffers := by
  have hkept : s.Routed ∧ s.ring.table.Pooled := by
    induction h with
    | start => exact ⟨.new sqEntries sqpoll futures, pooled_new sqEntries sqpoll⟩
    | @next s s' a _ hallowed hstep ih =>
      obtain ⟨hrouted, hpooled⟩ := ih ((allocated_le hstep).trans_lt hb)
      exact ⟨(hrouted.step hstep hb).routed,
        hrouted.pooled_step hpooled hallowed.1 hallowed.2 hstep hb⟩
  exact hkept.1.conserves hkept.2

/-- A stream with two buffers: data in buffer 1 is reaped, and the buffer is on its way back. -/
theorem refilled_buffer_conserved :
    ∃ s, Reachable System.step KeepsBuffers (.new 4 false 1) s ∧
      s.ring.io.sq.map Sqe.ids = [[1]] ∧ s.ConservesBuffers := by
  have hrun : (run (guarded System.step KeepsBuffers) (.new 4 false 1)
      [.client 0 (.start 0 (.recvMultishot 3 16 2) 7), .client 0 (.submit (some 2)), .post 0 0 0,
        .post 0 5 65539, .reapBegin, .reapCqe, .reapCqe]).any (fun s =>
          decide (s.ring.io.sq.map Sqe.ids = [[1]] ∧ s.ring.allocated < 2 ^ 64)) = true := by
    decide +kernel
  obtain ⟨s, hreach, hs⟩ := exists_reachable_of_run hrun
  obtain ⟨hsq, hb⟩ := of_decide_eq_true hs
  exact ⟨s, hreach, hsq, buffers_conserved hreach hb⟩

/-- Two reads have filled the submission queue when the data in buffer 0 is reaped, so that the
buffer is not given back. -/
theorem refused_refill_loses_buffer :
    ¬ ∀ s, Reachable System.step Selects (.new 2 false 3) s → s.ConservesBuffers := by
  intro h
  have hrun : (run (guarded System.step Selects) (.new 2 false 3)
      [.client 0 (.start 0 (.recvMultishot 3 16 2) 7), .client 0 (.submit (some 2)), .post 0 0 0,
        .post 0 5 3, .client 1 (.start 1 (.op (.read 4 8 0)) 8),
        .client 2 (.start 2 (.op (.read 5 8 0)) 9), .reapBegin, .reapCqe, .reapCqe]).any (fun s =>
          (s.future 0).any fun f => (s.ring.ops.get f.key).any fun op =>
            decide (op.pool = some (16, 1) ∧ op.terminal = false ∧ 0 < op.buffers 16 ∧
              places s.ring.io 1 0 = 0)) = true := by
    decide +kernel
  obtain ⟨s, hreach, hs⟩ := exists_reachable_of_run hrun
  obtain ⟨f, hf, hs⟩ := (Option.any_eq_true ..).mp hs
  obtain ⟨op, hget, hs⟩ := (Option.any_eq_true ..).mp hs
  obtain ⟨hpool, hlive, hpos, hlost⟩ := of_decide_eq_true hs
  have hone := (h s hreach).places 0 f op 16 1 hf hget hpool hlive 0 hpos
  rw [hlost] at hone
  cases hone

end System

end Eddy.Uring
