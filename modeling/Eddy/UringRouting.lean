import Eddy.UringTable
import Mathlib.Logic.Relation

/-!
# The slabs and maps implement the tables

Every section of the code does to the tables what one of the moves says, as long as fewer than
2^64 `user_data` values have been allocated. So completions are routed by `user_data`, and the
key of a future is the slot of the operation that it started.
-/

namespace Eddy.Uring
open Table Interleaving
open Function (update)

/-- Moves that no run restricts. -/
def Quiet : Table → Table → Prop := Relation.ReflTransGen fun v v' => Move v .quiet v'

theorem Quiet.refl (v : Table) : Quiet v v := Relation.ReflTransGen.refl

theorem Quiet.single {v v' : Table} (h : Move v .quiet v') : Quiet v v' :=
  Relation.ReflTransGen.single h

structure SameOps (v v' : Table) : Prop where
  index : v'.index = v.index
  op : ∀ u, (v'.op u).map (fun op => op.multishot.isSome) =
    (v.op u).map fun op => op.multishot.isSome
  queued : ∀ sqe ∈ v.io.queued, sqe ∈ v'.io.queued
  ended : ∀ u ∈ v.ended, u ∈ v'.ended

namespace SameOps
variable {v v' v'' : Table}

theorem refl (v : Table) : SameOps v v :=
  ⟨rfl, fun _ => rfl, fun _ h => h, fun _ h => h⟩

theorem trans (h : SameOps v v') (h' : SameOps v' v'') : SameOps v v'' :=
  ⟨h'.index.trans h.index, fun u => (h'.op u).trans (h.op u),
    fun sqe hsqe => h'.queued sqe (h.queued sqe hsqe), fun u hu => h'.ended u (h.ended u hu)⟩

theorem setOp {u : ℕ} {old op : OpState} (hu : v.op u = some old)
    (hop : op.multishot.isSome = old.multishot.isSome) : SameOps v (v.setOp u op) := by
  refine ⟨rfl, fun j => ?_, fun _ h => h, fun _ h => h⟩
  by_cases hj : j = u
  · subst hj
    simp [Table.setOp, hu, hop]
  · simp [Table.setOp, hj]

theorem op_none (h : SameOps v v') {u : ℕ} : v'.op u = none ↔ v.op u = none := by
  have := h.op u
  cases hu : v'.op u <;> cases hu' : v.op u <;> simp_all

end SameOps

theorem isSome_of_shape {a b : OrphanedOp} (h : a.shape = b.shape) :
    a.multishot.isSome = b.multishot.isSome := by
  simp only [OrphanedOp.shape, Prod.mk.injEq] at h
  have := congrArg Option.isSome h.2.2
  simpa using this

namespace Ring

structure Routed (r : Ring) : Prop where
  ops : Slab.Indexes (fun op => op.userData) r.ops r.opsByUserData
  orphaned : Slab.Indexes OrphanedOp.userData r.orphaned r.orphanedByUserData
  counter : r.allocated + 1 < 2 ^ 64 → r.nextUserData = r.allocated + 1
  valid : r.table.Valid

variable {r r' : Ring}

theorem Routed.new (sqEntries : ℕ) (sqpoll : Bool) : (Ring.new sqEntries sqpoll).Routed :=
  ⟨.empty _, .empty _, fun _ => rfl, .new sqEntries sqpoll⟩

theorem Routed.op_of_get (h : r.Routed) {key : ℕ} {op : OpState} (hkey : r.ops.get key = some op) :
    r.table.index op.userData = some key ∧ r.table.op op.userData = some op :=
  h.ops.of_get hkey

theorem Routed.get_of_index (h : r.Routed) {u key : ℕ} (hkey : r.table.index u = some key) :
    ∃ op, r.ops.get key = some op ∧ op.userData = u ∧ r.table.op u = some op :=
  h.ops.get_of_index hkey

theorem allocated_nextUserData (r : Ring) : (Uring.nextUserData r).2.allocated = r.allocated + 1 :=
  rfl

/-- The next `user_data` is free. -/
theorem Routed.nextUserData (h : r.Routed) (hb : r.allocated + 1 < 2 ^ 64) :
    Uring.nextUserData r = (.ok (r.allocated + 1), { r with
      nextUserData := max ((r.allocated + 1 + 1) % 2 ^ 64) 1
      allocated := r.allocated + 1 }) := by
  have hfresh := h.valid.ne_of_lt (Nat.lt_succ_self r.allocated)
  obtain ⟨hop, horphan, -, hprovide, hcleanup, -⟩ := h.valid.fresh hfresh
  have hindex := (h.valid.index _).mpr hop
  have horphaned := h.orphaned.lookup_eq_none.mp horphan
  simp only [table] at hindex hprovide hcleanup
  simp only [Uring.nextUserData, h.counter hb]
  rw [if_pos ⟨Nat.succ_ne_zero _, hindex, horphaned, hprovide, hcleanup⟩]

theorem queueSqeLocked_eq_ok {sqe : Sqe} (h : queueSqeLocked r sqe = .ok r') :
    r' = { r with io := r.io.queue sqe, sqPending := r.sqPending + 1 } := by
  unfold queueSqeLocked at h
  split_ifs at h
  cases h
  rfl

theorem queueSqeLocked_of_space {sqe : Sqe} (h : r.io.sq.length < r.sqEntries) :
    queueSqeLocked r sqe =
      .ok { r with io := r.io.queue sqe, sqPending := r.sqPending + 1 } :=
  if_neg (Nat.not_le.mpr h)

theorem counter_succ {n : ℕ} (h : n + 1 + 1 < 2 ^ 64) :
    max ((n + 1 + 1) % 2 ^ 64) 1 = n + 1 + 1 := by
  rw [Nat.mod_eq_of_lt h]
  omega

/-- A new ring state whose tables are those of a move. -/
theorem Routed.of_move {k : Kind} (h : r.Routed) (hmove : Move r.table k r'.table)
    (hops : Slab.Indexes (fun op => op.userData) r'.ops r'.opsByUserData)
    (horphaned : Slab.Indexes OrphanedOp.userData r'.orphaned r'.orphanedByUserData)
    (hcounter : r'.allocated + 1 < 2 ^ 64 → r'.nextUserData = r'.allocated + 1) : r'.Routed :=
  ⟨hops, horphaned, hcounter, h.valid.move hmove⟩

theorem Request.sqe_starts (q : Request) (u : ℕ) (addr : Address) (length : ℕ) :
    (q.sqe u addr length).Starts ⟨q.resource, u, none⟩ := by
  cases q <;> simp [Sqe.Starts, Request.sqe, Request.opcode, Request.resource, Opcode.control,
    Sqe.multishot, acceptMultishot, recvMultishot]

inductive Started (r : Ring) (multishot : Bool) (waker : ℕ) : Option ℕ × Ring → Prop where
  | rejected {r' : Ring} : r'.Routed →
      r'.table = r.table ∨ r'.table = { r.table with allocated := r.allocated + 1 } →
      Started r multishot waker (none, r')
  | queued {r' : Ring} {key : ℕ} {op : OpState} : r'.Routed → Move r.table .quiet r'.table →
      op.multishot.isSome = multishot → op.waker = some waker → op.Fresh →
      r'.table.op = update r.table.op r.nextUserData (some op) →
      r'.table.index = update r.table.index r.nextUserData (some key) →
      r'.table.ended = r.table.ended → (∀ sqe ∈ r.io.queued, sqe ∈ r'.io.queued) →
      (∀ sqe ∈ r.io.queued, sqe.userData ≠ r.nextUserData) →
      Started r multishot waker (some key, r')

theorem allocated_startOp (r : Ring) (key : ℕ) (q : Request) (waker : ℕ) :
    (startOp r key q waker).2.allocated = r.allocated + 1 := by
  unfold startOp
  rcases hnext : Uring.nextUserData r with ⟨result, r₁⟩
  have hr₁ : r₁.allocated = r.allocated + 1 := by
    rw [← allocated_nextUserData r, hnext]
  cases result with
  | error => exact hr₁
  | ok u =>
    dsimp only
    cases q.resource.addrLen with
    | error => exact hr₁
    | ok addr =>
      dsimp only
      split
      · exact hr₁
      · rename_i r₂ hqueue
        rw [queueSqeLocked_eq_ok hqueue]
        exact hr₁

/-- The entry of an operation that is removed again leaves no trace in the tables. -/
theorem Routed.insert_remove (h : r.Routed) {key : ℕ} (hkey : r.ops.Vacant key) {op : OpState}
    (hop : r.opsByUserData op.userData = none) :
    Slab.Indexes (fun op => op.userData) ((r.ops.insert key op).remove key) r.opsByUserData ∧
      ((r.ops.insert key op).remove key).lookup r.opsByUserData =
        r.ops.lookup r.opsByUserData ∧
      update (update r.opsByUserData op.userData (some key)) op.userData none =
        r.opsByUserData := by
  have hindex : update (update r.opsByUserData op.userData (some key))
      op.userData none = r.opsByUserData := by
    rw [Function.update_idem]
    exact Function.update_eq_self_iff.mpr hop.symm
  obtain ⟨hinsert, hlookup⟩ := h.ops.insert hkey hop
  obtain ⟨hremove, hlookup'⟩ := hinsert.remove (show (r.ops.insert key op).get key = some op by
    simp [Slab.get_insert hkey])
  rw [hindex] at hremove hlookup'
  refine ⟨hremove, ?_, hindex⟩
  rw [hlookup', hlookup, Function.update_idem]
  exact Function.update_eq_self_iff.mpr (h.ops.lookup_eq_none.mpr hop).symm

/-- The start fails after a `user_data` was allocated and the entry was made. -/
theorem Routed.rejected (h : r.Routed) {key waker : ℕ} (hkey : r.ops.Vacant key) {op : OpState}
    (huser : op.userData = r.allocated + 1) (multishot : Bool) :
    Started r multishot waker (none, { r with
      nextUserData := max ((r.allocated + 1 + 1) % 2 ^ 64) 1
      allocated := r.allocated + 1
      ops := (r.ops.insert key op).remove key
      opsByUserData := update
        (update r.opsByUserData (r.allocated + 1) (some key)) (r.allocated + 1) none }) := by
  have hfresh := h.valid.ne_of_lt (Nat.lt_succ_self r.allocated)
  have hnone : r.opsByUserData op.userData = none := by
    rw [huser]
    exact (h.valid.index _).mpr (h.valid.fresh hfresh).1
  obtain ⟨hremove, hlookup, hindex⟩ := h.insert_remove hkey hnone
  have htable : table { r with
      nextUserData := max ((r.allocated + 1 + 1) % 2 ^ 64) 1
      allocated := r.allocated + 1
      ops := (r.ops.insert key op).remove key } = { r.table with allocated := r.allocated + 1 } := by
    simp only [table, hlookup]
  rw [huser] at hindex
  rw [hindex]
  exact .rejected (h.of_move (htable ▸ Move.alloc) hremove h.orphaned counter_succ) (.inr htable)

/-- The entry is made and the submission queued. -/
theorem Routed.queued (h : r.Routed) {key waker : ℕ} (hkey : r.ops.Vacant key) (op : OpState)
    {sqe : Sqe} (hb : r.allocated + 1 < 2 ^ 64) (huser : op.userData = r.allocated + 1)
    (hstarts : sqe.Starts op.toOrphanedOp) (hfresh : op.Fresh) (hwaker : op.waker = some waker) :
    Started r op.multishot.isSome waker (some key, { r with
      nextUserData := max ((r.allocated + 1 + 1) % 2 ^ 64) 1
      allocated := r.allocated + 1
      ops := r.ops.insert key op
      opsByUserData := update r.opsByUserData (r.allocated + 1) (some key)
      io := r.io.queue sqe
      sqPending := r.sqPending + 1 }) := by
  have hnew := h.valid.ne_of_lt (Nat.lt_succ_self r.allocated)
  have hnone : r.opsByUserData op.userData = none := by
    rw [huser]
    exact (h.valid.index _).mpr (h.valid.fresh hnew).1
  obtain ⟨hinsert, hlookup⟩ := h.ops.insert hkey hnone
  rw [huser] at hinsert hlookup
  have hsqe : sqe.userData = r.allocated + 1 := hstarts.1.trans huser
  have hmove : Move r.table .quiet (table { r with
      nextUserData := max ((r.allocated + 1 + 1) % 2 ^ 64) 1
      allocated := r.allocated + 1
      ops := r.ops.insert key op
      opsByUserData := update r.opsByUserData (r.allocated + 1) (some key)
      io := r.io.queue sqe
      sqPending := r.sqPending + 1 }) := by
    have hstart : Move r.table .quiet { (r.table.queue sqe).setOp sqe.userData op with
        index := update r.table.index sqe.userData (some key) } :=
      .start hsqe hstarts hfresh
    rw [hsqe] at hstart
    simp only [table, hlookup]
    exact hstart
  refine .queued (h.of_move hmove hinsert h.orphaned counter_succ) hmove rfl hwaker hfresh ?_ ?_
    rfl (fun sqe hsqe => List.mem_append_left _ hsqe) ?_ <;> rw [h.counter hb]
  · exact hlookup
  · rfl
  · exact hnew

theorem Routed.startOp (h : r.Routed) {key : ℕ} (hkey : r.ops.Vacant key) (q : Request)
    (waker : ℕ) (hb : (Uring.startOp r key q waker).2.allocated < 2 ^ 64) :
    Started r false waker
      ((Uring.startOp r key q waker).1.toOption, (Uring.startOp r key q waker).2) := by
  rw [allocated_startOp] at hb
  unfold Uring.startOp
  simp only [h.nextUserData hb]
  cases q.resource.addrLen with
  | error error => exact h.rejected hkey rfl _
  | ok addr =>
    simp only
    split
    · exact h.rejected hkey rfl _
    · rename_i hqueue
      rw [queueSqeLocked_eq_ok hqueue]
      refine h.queued hkey ⟨⟨q.resource, r.allocated + 1, none⟩, none, some waker⟩ hb rfl
        (Request.sqe_starts q _ addr.1 addr.2) ⟨rfl, fun m hm => ?_⟩ rfl
      cases hm

theorem Routed.startMultishotAccept (h : r.Routed) {key : ℕ} (hkey : r.ops.Vacant key) (fd : ℤ)
    (waker : ℕ) (hb : (Uring.startMultishotAccept r key fd waker).2.allocated < 2 ^ 64) :
    Started r true waker ((Uring.startMultishotAccept r key fd waker).1.toOption,
      (Uring.startMultishotAccept r key fd waker).2) := by
  unfold Uring.startMultishotAccept at hb ⊢
  split_ifs at hb ⊢ with hspace
  · exact .rejected h (.inl rfl)
  · have hb' : r.allocated + 1 < 2 ^ 64 := by
      rcases hnext : Uring.nextUserData r with ⟨result, r₁⟩
      have hr₁ : r₁.allocated = r.allocated + 1 := by
        rw [← allocated_nextUserData r, hnext]
      rw [hnext] at hb
      cases result with
      | error => exact hr₁ ▸ hb
      | ok u =>
        simp only at hb
        split at hb
        · exact hr₁ ▸ hb
        · rename_i hqueue
          rw [queueSqeLocked_eq_ok hqueue] at hb
          exact hr₁ ▸ hb
    simp only [h.nextUserData hb']
    split
    · exact h.rejected hkey rfl _
    · rename_i hqueue
      rw [queueSqeLocked_eq_ok hqueue]
      refine h.queued hkey ⟨⟨.multishotAccept, r.allocated + 1,
        some ⟨.accept, [], false, true, none⟩⟩, none, some waker⟩ hb' rfl ?_ ⟨rfl, fun m hm => ?_⟩ rfl
      · simp [Sqe.Starts, Opcode.control, Sqe.multishot]
      · cases hm
        simp

/-- The calls of `next_user_data` when a multishot receive passes the checks of its arguments. -/
theorem allocated_startMultishotRecv {key bufferSize bufferCount waker : ℕ} {fd : ℤ} (h : r.Routed)
    (hsize : ¬ 2 ^ 32 ≤ bufferSize) (hcount : ¬ 2 ^ 16 ≤ bufferCount)
    (hpositive : ¬ (bufferSize = 0 ∨ bufferCount = 0)) (hspace : ¬ sqSpaceLocked r < 2)
    (hb : (Uring.startMultishotRecv r key fd bufferSize bufferCount waker).2.allocated < 2 ^ 64) :
    r.allocated + 1 + 1 < 2 ^ 64 := by
  unfold Uring.startMultishotRecv at hb
  rw [if_neg hsize, if_neg hcount, if_neg hpositive, if_neg hspace] at hb
  rcases hnext : Uring.nextUserData r with ⟨result, r₁⟩
  have hr₁ : r₁.allocated = r.allocated + 1 := by
    rw [← allocated_nextUserData r, hnext]
  rw [hnext] at hb
  cases result with
  | error error =>
    have hfree := h.nextUserData (hr₁ ▸ hb)
    rw [hnext] at hfree
    cases hfree
  | ok u =>
    simp only at hb
    split at hb
    · rename_i hsecond
      have hr₂ := congrArg (fun p => p.2.allocated) hsecond
      simp only [allocated_nextUserData] at hr₂ hb
      omega
    · rename_i hsecond
      have hr₂ := congrArg (fun p => p.2.allocated) hsecond
      simp only [allocated_nextUserData] at hr₂
      split at hb
      · simp only at hb
        omega
      · rename_i hqueue
        rw [queueSqeLocked_eq_ok hqueue] at hb
        split at hb
        · simp only [dropOp] at hb
          omega
        · rename_i hqueue'
          rw [queueSqeLocked_eq_ok hqueue'] at hb
          simp only at hb
          omega

def recvOp (r : Ring) (bufferSize bufferCount waker : ℕ) : OpState :=
  ⟨⟨.multishotRecv (bufferSize * bufferCount), r.allocated + 1,
    some ⟨.recv bufferSize r.nextBufferGroup, [], false, false, none⟩⟩, none, some waker⟩

def recvControl (r : Ring) (bufferSize bufferCount : ℕ) : Sqe :=
  { opcode := .provideBuffers, fd := bufferCount, addr := .resource 0, len := bufferSize,
    userData := r.allocated + 1 + 1, bufIndex := r.nextBufferGroup, owner := r.allocated + 1 }

def recvSqe (r : Ring) (fd : ℤ) (bufferSize : ℕ) : Sqe :=
  { opcode := .recv, flags := ioDrain + bufferSelect, ioprio := recvMultishot, fd := fd,
    len := bufferSize, userData := r.allocated + 1, bufIndex := r.nextBufferGroup,
    owner := r.allocated + 1 }

/-- A multishot receive whose arguments are accepted is started: its submissions find room. -/
theorem Routed.startMultishotRecv_eq (h : r.Routed) {key bufferSize bufferCount : ℕ} (fd : ℤ)
    (waker : ℕ) (hsize : ¬ 2 ^ 32 ≤ bufferSize) (hcount : ¬ 2 ^ 16 ≤ bufferCount)
    (hpositive : ¬ (bufferSize = 0 ∨ bufferCount = 0)) (hspace : ¬ sqSpaceLocked r < 2)
    (hb : r.allocated + 1 + 1 < 2 ^ 64) :
    Uring.startMultishotRecv r key fd bufferSize bufferCount waker = (.ok key, { r with
      nextUserData := max ((r.allocated + 1 + 1 + 1) % 2 ^ 64) 1
      nextBufferGroup := max ((r.nextBufferGroup + 1) % 2 ^ 16) 1
      allocated := r.allocated + 1 + 1
      ops := r.ops.insert key (recvOp r bufferSize bufferCount waker)
      opsByUserData := update r.opsByUserData (r.allocated + 1) (some key)
      provideTargets := update r.provideTargets (r.allocated + 1 + 1)
        (some (r.allocated + 1))
      io := (r.io.queue (recvControl r bufferSize bufferCount)).queue (recvSqe r fd bufferSize)
      sqPending := r.sqPending + 1 + 1 }) := by
  have hfresh := h.valid.ne_of_lt (show r.allocated < r.allocated + 1 + 1 by omega)
  obtain ⟨hop, horphan, -, hprovide, hcleanup, -⟩ := h.valid.fresh hfresh
  have hindex := (h.valid.index _).mpr hop
  have horphaned := h.orphaned.lookup_eq_none.mp horphan
  simp only [table] at hindex hprovide hcleanup
  unfold sqSpaceLocked at hspace
  unfold Uring.startMultishotRecv
  rw [if_neg hsize, if_neg hcount, if_neg hpositive, if_neg (by
    unfold sqSpaceLocked
    omega), h.nextUserData (by omega)]
  simp only [Uring.nextUserData, counter_succ hb]
  rw [if_pos (by simp [hindex, horphaned, hprovide, hcleanup])]
  simp only
  rw [queueSqeLocked_of_space (by simp only; omega)]
  simp only
  rw [queueSqeLocked_of_space (by simp only [Traffic.queue, List.length_append]; simp; omega)]
  rfl

theorem Routed.startMultishotRecv (h : r.Routed) {key : ℕ} (hkey : r.ops.Vacant key) (fd : ℤ)
    (bufferSize bufferCount waker : ℕ)
    (hb : (Uring.startMultishotRecv r key fd bufferSize bufferCount waker).2.allocated < 2 ^ 64) :
    Started r true waker
      ((Uring.startMultishotRecv r key fd bufferSize bufferCount waker).1.toOption,
        (Uring.startMultishotRecv r key fd bufferSize bufferCount waker).2) := by
  by_cases hchecks : 2 ^ 32 ≤ bufferSize ∨ 2 ^ 16 ≤ bufferCount ∨
      (bufferSize = 0 ∨ bufferCount = 0) ∨ sqSpaceLocked r < 2
  · unfold Uring.startMultishotRecv
    split_ifs with h₁ h₂ h₃ h₄
    · exact .rejected h (.inl rfl)
    · exact .rejected h (.inl rfl)
    · exact .rejected h (.inl rfl)
    · exact .rejected h (.inl rfl)
    · exact absurd hchecks (by tauto)
  · push Not at hchecks
    obtain ⟨hsize, hcount, hpositive, hspace⟩ := hchecks
    have hb₂ := allocated_startMultishotRecv h hsize.not_ge hcount.not_ge
      (not_or.mpr hpositive) hspace.not_gt hb
    have hb₁ : r.allocated + 1 < 2 ^ 64 := by omega
    rw [h.startMultishotRecv_eq fd waker hsize.not_ge hcount.not_ge (not_or.mpr hpositive)
      hspace.not_gt hb₂]
    have hfresh := h.valid.ne_of_lt (Nat.lt_succ_self r.allocated)
    have hnone : r.opsByUserData (r.allocated + 1) = none :=
      (h.valid.index _).mpr (h.valid.fresh hfresh).1
    let op := recvOp r bufferSize bufferCount waker
    let control := recvControl r bufferSize bufferCount
    let sqe := recvSqe r fd bufferSize
    obtain ⟨hinsert, hlookup⟩ : Slab.Indexes (fun op => op.userData) (r.ops.insert key op)
          (update r.opsByUserData (r.allocated + 1) (some key)) ∧
        (r.ops.insert key op).lookup
            (update r.opsByUserData (r.allocated + 1) (some key)) =
          update (r.ops.lookup r.opsByUserData) (r.allocated + 1) (some op) :=
      h.ops.insert hkey hnone
    have hop : op.Fresh := by
      refine ⟨rfl, fun m hm => ?_⟩
      cases hm
      simp
    have hstart : Move r.table .quiet { ((r.table.queue control).queue sqe).setOp sqe.userData op with
        index := update r.table.index sqe.userData (some key)
        provide := update r.table.provide control.userData (some sqe.userData) } := by
      refine .startRecv rfl ?_ hop rfl rfl rfl rfl
      simp [Sqe.Starts, Opcode.control, Sqe.multishot, sqe, op, recvSqe, recvOp]
    have hmove : Move r.table .quiet (table { r with
        nextUserData := max ((r.allocated + 1 + 1 + 1) % 2 ^ 64) 1
        nextBufferGroup := max ((r.nextBufferGroup + 1) % 2 ^ 16) 1
        allocated := r.allocated + 1 + 1
        ops := r.ops.insert key op
        opsByUserData := update r.opsByUserData (r.allocated + 1) (some key)
        provideTargets := update r.provideTargets (r.allocated + 1 + 1)
          (some (r.allocated + 1))
        io := (r.io.queue control).queue sqe
        sqPending := r.sqPending + 1 + 1 }) := by
      simp only [table, hlookup]
      exact hstart
    refine .queued (h.of_move hmove hinsert h.orphaned counter_succ) hmove rfl rfl hop ?_ ?_
      rfl (fun sqe hsqe => List.mem_append_left _ (List.mem_append_left _ hsqe)) ?_ <;>
      rw [h.counter hb₁]
    · exact hlookup
    · rfl
    · exact hfresh

/-- The maps are the inverses of the slabs. -/
structure Indexed (r : Ring) : Prop where
  ops : Slab.Indexes (fun op => op.userData) r.ops r.opsByUserData
  orphaned : Slab.Indexes OrphanedOp.userData r.orphaned r.orphanedByUserData

theorem Routed.indexed (h : r.Routed) : r.Indexed := ⟨h.ops, h.orphaned⟩

theorem Indexed.dropOrphan (h : r.Indexed) {key : ℕ} {op : OrphanedOp}
    (hkey : r.orphaned.get key = some op) :
    Indexed (Ring.dropOrphan { r with
        orphanedByUserData := update r.orphanedByUserData op.userData none } key) ∧
      (Ring.dropOrphan { r with
        orphanedByUserData := update r.orphanedByUserData op.userData none } key).table =
        r.table.releaseOrphan op.userData op := by
  obtain ⟨hremove, hlookup⟩ := h.orphaned.remove hkey
  refine ⟨⟨h.ops, hremove⟩, ?_⟩
  simp only [table, Ring.dropOrphan, hkey, hlookup, Table.releaseOrphan, Option.toList_some]

theorem Indexed.dropOp (h : r.Indexed) {key : ℕ} {op : OpState} (hkey : r.ops.get key = some op) :
    Indexed { r.dropOp key with
        opsByUserData := update r.opsByUserData op.userData none } ∧
      table { r.dropOp key with
        opsByUserData := update r.opsByUserData op.userData none } =
        r.table.releaseOp op.userData op := by
  obtain ⟨hremove, hlookup⟩ := h.ops.remove hkey
  refine ⟨⟨hremove, h.orphaned⟩, ?_⟩
  simp only [table, Ring.dropOp, hkey, hlookup, Table.releaseOp, Option.map_some,
    Option.toList_some]

theorem Indexed.modifyOp (h : r.Indexed) {key : ℕ} {op : OpState} (hkey : r.ops.get key = some op)
    {f : OpState → OpState} (hf : (f op).userData = op.userData) :
    Indexed { r with ops := r.ops.modify key f } ∧
      table { r with ops := r.ops.modify key f } = r.table.setOp op.userData (f op) := by
  obtain ⟨hmodify, hlookup⟩ := h.ops.modify hkey hf
  exact ⟨⟨hmodify, h.orphaned⟩, by simp only [table, hlookup, Table.setOp]⟩

theorem Indexed.setOrphan (h : r.Indexed) {key : ℕ} {op op' : OrphanedOp}
    (hkey : r.orphaned.get key = some op) (hop : op'.userData = op.userData) :
    Indexed { r with orphaned := r.orphaned.modify key fun _ => op' } ∧
      table { r with orphaned := r.orphaned.modify key fun _ => op' } =
        r.table.setOrphan op.userData op' := by
  obtain ⟨hmodify, hlookup⟩ := h.orphaned.modify (f := fun _ => op') hkey hop
  exact ⟨⟨h.ops, hmodify⟩, by simp only [table, hlookup, Table.setOrphan]⟩

theorem Routed.takeResult (h : r.Routed) {key : ℕ} {op : OpState} (hkey : r.ops.get key = some op)
    (hop : op.multishot = none) :
    (op.result = none ∧ Uring.takeResult r key = (none, r)) ∨
    ∃ result r', op.result = some result ∧ Uring.takeResult r key = (some (result, op.resource), r') ∧
      (r'.transfer op.userData (acceptedFd (result, op.resource))).Routed ∧
      Move r.table .quiet (r'.transfer op.userData (acceptedFd (result, op.resource))).table ∧
      (r'.transfer op.userData (acceptedFd (result, op.resource))).table =
        { r.table.releaseOp op.userData op with
          transferred := r.transferred ++
            (acceptedFd (result, op.resource)).map (op.userData, ·) } := by
  cases hresult : op.result with
  | none =>
    refine .inl ⟨rfl, ?_⟩
    simp only [Uring.takeResult, hkey, hresult]
  | some result =>
    obtain ⟨hremove, htable⟩ := h.indexed.dropOp hkey
    have hmove : Move r.table .quiet { r.table.releaseOp op.userData op with
        transferred := r.table.transferred ++
          (acceptedFd (result, op.resource)).map (op.userData, ·) } :=
      .take (h.op_of_get hkey).2 hop hresult
    have htable' : (transfer { r.dropOp key with
        opsByUserData := update r.opsByUserData op.userData none } op.userData
        (acceptedFd (result, op.resource))).table = { r.table.releaseOp op.userData op with
          transferred := r.transferred ++
            (acceptedFd (result, op.resource)).map (op.userData, ·) } := by
      rw [← htable]
      rfl
    refine .inr ⟨result, _, rfl, by simp only [Uring.takeResult, hkey, hresult], ?_, ?_, htable'⟩
    · exact h.of_move (htable' ▸ hmove) hremove.ops h.orphaned h.counter
    · exact htable' ▸ hmove

theorem Routed.takeMultishotEvent (h : r.Routed) {key : ℕ} {op : OpState} {m : MultishotState}
    (hkey : r.ops.get key = some op) (hm : op.multishot = some m) :
    (m.events = [] ∧ Uring.takeMultishotEvent r key = (none, r)) ∨
    ∃ event events r', m.events = event :: events ∧
      Uring.takeMultishotEvent r key = (some event, r') ∧
      (r'.transfer op.userData event.fds).Routed ∧
      Move r.table .quiet (r'.transfer op.userData event.fds).table ∧
      (r'.transfer op.userData event.fds).table =
        { r.table.setOp op.userData { op with multishot := some { m with events := events } } with
          transferred := r.transferred ++ event.fds.map (op.userData, ·) } := by
  have hbind : ((r.ops.get key).bind fun op => op.multishot) = some m := by simp [hkey, hm]
  cases hevents : m.events with
  | nil =>
    refine .inl ⟨rfl, ?_⟩
    simp only [Uring.takeMultishotEvent, hbind, hevents]
  | cons event events =>
    obtain ⟨hmodify, htable⟩ := h.indexed.modifyOp hkey
      (f := fun op => { op with multishot := some { m with events := events } }) rfl
    have hmove : Move r.table .quiet
        { r.table.setOp op.userData { op with multishot := some { m with events := events } } with
          transferred := r.table.transferred ++ event.fds.map (op.userData, ·) } :=
      .pop (h.op_of_get hkey).2 hm hevents
    have htable' : (transfer { r with
        ops := r.ops.modify key fun op =>
          { op with multishot := some { m with events := events } } } op.userData event.fds).table =
        { r.table.setOp op.userData { op with multishot := some { m with events := events } } with
          transferred := r.transferred ++ event.fds.map (op.userData, ·) } := by
      rw [← htable]
      rfl
    refine .inr ⟨event, events, _, rfl, by simp only [Uring.takeMultishotEvent, hbind, hevents],
      ?_, ?_, htable'⟩
    · exact h.of_move (htable' ▸ hmove) hmodify.ops h.orphaned h.counter
    · exact htable' ▸ hmove

theorem Routed.removeMultishot (h : r.Routed) {key : ℕ} {op : OpState}
    (hkey : r.ops.get key = some op) (hop : op.multishot.isSome = true)
    (hended : op.userData ∈ r.ended) :
    (Uring.removeMultishot r key).Routed ∧
      Move r.table .quiet (Uring.removeMultishot r key).table ∧
      (Uring.removeMultishot r key).table = r.table.releaseOp op.userData op := by
  obtain ⟨hremove, htable⟩ := h.indexed.dropOp hkey
  have hmove : Move r.table .quiet (r.table.releaseOp op.userData op) :=
    .finish (h.op_of_get hkey).2 hop hended
  simp only [Uring.removeMultishot, hkey]
  exact ⟨h.of_move (htable ▸ hmove) hremove.ops h.orphaned h.counter, htable ▸ hmove, htable⟩

theorem Routed.storeWaker (h : r.Routed) {key : ℕ} {op : OpState} (hkey : r.ops.get key = some op)
    (waker : ℕ) :
    (Uring.storeWaker r key waker).Routed ∧
      Move r.table .quiet (Uring.storeWaker r key waker).table ∧
      (Uring.storeWaker r key waker).table =
        r.table.setOp op.userData { op with waker := some waker } := by
  obtain ⟨hmodify, htable⟩ := h.indexed.modifyOp hkey (f := fun op => { op with waker := some waker }) rfl
  have hmove : Move r.table .quiet (r.table.setOp op.userData { op with waker := some waker }) :=
    .register (h.op_of_get hkey).2
  exact ⟨h.of_move (htable ▸ hmove) hmodify.ops h.orphaned h.counter, htable ▸ hmove, htable⟩

/-- What `orphan` does to the tables. -/
structure Orphaned (r : Ring) (u : ℕ) (target : Option ℕ) (r' : Ring) : Prop where
  routed : r'.Routed
  move : Move r.table (.drop u) r'.table
  target : ∀ t, target = some t → t = u
  op : r'.table.op = update r.table.op u none
  index : r'.table.index = update r.table.index u none
  ended : r'.ended = r.ended
  io : r'.io = r.io
  allocated : r'.allocated = r.allocated

theorem Routed.orphan (h : r.Routed) {key orphanKey : ℕ} {op : OpState}
    (hkey : r.ops.get key = some op) (hvacant : r.orphaned.Vacant orphanKey) :
    Orphaned r op.userData (Uring.orphan r key orphanKey).1 (Uring.orphan r key orphanKey).2 := by
  have hlookup := (h.op_of_get hkey).2
  cases hcomplete : op.complete? with
  | true =>
    have heq : Uring.orphan r key orphanKey = (none,
        { (r.dropOp key).close op.userData op.unclaimedFds with
          opsByUserData := update r.opsByUserData op.userData none
          dropped := r.dropped ++ [op.userData] }) := by
      simp only [Uring.orphan, hkey, hcomplete, ↓reduceIte]
    obtain ⟨hremove, htable⟩ := h.indexed.dropOp hkey
    have hmove : Move r.table (.drop op.userData) { r.table.releaseOp op.userData op with
        closed := r.table.closed ++ op.unclaimedFds.map (op.userData, ·)
        dropped := r.table.dropped ++ [op.userData] } := .dropComplete hlookup hcomplete
    rw [← htable] at hmove
    rw [heq]
    exact ⟨h.of_move hmove hremove.ops h.orphaned h.counter, hmove, nofun, congrArg Table.op htable,
      rfl, rfl, rfl, rfl⟩
  | false =>
    have heq : Uring.orphan r key orphanKey = (some op.userData, { r with
        ops := r.ops.remove key
        opsByUserData := update r.opsByUserData op.userData none
        orphaned := r.orphaned.insert orphanKey op.toOrphanedOp
        orphanedByUserData := update r.orphanedByUserData op.userData (some orphanKey)
        dropped := r.dropped ++ [op.userData] }) := by
      simp only [Uring.orphan, hkey, hcomplete, Bool.false_eq_true, ↓reduceIte]
    obtain ⟨hremove, hlookup'⟩ := h.ops.remove hkey
    have hnone : r.orphanedByUserData op.userData = none := by
      rw [← h.orphaned.lookup_eq_none]
      exact (h.valid.apart op.userData).resolve_left (by simp [hlookup])
    obtain ⟨hinsert, hinserted⟩ : Slab.Indexes OrphanedOp.userData
          (r.orphaned.insert orphanKey op.toOrphanedOp)
          (update r.orphanedByUserData op.userData (some orphanKey)) ∧
        (r.orphaned.insert orphanKey op.toOrphanedOp).lookup
            (update r.orphanedByUserData op.userData (some orphanKey)) =
          update (r.orphaned.lookup r.orphanedByUserData) op.userData
            (some op.toOrphanedOp) := h.orphaned.insert hvacant hnone
    have hmove : Move r.table (.drop op.userData) (table { r with
        ops := r.ops.remove key
        opsByUserData := update r.opsByUserData op.userData none
        orphaned := r.orphaned.insert orphanKey op.toOrphanedOp
        orphanedByUserData := update r.orphanedByUserData op.userData (some orphanKey)
        dropped := r.dropped ++ [op.userData] }) := by
      simp only [table, hlookup', hinserted]
      exact .dropToOrphan hlookup hcomplete
    rw [heq]
    refine ⟨h.of_move hmove hremove hinsert h.counter, hmove, fun t ht => ?_, hlookup', rfl, rfl,
      rfl, rfl⟩
    exact (Option.some.inj ht).symm

/-- What a section does that changes no operation. -/
structure Kept (r r' : Ring) : Prop where
  routed : r'.Routed
  quiet : Quiet r.table r'.table
  same : SameOps r.table r'.table

/-- A `user_data` is used up, and perhaps a submission is queued that starts no operation. -/
structure Asks (r r' : Ring) : Prop where
  ops : r'.ops = r.ops
  opsByUserData : r'.opsByUserData = r.opsByUserData
  orphaned : r'.orphaned = r.orphaned
  sqEntries : r'.sqEntries = r.sqEntries
  allocated : r'.allocated = r.allocated + 1

namespace Asks

theorem of_next {result : Except IoError ℕ} (h : Uring.nextUserData r = (result, r')) :
    Asks r r' := by
  obtain rfl : r' = (Uring.nextUserData r).2 := by rw [h]
  exact ⟨rfl, rfl, rfl, rfl, rfl⟩

theorem queue {r₁ : Ring} (h : Asks r r₁) {sqe : Sqe} (hqueue : queueSqeLocked r₁ sqe = .ok r') :
    Asks r r' := by
  rw [queueSqeLocked_eq_ok hqueue]
  exact ⟨h.ops, h.opsByUserData, h.orphaned, h.sqEntries, h.allocated⟩

theorem op (h : Asks r r') : r'.table.op = r.table.op := by
  funext u
  simp only [table, h.ops, h.opsByUserData]

theorem queueCancel (r : Ring) (target : ℕ) : Asks r (Uring.queueCancel r target).2 := by
  unfold Uring.queueCancel
  rcases hnext : Uring.nextUserData r with ⟨result, r₁⟩
  have hr₁ := Asks.of_next hnext
  cases result with
  | error => exact hr₁
  | ok u =>
    dsimp only
    split
    · exact hr₁
    · rename_i hqueue
      have hr₂ := hr₁.queue hqueue
      exact ⟨hr₂.ops, hr₂.opsByUserData, hr₂.orphaned, hr₂.sqEntries, hr₂.allocated⟩

theorem queueProvideBufferLocked (r : Ring) (target : ℕ) (refill : Refill) :
    Asks r (Uring.queueProvideBufferLocked r target refill).2 := by
  unfold Uring.queueProvideBufferLocked
  rcases hnext : Uring.nextUserData r with ⟨result, r₁⟩
  have hr₁ := Asks.of_next hnext
  cases result with
  | error => exact hr₁
  | ok u =>
    dsimp only
    split
    · exact hr₁
    · rename_i hqueue
      have hr₂ := hr₁.queue hqueue
      exact ⟨hr₂.ops, hr₂.opsByUserData, hr₂.orphaned, hr₂.sqEntries, hr₂.allocated⟩

theorem queueRemoveBuffersLocked (r : Ring) (target count group : ℕ) :
    Asks r (Uring.queueRemoveBuffersLocked r target count group).2 := by
  unfold Uring.queueRemoveBuffersLocked
  rcases hnext : Uring.nextUserData r with ⟨result, r₁⟩
  have hr₁ := Asks.of_next hnext
  cases result with
  | error => exact hr₁
  | ok u =>
    dsimp only
    split
    · exact hr₁
    · rename_i hqueue
      have hr₂ := hr₁.queue hqueue
      exact ⟨hr₂.ops, hr₂.opsByUserData, hr₂.orphaned, hr₂.sqEntries, hr₂.allocated⟩

end Asks

/-- Only a `user_data` is used up. -/
theorem Routed.alloc (h : r.Routed) : Kept r { r with
    nextUserData := max ((r.allocated + 1 + 1) % 2 ^ 64) 1
    allocated := r.allocated + 1 } := by
  have hmove : Move r.table .quiet { r.table with allocated := r.table.allocated + 1 } := .alloc
  exact ⟨h.of_move hmove h.ops h.orphaned counter_succ, .single hmove,
    ⟨rfl, fun _ => rfl, fun _ hsqe => hsqe, fun _ hu => hu⟩⟩

theorem Routed.queueCancel (h : r.Routed) {target : ℕ} (hop : r.table.op target = none)
    (hstarted : ∃ sqe ∈ r.io.queued, sqe.userData = target ∧ sqe.opcode.control = false)
    (hb : (Uring.queueCancel r target).2.allocated < 2 ^ 64) :
    Kept r (Uring.queueCancel r target).2 := by
  rw [(Asks.queueCancel r target).allocated] at hb
  unfold Uring.queueCancel
  simp only [h.nextUserData hb]
  split
  · exact h.alloc
  · rename_i hqueue
    rw [queueSqeLocked_eq_ok hqueue]
    let sqe : Sqe :=
      { opcode := .asyncCancel, fd := -1, addr := .userData target, userData := r.allocated + 1,
        owner := target }
    have hmove : Move r.table .quiet { r.table.queue sqe with
        cancel := update r.table.cancel sqe.userData (some sqe.owner) } :=
      .cancel rfl rfl hop hstarted
    exact ⟨h.of_move hmove h.ops h.orphaned counter_succ, .single hmove,
      ⟨rfl, fun _ => rfl, fun _ hsqe => List.mem_append_left _ hsqe, fun _ hu => hu⟩⟩

theorem Routed.uncancel (h : r.Routed) (c : ℕ) :
    Kept r { r with cancelTargets := update r.cancelTargets c none } := by
  have hmove : Move r.table .quiet { r.table with
      cancel := update r.table.cancel c none } := .uncancel
  exact ⟨h.of_move hmove h.ops h.orphaned h.counter, .single hmove,
    ⟨rfl, fun _ => rfl, fun _ hsqe => hsqe, fun _ hu => hu⟩⟩

theorem Routed.consume (h : r.Routed) (n sqPending : ℕ) :
    Kept r { r with io := r.io.consume n, sqPending := sqPending } := by
  have hmove : Move r.table .quiet { r.table with io := r.table.io.consume n } := .consume
  exact ⟨h.of_move hmove h.ops h.orphaned h.counter, .single hmove,
    ⟨rfl, fun _ => rfl, fun _ hsqe => hsqe, fun _ hu => hu⟩⟩

theorem Routed.post (h : r.Routed) {i : ℕ} {cqe : Cqe} (hi : r.io.inFlight[i]? = some cqe.sqe) :
    Kept r { r with io := r.io.post Cqe.last i cqe } := by
  have hmove : Move r.table .quiet { r.table with io := r.table.io.post Cqe.last i cqe } :=
    .post hi
  exact ⟨h.of_move hmove h.ops h.orphaned h.counter, .single hmove,
    ⟨rfl, fun _ => rfl, fun _ hsqe => hsqe, fun _ hu => hu⟩⟩

/-- The kernel takes some of the submissions, perhaps none. -/
theorem exists_submitInner_eq (r : Ring) (answer : Option ℕ) :
    ∃ n sqPending, (Uring.submitInner r answer).2 =
      { r with io := r.io.consume n, sqPending := sqPending } := by
  have hnone : ∀ sqPending, { r with sqPending := sqPending } =
      { r with io := r.io.consume 0, sqPending := sqPending } := by
    intro sqPending
    rw [r.io.consume_zero]
  unfold Uring.submitInner
  split
  · exact ⟨0, r.sqPending, hnone r.sqPending⟩
  · cases answer with
    | none => exact ⟨0, r.sqPending, hnone r.sqPending⟩
    | some n =>
      dsimp only
      split
      · exact ⟨0, 0, hnone 0⟩
      · exact ⟨_, _, rfl⟩

theorem Routed.submitInner (h : r.Routed) (answer : Option ℕ) :
    Kept r (Uring.submitInner r answer).2 := by
  obtain ⟨n, sqPending, heq⟩ := exists_submitInner_eq r answer
  rw [heq]
  exact h.consume n sqPending

theorem Routed.queueProvideBufferLocked (h : r.Routed) {target : ℕ} {op : OpState}
    (hop : r.table.op target = some op) (hreceives : op.toOrphanedOp.receives = true)
    (refill : Refill)
    (hb : (Uring.queueProvideBufferLocked r target refill).2.allocated < 2 ^ 64) :
    Kept r (Uring.queueProvideBufferLocked r target refill).2 := by
  rw [(Asks.queueProvideBufferLocked r target refill).allocated] at hb
  unfold Uring.queueProvideBufferLocked
  simp only [h.nextUserData hb]
  split
  · exact h.alloc
  · rename_i hqueue
    rw [queueSqeLocked_eq_ok hqueue]
    let sqe : Sqe :=
      { opcode := .provideBuffers, fd := 1, off := refill.bufferId, addr := .resource refill.start,
        len := refill.length, userData := r.allocated + 1, bufIndex := refill.bufferGroup,
        owner := target }
    have hmove : Move r.table .quiet { r.table.queue sqe with
        provide := update r.table.provide sqe.userData (some sqe.owner) } :=
      .refill rfl rfl hop hreceives
    exact ⟨h.of_move hmove h.ops h.orphaned counter_succ, .single hmove,
      ⟨rfl, fun _ => rfl, fun _ hsqe => List.mem_append_left _ hsqe, fun _ hu => hu⟩⟩

theorem allocated_queueCleanup (r : Ring) (request : ℕ × ℕ × ℕ) :
    (Uring.queueCleanup r request).2.allocated = r.allocated + 1 := by
  obtain ⟨target, count, group⟩ := request
  have hasks := Asks.queueRemoveBuffersLocked r target count group
  unfold Uring.queueCleanup
  dsimp only
  rcases hqueue : Uring.queueRemoveBuffersLocked r target count group with ⟨result, r₁⟩
  rw [hqueue] at hasks
  cases result <;> exact hasks.allocated

theorem allocated_queueCleanups (r : Ring) (requests : List (ℕ × ℕ × ℕ)) :
    (Uring.queueCleanups r requests).2.allocated = r.allocated + requests.length := by
  induction requests generalizing r with
  | nil => rfl
  | cons request requests ih =>
    have := ih (Uring.queueCleanup r request).2
    rw [allocated_queueCleanup] at this
    rw [List.length_cons]
    exact this.trans (by omega)

/-- The search for an operation by its `user_data` finds its entry. -/
theorem Routed.setCleanup (h : r.Routed) (target c : ℕ) :
    Slab.Indexes (fun op => op.userData)
        ((r.ops.find fun op => op.userData == target).elim r.ops fun key =>
          r.ops.modify key (OpState.setCleanup · c)) r.opsByUserData ∧
      ((r.ops.find fun op => op.userData == target).elim r.ops fun key =>
          r.ops.modify key (OpState.setCleanup · c)).lookup r.opsByUserData =
        ((r.table.op target).elim r.table.op fun op =>
          update r.table.op target (some (op.setCleanup c))) ∧
      Slab.Indexes OrphanedOp.userData
        ((r.orphaned.find fun op => op.userData == target).elim r.orphaned fun key =>
          r.orphaned.modify key (OrphanedOp.setCleanup · c)) r.orphanedByUserData ∧
      ((r.orphaned.find fun op => op.userData == target).elim r.orphaned fun key =>
          r.orphaned.modify key (OrphanedOp.setCleanup · c)).lookup r.orphanedByUserData =
        ((r.table.orphan target).elim r.table.orphan fun op =>
          update r.table.orphan target (some (op.setCleanup c))) := by
  have hops : r.ops.find (fun op => op.userData == target) = r.opsByUserData target :=
    h.ops.find target
  have horphaned : r.orphaned.find (fun op => op.userData == target) =
      r.orphanedByUserData target := h.orphaned.find target
  rw [hops, horphaned, ← and_assoc]
  constructor
  · cases hindex : r.opsByUserData target with
    | none =>
      have hnone : r.table.op target = none := h.ops.lookup_eq_none.mpr hindex
      rw [hnone]
      exact ⟨h.ops, rfl⟩
    | some key =>
      obtain ⟨op, hkey, huser, hop⟩ := h.ops.get_of_index hindex
      rw [show r.table.op target = some op from hop]
      have := h.ops.modify (f := (OpState.setCleanup · c)) hkey rfl
      rw [huser] at this
      exact this
  · cases hindex : r.orphanedByUserData target with
    | none =>
      have hnone : r.table.orphan target = none := h.orphaned.lookup_eq_none.mpr hindex
      rw [hnone]
      exact ⟨h.orphaned, rfl⟩
    | some key =>
      obtain ⟨op, hkey, huser, hop⟩ := h.orphaned.get_of_index hindex
      rw [show r.table.orphan target = some op from hop]
      have := h.orphaned.modify (f := (OrphanedOp.setCleanup · c)) hkey rfl
      rw [huser] at this
      exact this

theorem Routed.queueCleanup (h : r.Routed) {op : OrphanedOp} {target count group : ℕ}
    (hheld : r.table.held target = some op)
    (hrequest : cleanupRequest op = some (target, count, group))
    (hb : (Uring.queueCleanup r (target, count, group)).2.allocated < 2 ^ 64) :
    Kept r (Uring.queueCleanup r (target, count, group)).2 ∧
      ∀ u ≠ target, (Uring.queueCleanup r (target, count, group)).2.table.held u =
        r.table.held u := by
  rw [allocated_queueCleanup] at hb
  unfold Uring.queueCleanup Uring.queueRemoveBuffersLocked
  simp only [h.nextUserData hb]
  cases hqueue : queueSqeLocked _ _ with
  | error => exact ⟨h.alloc, fun _ _ => rfl⟩
  | ok r₂ =>
    rw [queueSqeLocked_eq_ok hqueue]
    let sqe : Sqe :=
      { opcode := .removeBuffers, flags := ioDrain, fd := count, userData := r.allocated + 1,
        bufIndex := group, owner := target }
    obtain ⟨hops, hlookup, horphaned, hlookup'⟩ := h.setCleanup target (r.allocated + 1)
    have htable : table { r with
        nextUserData := max ((r.allocated + 1 + 1) % 2 ^ 64) 1
        allocated := r.allocated + 1
        io := r.io.queue sqe
        sqPending := r.sqPending + 1
        provideTargets := update r.provideTargets (r.allocated + 1) (some target)
        cleanupTargets := update r.cleanupTargets (r.allocated + 1) true
        ops := (r.ops.find fun op => op.userData == target).elim r.ops fun key =>
          r.ops.modify key (OpState.setCleanup · (r.allocated + 1))
        orphaned := (r.orphaned.find fun op => op.userData == target).elim r.orphaned fun key =>
          r.orphaned.modify key (OrphanedOp.setCleanup · (r.allocated + 1)) } =
        { r.table.queue sqe with
          provide := update r.table.provide sqe.userData (some sqe.owner)
          cleanup := update r.table.cleanup sqe.userData true
          op := (r.table.op sqe.owner).elim r.table.op fun op =>
            update r.table.op sqe.owner (some (op.setCleanup sqe.userData))
          orphan := (r.table.orphan sqe.owner).elim r.table.orphan fun op =>
            update r.table.orphan sqe.owner (some (op.setCleanup sqe.userData)) } := by
      simp only [table, Table.queue] at hlookup hlookup' ⊢
      rw [hlookup, hlookup']
    have hmove := Move.cleanup (v := r.table) (show sqe.userData = r.allocated + 1 from rfl) rfl
      hheld hrequest
    rw [← htable] at hmove
    refine ⟨⟨h.of_move hmove hops horphaned counter_succ, .single hmove, ⟨rfl, fun u => ?_,
      fun _ hsqe => List.mem_append_left _ hsqe, fun _ hu => hu⟩⟩, fun u hu => ?_⟩
    · rw [htable]
      simp only [sqe]
      cases hop : r.table.op target with
      | none => rfl
      | some op =>
        by_cases hu : u = target
        · subst hu
          simp [hop, OpState.setCleanup, OrphanedOp.setCleanup]
        · simp [hu]
    · rw [htable]
      simp only [Table.held, sqe]
      cases r.table.op target <;> cases r.table.orphan target <;> simp [hu]

/-- What every round of the loop keeps: the requests are of different operations. -/
theorem Routed.queueCleanups_keep {P : Ring → Prop} (h : r.Routed) (hr : P r)
    (hround : ∀ r op request, r.Routed → P r → r.table.held request.1 = some op →
      cleanupRequest op = some request → (Uring.queueCleanup r request).2.allocated < 2 ^ 64 →
      P (Uring.queueCleanup r request).2) {requests : List (ℕ × ℕ × ℕ)}
    (hheld : ∀ request ∈ requests, ∃ op, r.table.held request.1 = some op ∧
      cleanupRequest op = some request)
    (hnodup : (requests.map Prod.fst).Nodup)
    (hb : (Uring.queueCleanups r requests).2.allocated < 2 ^ 64) :
    P (Uring.queueCleanups r requests).2 := by
  induction requests generalizing r with
  | nil => exact hr
  | cons request requests ih =>
    rw [List.map_cons, List.nodup_cons] at hnodup
    obtain ⟨op, hop, hrequest⟩ := hheld request (by simp)
    have hb' : (Uring.queueCleanup r request).2.allocated < 2 ^ 64 := by
      rw [allocated_queueCleanups, List.length_cons] at hb
      rw [allocated_queueCleanup]
      omega
    obtain ⟨hkept, hothers⟩ := h.queueCleanup hop hrequest hb'
    have hrest := ih hkept.routed (hround r op request h hr hop hrequest hb') (fun other hother => ?_)
      hnodup.2 hb
    · exact hrest
    · obtain ⟨op', hop', hrequest'⟩ := hheld other (by simp [hother])
      refine ⟨op', ?_, hrequest'⟩
      rw [hothers other.1 fun heq => hnodup.1 (heq ▸ List.mem_map_of_mem hother)]
      exact hop'

theorem Kept.trans {r'' : Ring} (h : Kept r r') (h' : Kept r' r'') : Kept r r'' :=
  ⟨h'.routed, h.quiet.trans h'.quiet, h.same.trans h'.same⟩

theorem cleanupRequest_target {op : OrphanedOp} {request : ℕ × ℕ × ℕ}
    (h : cleanupRequest op = some request) : request.1 = op.userData := by
  obtain ⟨m, -, hm⟩ := Option.bind_eq_some_iff.mp h
  split_ifs at hm
  split at hm
  · cases hm
  · dsimp only at hm
    split_ifs at hm
    cases hm
    rfl

theorem Routed.held_of_mem (h : r.Routed) {op : OrphanedOp}
    (hop : op ∈ r.ops.values.map OpState.toOrphanedOp ++ r.orphaned.values) :
    r.table.held op.userData = some op := by
  rcases List.mem_append.mp hop with hop | hop
  · obtain ⟨op, hmem, rfl⟩ := List.mem_map.mp hop
    have : r.table.op op.userData = some op := h.ops.mem_values.mp hmem
    simp [Table.held, this]
  · have horphan : r.table.orphan op.userData = some op := h.orphaned.mem_values.mp hop
    have hnone := (h.valid.apart op.userData).resolve_right (by simp [horphan])
    simp [Table.held, hnone, horphan]

/-- No `user_data` occurs twice in the slabs. -/
theorem Routed.nodup_held (h : r.Routed) :
    ((r.ops.values.map OpState.toOrphanedOp ++ r.orphaned.values).map
      OrphanedOp.userData).Nodup := by
  rw [List.map_append, List.nodup_append]
  refine ⟨?_, h.orphaned.nodup_values, ?_⟩
  · rw [List.map_map]
    exact h.ops.nodup_values
  · rintro _ ha _ hb rfl
    simp only [List.mem_map, exists_exists_and_eq_and] at ha hb
    obtain ⟨op, hop, hop'⟩ := ha
    obtain ⟨orphan, horphan, heq⟩ := hb
    have hlookup : r.table.op op.userData = some op := h.ops.mem_values.mp hop
    have hlookup' : r.table.orphan orphan.userData = some orphan := h.orphaned.mem_values.mp horphan
    rw [heq, ← hop'] at hlookup'
    rcases h.valid.apart op.userData with hnone | hnone
    · simp [hnone] at hlookup
    · simp [hnone] at hlookup'

/-- The requests of `queue_pending_cleanups_locked` are of different operations. -/
theorem Routed.queuePendingCleanupsLocked_keep {P : Ring → Prop} (h : r.Routed) (hr : P r)
    (hround : ∀ r op request, r.Routed → P r → r.table.held request.1 = some op →
      cleanupRequest op = some request → (Uring.queueCleanup r request).2.allocated < 2 ^ 64 →
      P (Uring.queueCleanup r request).2)
    (hb : (Uring.queuePendingCleanupsLocked r).2.allocated < 2 ^ 64) :
    P (Uring.queuePendingCleanupsLocked r).2 := by
  refine h.queueCleanups_keep hr hround (fun request hrequest => ?_) ?_ hb
  · obtain ⟨op, hop, heq⟩ := List.mem_filterMap.mp hrequest
    refine ⟨op, ?_, heq⟩
    rw [cleanupRequest_target heq]
    exact h.held_of_mem hop
  · have hnodup := h.nodup_held
    rw [List.Nodup, List.pairwise_map] at hnodup ⊢
    refine List.Pairwise.filterMap _ (fun a b hab x hx y hy => ?_) hnodup
    rw [cleanupRequest_target hx, cleanupRequest_target hy]
    exact hab

theorem Routed.queuePendingCleanupsLocked (h : r.Routed)
    (hb : (Uring.queuePendingCleanupsLocked r).2.allocated < 2 ^ 64) :
    Kept r (Uring.queuePendingCleanupsLocked r).2 := by
  refine h.queuePendingCleanupsLocked_keep (P := Kept r) ⟨h, .refl _, .refl _⟩ ?_ hb
  intro r' op request hrouted hkept hheld hrequest hb'
  exact hkept.trans (hrouted.queueCleanup hheld hrequest hb').1

theorem userData_of_shape {a b : OrphanedOp} (h : a.shape = b.shape) : a.userData = b.userData := by
  simp only [OrphanedOp.shape, Prod.mk.injEq] at h
  exact h.2.1

theorem Indexed.reapCancel (h : r.Indexed) (target : ℕ) (res : ℤ) :
    (Uring.reapCancel r target res).Indexed ∧
      (Uring.reapCancel r target res).table = r.table.reapCancel target res := by
  unfold Uring.reapCancel Table.reapCancel
  split_ifs
  · cases horphan : r.orphanedByUserData target with
    | some key =>
      obtain ⟨op, hkey, rfl, hlookup⟩ := h.orphaned.get_of_index horphan
      rw [show r.table.orphan op.userData = some op from hlookup]
      simp only [hkey, Option.bind_some]
      cases hm : op.multishot with
      | none => simpa using h.dropOrphan hkey
      | some m =>
        simp only [Option.isNone_some, Bool.false_eq_true, ↓reduceIte, Function.update_idem]
        rw [Function.update_eq_self_iff.mpr horphan.symm]
        exact ⟨h, rfl⟩
    | none =>
      rw [show r.table.orphan target = none from h.orphaned.lookup_eq_none.mpr horphan]
      simp only
      cases hop : r.opsByUserData target with
      | none =>
        rw [show r.table.op target = none from h.ops.lookup_eq_none.mpr hop]
        exact ⟨h, rfl⟩
      | some key =>
        obtain ⟨op, hkey, rfl, hlookup⟩ := h.ops.get_of_index hop
        rw [show r.table.op op.userData = some op from hlookup]
        simp only [hkey, Option.bind_some]
        cases hm : op.multishot with
        | none => exact h.dropOp hkey
        | some m =>
          simp only [Option.isNone_some, Bool.false_eq_true, ↓reduceIte, Function.update_idem]
          rw [Function.update_eq_self_iff.mpr hop.symm]
          exact ⟨h, rfl⟩
  · exact ⟨h, rfl⟩

theorem Indexed.reapCleanup (h : r.Indexed) (target : ℕ) (res : ℤ) :
    (Uring.reapCleanup r target res).1.Indexed ∧
      (Uring.reapCleanup r target res).1.table = r.table.reapCleanup target res := by
  unfold Uring.reapCleanup Table.reapCleanup
  cases hop : r.opsByUserData target with
  | some key =>
    obtain ⟨op, hkey, rfl, hlookup⟩ := h.ops.get_of_index hop
    rw [show r.table.op op.userData = some op from hlookup]
    exact h.modifyOp hkey (userData_of_shape (op.cleaned_shape res))
  | none =>
    rw [show r.table.op target = none from h.ops.lookup_eq_none.mpr hop]
    simp only
    cases horphan : r.orphanedByUserData target with
    | none =>
      rw [show r.table.orphan target = none from h.orphaned.lookup_eq_none.mpr horphan]
      exact ⟨h, rfl⟩
    | some key =>
      obtain ⟨op, hkey, rfl, hlookup⟩ := h.orphaned.get_of_index horphan
      rw [show r.table.orphan op.userData = some op from hlookup]
      simp only [hkey]
      cases hcleaned : op.cleaned res with
      | some op' => exact h.setOrphan hkey (userData_of_shape (OrphanedOp.cleaned_shape hcleaned))
      | none => exact h.dropOrphan hkey

theorem Indexed.reapProvide (h : r.Indexed) (target : ℕ) (res : ℤ) :
    (Uring.reapProvide r target res).1.Indexed ∧
      (Uring.reapProvide r target res).1.table = r.table.reapProvide target res := by
  unfold Uring.reapProvide Table.reapProvide
  split_ifs
  · cases hop : r.opsByUserData target with
    | some key =>
      obtain ⟨op, hkey, rfl, hlookup⟩ := h.ops.get_of_index hop
      rw [show r.table.op op.userData = some op from hlookup]
      exact h.modifyOp hkey (userData_of_shape (op.provideFailed_shape res))
    | none =>
      rw [show r.table.op target = none from h.ops.lookup_eq_none.mpr hop]
      exact ⟨h, rfl⟩
  · exact ⟨h, rfl⟩

theorem Indexed.reapOrphan (h : r.Indexed) {key : ℕ} {cqe : Cqe} {op : OrphanedOp}
    (hkey : r.orphaned.get key = some op) (huser : op.userData = cqe.userData)
    (hop : r.table.op cqe.userData = none) (horphan : r.table.orphan cqe.userData = some op) :
    (Uring.reapOrphan r key cqe).Indexed ∧
      (Uring.reapOrphan r key cqe).table = r.table.reapAnswer cqe := by
  unfold Uring.reapOrphan Table.reapAnswer
  have hclose : (r.close cqe.userData (op.unclaimedFds cqe)).Indexed := ⟨h.ops, h.orphaned⟩
  simp only [hop, horphan, hkey]
  cases hanswered : op.answered cqe with
  | some op' =>
    have := hclose.setOrphan hkey (userData_of_shape (OrphanedOp.answered_shape hanswered))
    rw [huser] at this
    exact this
  | none =>
    have := hclose.dropOrphan hkey
    rw [huser] at this
    exact this

theorem counter_reapCancel (r : Ring) (target : ℕ) (res : ℤ) :
    (Uring.reapCancel r target res).nextUserData = r.nextUserData ∧
      (Uring.reapCancel r target res).allocated = r.allocated := by
  unfold Uring.reapCancel
  split_ifs
  · split
    · dsimp only
      split_ifs <;> exact ⟨rfl, rfl⟩
    · split
      · dsimp only
        split_ifs <;> exact ⟨rfl, rfl⟩
      · exact ⟨rfl, rfl⟩
  · exact ⟨rfl, rfl⟩

theorem counter_reapCleanup (r : Ring) (target : ℕ) (res : ℤ) :
    (Uring.reapCleanup r target res).1.nextUserData = r.nextUserData ∧
      (Uring.reapCleanup r target res).1.allocated = r.allocated := by
  unfold Uring.reapCleanup
  split
  · exact ⟨rfl, rfl⟩
  · split
    · split
      · exact ⟨rfl, rfl⟩
      · split <;> exact ⟨rfl, rfl⟩
    · exact ⟨rfl, rfl⟩

theorem counter_reapProvide (r : Ring) (target : ℕ) (res : ℤ) :
    (Uring.reapProvide r target res).1.nextUserData = r.nextUserData ∧
      (Uring.reapProvide r target res).1.allocated = r.allocated := by
  unfold Uring.reapProvide
  split_ifs
  · split <;> exact ⟨rfl, rfl⟩
  · exact ⟨rfl, rfl⟩

theorem counter_reapOrphan (r : Ring) (key : ℕ) (cqe : Cqe) :
    (Uring.reapOrphan r key cqe).nextUserData = r.nextUserData ∧
      (Uring.reapOrphan r key cqe).allocated = r.allocated := by
  unfold Uring.reapOrphan
  split
  · exact ⟨rfl, rfl⟩
  · dsimp only
    split <;> exact ⟨rfl, rfl⟩

/-- What a completion does: its effect on the operations, and then perhaps a buffer that goes
back to the kernel. -/
structure Reaped (r : Ring) (cqe : Cqe) (io : Traffic Sqe Cqe) (r' : Ring) : Prop where
  routed : r'.Routed
  move : Move r.table (.reap cqe) (Table.reapCqe { r.table with io := io } cqe)
  quiet : Quiet (Table.reapCqe { r.table with io := io } cqe) r'.table
  same : SameOps (Table.reapCqe { r.table with io := io } cqe) r'.table
  op : r'.table.op = (Table.reapCqe { r.table with io := io } cqe).op

variable {cqe : Cqe} {io : Traffic Sqe Cqe}

theorem Routed.reaped (h : r.Routed) (hreap : r.io.reap = some (cqe, io)) (hindexed : r'.Indexed)
    (htable : r'.table = Table.reapCqe { r.table with io := io } cqe)
    (hcounter : r'.nextUserData = r.nextUserData ∧ r'.allocated = r.allocated) :
    Reaped r cqe io r' := by
  have hmove : Move r.table (.reap cqe) (Table.reapCqe { r.table with io := io } cqe) := .reap hreap
  refine ⟨h.of_move (htable ▸ hmove) hindexed.ops hindexed.orphaned ?_, hmove, ?_, ?_,
    congrArg Table.op htable⟩
  · rw [hcounter.1, hcounter.2]
    exact h.counter
  · rw [htable]
    exact .refl _
  · rw [htable]
    exact .refl _

/-- Only a multishot receive gives buffers back. -/
theorem receives_of_refill {op : OpState} {refill : Refill}
    (h : op.refill cqe = some refill) : op.toOrphanedOp.receives = true := by
  obtain ⟨m, hm, h⟩ := Option.bind_eq_some_iff.mp h
  cases hkind : m.eventKind with
  | accept => simp [MultishotState.event, hkind] at h
  | recv bufferSize bufferGroup => simp [OrphanedOp.receives, hm, hkind]

/-- The entry of the operation that a completion answers. -/
theorem Routed.answered_table (h : r.Routed) (io : Traffic Sqe Cqe) {key : ℕ} {op : OpState}
    (hcancel : r.cancelTargets cqe.userData = none)
    (hprovide : r.provideTargets cqe.userData = none) (hget : r.ops.get key = some op)
    (huser : op.userData = cqe.userData) (hlookup : r.table.op cqe.userData = some op) :
    Indexed { r with io := io, ops := r.ops.modify key (OpState.answered · cqe) } ∧
      table { r with io := io, ops := r.ops.modify key (OpState.answered · cqe) } =
        Table.reapCqe { r.table with io := io } cqe := by
  have hindexed : Indexed { r with io := io } := ⟨h.ops, h.orphaned⟩
  have hmodify := hindexed.modifyOp (f := (OpState.answered · cqe)) hget
    (userData_of_shape (op.answered_shape cqe))
  refine ⟨hmodify.1, ?_⟩
  rw [hmodify.2, Table.reapCqe]
  simp only [table] at hlookup ⊢
  simp only [hcancel, hprovide, Table.reapAnswer, hlookup, huser]

theorem Routed.reapOp (h : r.Routed) (hreap : r.io.reap = some (cqe, io)) {key : ℕ}
    (hcancel : r.cancelTargets cqe.userData = none)
    (hprovide : r.provideTargets cqe.userData = none)
    (hkey : r.opsByUserData cqe.userData = some key)
    (hb : (Uring.reapOp { r with io := io } key cqe).1.allocated < 2 ^ 64) :
    Reaped r cqe io (Uring.reapOp { r with io := io } key cqe).1 := by
  obtain ⟨op, hget, huser, hlookup⟩ := h.get_of_index hkey
  obtain ⟨hindexed, htable⟩ := h.answered_table io hcancel hprovide hget huser hlookup
  have hreaped := h.reaped hreap hindexed htable ⟨rfl, rfl⟩
  unfold Uring.reapOp at hb ⊢
  simp only [hget] at hb ⊢
  cases hrefill : op.refill cqe with
  | none => exact hreaped
  | some refill =>
    simp only [hrefill] at hb
    have hreceives : (op.answered cqe).toOrphanedOp.receives = true := by
      rw [OrphanedOp.receives_of_shape (op.answered_shape cqe)]
      exact receives_of_refill hrefill
    have hanswered : Table.op (table { r with
        io := io
        ops := r.ops.modify key (OpState.answered · cqe) }) cqe.userData =
        some (op.answered cqe) := by
      simp only [table] at hlookup
      rw [htable, Table.reapCqe]
      simp only [table, hcancel, hprovide, Table.reapAnswer, hlookup]
      exact Function.update_self ..
    have hkept := hreaped.routed.queueProvideBufferLocked hanswered hreceives refill hb
    exact ⟨hkept.routed, hreaped.move, hreaped.quiet.trans hkept.quiet,
      hreaped.same.trans hkept.same,
      (Asks.queueProvideBufferLocked _ cqe.userData refill).op.trans hreaped.op⟩

/-- A completion that does not answer an operation with a future. -/
theorem Routed.reapCqe_other (h : r.Routed) (io : Traffic Sqe Cqe)
    (hother : r.cancelTargets cqe.userData = none →
      r.provideTargets cqe.userData = none → r.opsByUserData cqe.userData = none) :
    (Uring.reapCqe { r with io := io } cqe).1.Indexed ∧
      (Uring.reapCqe { r with io := io } cqe).1.table = Table.reapCqe { r.table with io := io } cqe ∧
      (Uring.reapCqe { r with io := io } cqe).1.nextUserData = r.nextUserData ∧
      (Uring.reapCqe { r with io := io } cqe).1.allocated = r.allocated := by
  unfold Uring.reapCqe
  cases hcancel : r.cancelTargets cqe.userData with
  | some target =>
    have hindexed : Indexed { r with
        io := io
        cancelTargets := update r.cancelTargets cqe.userData none } :=
      ⟨h.ops, h.orphaned⟩
    have hcase := hindexed.reapCancel target cqe.res
    refine ⟨hcase.1, hcase.2.trans ?_, counter_reapCancel _ target cqe.res⟩
    simp only [Table.reapCqe, table, hcancel]
  | none =>
    simp only
    cases hprovide : r.provideTargets cqe.userData with
    | some target =>
      have hindexed : Indexed { r with
          io := io
          provideTargets := update r.provideTargets cqe.userData none
          cleanupTargets := update r.cleanupTargets cqe.userData false } :=
        ⟨h.ops, h.orphaned⟩
      simp only
      cases hcleanup : r.cleanupTargets cqe.userData with
      | true =>
        have hcase := hindexed.reapCleanup target cqe.res
        refine ⟨hcase.1, hcase.2.trans ?_, counter_reapCleanup _ target cqe.res⟩
        simp only [Table.reapCqe, table, hcancel, hprovide, hcleanup, ↓reduceIte]
      | false =>
        have hcase := hindexed.reapProvide target cqe.res
        refine ⟨hcase.1, hcase.2.trans ?_, counter_reapProvide _ target cqe.res⟩
        simp only [Table.reapCqe, table, hcancel, hprovide, hcleanup, Bool.false_eq_true,
          ↓reduceIte]
    | none =>
      have hkey := hother hcancel hprovide
      have hindexed : Indexed { r with io := io } := ⟨h.ops, h.orphaned⟩
      have hop : r.table.op cqe.userData = none := h.ops.lookup_eq_none.mpr hkey
      simp only [hkey]
      cases horphan : r.orphanedByUserData cqe.userData with
      | some key =>
        obtain ⟨op, hget, huser, hlookup⟩ := h.orphaned.get_of_index horphan
        have hcase := hindexed.reapOrphan hget huser hop hlookup
        refine ⟨hcase.1, hcase.2.trans ?_, counter_reapOrphan _ key cqe⟩
        simp only [Table.reapCqe, table, hcancel, hprovide]
      | none =>
        have hnone : r.table.orphan cqe.userData = none := h.orphaned.lookup_eq_none.mpr horphan
        refine ⟨hindexed, ?_, rfl, rfl⟩
        simp only [Table.reapCqe, Table.reapAnswer, table] at hop hnone ⊢
        simp only [hcancel, hprovide, hop, hnone]

theorem Routed.reapCqe (h : r.Routed) (hreap : r.io.reap = some (cqe, io))
    (hb : (Uring.reapCqe { r with io := io } cqe).1.allocated < 2 ^ 64) :
    Reaped r cqe io (Uring.reapCqe { r with io := io } cqe).1 := by
  by_cases hother : r.cancelTargets cqe.userData = none →
      r.provideTargets cqe.userData = none → r.opsByUserData cqe.userData = none
  · obtain ⟨hindexed, htable, hcounter⟩ := h.reapCqe_other io hother
    exact h.reaped hreap hindexed htable hcounter
  · push Not at hother
    obtain ⟨hcancel, hprovide, hsome⟩ := hother
    obtain ⟨key, hkey⟩ := Option.ne_none_iff_exists'.mp hsome
    unfold Uring.reapCqe at hb ⊢
    simp only [hcancel, hprovide, hkey] at hb ⊢
    exact h.reapOp hreap hcancel hprovide hkey hb

end Ring

end Eddy.Uring
