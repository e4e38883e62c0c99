import Eddy.UringRouting

/-!
# Runs of the futures and the kernel

Every step of the system is a move of the tables. So what the moves keep holds in every state
that a run reaches, and the futures keep their operations apart.
-/

namespace Eddy.Uring
open Table Interleaving
open Function (update)

/-- What `clientStep` can do, one case for each section. -/
inductive ClientStep (r : Ring) (now : ℕ) : Slot → ClientMove → Ring → Slot → Prop where
  | start {key key' waker : ℕ} {start : Start} {r' : Ring} : r.ops.Vacant key →
      start.run r key waker = (some key', r') →
      ClientStep r now .idle (.start key start waker) r'
        (.started ⟨key', r.nextUserData, start.multishot, waker, now⟩)
  | startFailed {key waker : ℕ} {start : Start} {r' : Ring} : r.ops.Vacant key →
      start.run r key waker = (none, r') →
      ClientStep r now .idle (.start key start waker) r' .idle
  | submit {f : Future} {answer : Option ℕ} :
      ClientStep r now (.started f) (.submit answer) (submitInner r answer).2
        (if (submitInner r answer).1 then .pending f else .failed f)
  | drop {slot : Slot} {f : Future} {orphanKey : ℕ} :
      slot = .failed f ∨ slot = .pending f ∨ slot = .ready f → r.orphaned.Vacant orphanKey →
      ClientStep r now slot (.drop orphanKey) (orphan r f.key orphanKey).2
        ((orphan r f.key orphanKey).1.elim .idle .cancelling)
  | poll {slot : Slot} {f : Future} {waker : ℕ} : slot = .pending f ∨ slot = .ready f →
      ClientStep r now slot (.poll waker) (poll r { f with waker := waker, since := now }).1
        (poll r { f with waker := waker, since := now }).2
  | check {f : Future} : f.multishot = true → multishotFinished r f.key = true →
      ClientStep r now (.polled f) .check { r with ended := r.ended ++ [f.userData] } (.finished f)
  | checkUnfinished {f : Future} : f.multishot = true → multishotFinished r f.key = false →
      ClientStep r now (.polled f) .check r (.unfinished f)
  | finish {f : Future} :
      ClientStep r now (.finished f) .finish (removeMultishot r f.key) .idle
  | register {slot : Slot} {f : Future} :
      slot = .polled f ∧ f.multishot = false ∨ slot = .unfinished f →
      ClientStep r now slot .register (storeWaker r f.key f.waker) (.pending f)
  | cancel {target : ℕ} :
      ClientStep r now (.cancelling target) .cancel (queueCancel r target).2
        ((queueCancel r target).1.elim .idle .submitting)
  | submitCancel {c : ℕ} {answer : Option ℕ} :
      ClientStep r now (.submitting c) (.submit answer) (submitInner r answer).2
        (if (submitInner r answer).1 then .idle else .uncancelling c)
  | uncancel {c : ℕ} :
      ClientStep r now (.uncancelling c) .uncancel
        { r with cancelTargets := update r.cancelTargets c none } .idle

theorem dropFuture_eq_some {r r' : Ring} {f : Future} {orphanKey : ℕ} {slot : Slot}
    (h : dropFuture r f orphanKey = some (r', slot)) :
    r.orphaned.Vacant orphanKey ∧ r' = (orphan r f.key orphanKey).2 ∧
      slot = (orphan r f.key orphanKey).1.elim .idle .cancelling := by
  unfold dropFuture at h
  split_ifs at h with hvacant
  refine ⟨hvacant, ?_⟩
  rcases horphan : orphan r f.key orphanKey with ⟨_ | target, r₁⟩
  all_goals
    simp only [horphan, Option.some.injEq, Prod.mk.injEq] at h
    exact ⟨h.1.symm, h.2.symm⟩

theorem ClientStep.of_eq {r r' : Ring} {now : ℕ} {slot slot' : Slot} {move : ClientMove}
    (h : clientStep r now slot move = some (r', slot')) : ClientStep r now slot move r' slot' := by
  cases slot with
  | idle =>
    cases move with
    | start key start waker =>
      simp only [clientStep] at h
      split_ifs at h with hvacant
      rcases hrun : start.run r key waker with ⟨_ | key', r₁⟩
      · rw [hrun] at h
        cases h
        exact .startFailed hvacant hrun
      · rw [hrun] at h
        cases h
        exact .start hvacant hrun
    | _ => simp [clientStep] at h
  | started f =>
    cases move with
    | submit answer =>
      have hsubmit := @ClientStep.submit r now f answer
      simp only [clientStep] at h
      rcases hanswer : submitInner r answer with ⟨_ | _, r₁⟩
      all_goals
        rw [hanswer] at h hsubmit
        cases h
        exact hsubmit
    | _ => simp [clientStep] at h
  | failed f =>
    cases move with
    | drop orphanKey =>
      obtain ⟨hvacant, rfl, rfl⟩ := dropFuture_eq_some h
      exact .drop (.inl rfl) hvacant
    | _ => simp [clientStep] at h
  | pending f =>
    cases move with
    | drop orphanKey =>
      obtain ⟨hvacant, rfl, rfl⟩ := dropFuture_eq_some h
      exact .drop (.inr (.inl rfl)) hvacant
    | poll waker =>
      have hpoll := @ClientStep.poll r now (.pending f) f waker (.inl rfl)
      simp only [clientStep, Option.some.injEq] at h
      rw [h] at hpoll
      exact hpoll
    | _ => simp [clientStep] at h
  | ready f =>
    cases move with
    | drop orphanKey =>
      obtain ⟨hvacant, rfl, rfl⟩ := dropFuture_eq_some h
      exact .drop (.inr (.inr rfl)) hvacant
    | poll waker =>
      have hpoll := @ClientStep.poll r now (.ready f) f waker (.inr rfl)
      simp only [clientStep, Option.some.injEq] at h
      rw [h] at hpoll
      exact hpoll
    | _ => simp [clientStep] at h
  | polled f =>
    cases move with
    | check =>
      simp only [clientStep] at h
      split_ifs at h with hmultishot hfinished
      · cases h
        exact .check hmultishot hfinished
      · cases h
        exact .checkUnfinished hmultishot (by simpa using hfinished)
    | register =>
      simp only [clientStep] at h
      split_ifs at h with hmultishot
      cases h
      exact .register (.inl ⟨rfl, by simpa using hmultishot⟩)
    | _ => simp [clientStep] at h
  | unfinished f =>
    cases move with
    | register =>
      cases h
      exact .register (.inr rfl)
    | _ => simp [clientStep] at h
  | finished f =>
    cases move with
    | finish =>
      cases h
      exact .finish
    | _ => simp [clientStep] at h
  | cancelling target =>
    cases move with
    | cancel =>
      have hcancel := @ClientStep.cancel r now target
      simp only [clientStep] at h
      rcases hqueue : queueCancel r target with ⟨_ | c, r₁⟩
      all_goals
        rw [hqueue] at h hcancel
        cases h
        exact hcancel
    | _ => simp [clientStep] at h
  | submitting c =>
    cases move with
    | submit answer =>
      have hsubmit := @ClientStep.submitCancel r now c answer
      simp only [clientStep] at h
      rcases hanswer : submitInner r answer with ⟨_ | _, r₁⟩
      all_goals
        rw [hanswer] at h hsubmit
        cases h
        exact hsubmit
    | _ => simp [clientStep] at h
  | uncancelling c =>
    cases move with
    | uncancel =>
      cases h
      exact .uncancel
    | _ => simp [clientStep] at h

/-- The operation that the future started is in the slot of its key. -/
def Future.Holds (v : Table) (f : Future) : Prop :=
  v.index f.userData = some f.key ∧ ∃ op, v.op f.userData = some op ∧
    op.multishot.isSome = f.multishot

def Slot.Fits (v : Table) : Slot → Prop
  | .idle | .submitting _ | .uncancelling _ => True
  | .started f | .failed f | .pending f | .ready f | .polled f => f.Holds v
  | .unfinished f => f.Holds v ∧ f.multishot = true
  | .finished f => f.Holds v ∧ f.multishot = true ∧ f.userData ∈ v.ended
  | .cancelling target => v.op target = none ∧
      ∃ sqe ∈ v.io.queued, sqe.userData = target ∧ sqe.opcode.control = false

section Fits
variable {v v' : Table} {slot : Slot}

theorem Slot.Fits.holds {f : Future} (h : slot.Fits v) (hf : slot.future = some f) : f.Holds v := by
  cases slot with
  | unfinished | finished =>
    cases hf
    exact h.1
  | started | failed | pending | ready | polled =>
    cases hf
    exact h
  | idle | cancelling | submitting | uncancelling => cases hf

/-- The operation of a slot's future and what is known of the others decide whether it fits. -/
theorem Slot.Fits.of_holds (h : slot.Fits v)
    (hholds : ∀ f, slot.future = some f → f.Holds v → f.Holds v')
    (hnone : ∀ t, slot = .cancelling t → v'.op t = none)
    (hqueued : ∀ sqe ∈ v.io.queued, sqe ∈ v'.io.queued) (hended : ∀ u ∈ v.ended, u ∈ v'.ended) :
    slot.Fits v' := by
  cases slot with
  | idle | submitting | uncancelling => trivial
  | started f | failed f | pending f | ready f | polled f => exact hholds f rfl h
  | unfinished f => exact ⟨hholds f rfl h.1, h.2⟩
  | finished f => exact ⟨hholds f rfl h.1, h.2.1, hended _ h.2.2⟩
  | cancelling t =>
    obtain ⟨-, sqe, hsqe, hstarted⟩ := h
    exact ⟨hnone t rfl, sqe, hqueued sqe hsqe, hstarted⟩

theorem Future.Holds.same {f : Future} (h : f.Holds v) (hsame : SameOps v v') : f.Holds v' := by
  obtain ⟨hindex, op, hop, hmultishot⟩ := h
  refine ⟨hsame.index ▸ hindex, ?_⟩
  have hmap := hsame.op f.userData
  rw [hop] at hmap
  obtain ⟨op', hop', heq⟩ := Option.map_eq_some_iff.mp hmap
  exact ⟨op', hop', heq.trans hmultishot⟩

theorem Slot.Fits.same (h : slot.Fits v) (hsame : SameOps v v') : slot.Fits v' := by
  apply h.of_holds
  · intro f _ hholds
    exact hholds.same hsame
  · rintro t rfl
    exact hsame.op_none.mpr h.1
  · exact hsame.queued
  · exact hsame.ended

theorem Future.Holds.update {f : Future} {u : ℕ} {key : Option ℕ} {op : Option OpState}
    (h : f.Holds v) (hop : v'.op = update v.op u op)
    (hindex : v'.index = update v.index u key) (hne : f.userData ≠ u) : f.Holds v' := by
  rw [Future.Holds, hop, hindex, Function.update_of_ne hne, Function.update_of_ne hne]
  exact h

/-- Another operation leaves the tables. -/
theorem Slot.Fits.release (h : slot.Fits v) {u : ℕ}
    (hop : v'.op = update v.op u none) (hindex : v'.index = update v.index u none)
    (hqueued : v'.io.queued = v.io.queued) (hended : v'.ended = v.ended)
    (hne : ∀ f, slot.future = some f → f.userData ≠ u) : slot.Fits v' := by
  apply h.of_holds
  · intro f hf hholds
    exact hholds.update hop hindex (hne f hf)
  · rintro t rfl
    by_cases ht : t = u
    · simp [hop, ht]
    · simp [hop, ht, h.1]
  · intro sqe hsqe
    exact hqueued ▸ hsqe
  · intro j hj
    exact hended ▸ hj

/-- Another operation is started. -/
theorem Slot.Fits.start (h : slot.Fits v) (hvalid : v.Valid) {u key : ℕ} {op : OpState}
    (hop : v'.op = update v.op u (some op))
    (hindex : v'.index = update v.index u (some key))
    (hfresh : ∀ sqe ∈ v.io.queued, sqe.userData ≠ u)
    (hqueued : ∀ sqe ∈ v.io.queued, sqe ∈ v'.io.queued) (hended : v'.ended = v.ended) :
    slot.Fits v' := by
  apply h.of_holds
  · rintro f hf hholds
    apply hholds.update hop hindex
    rintro rfl
    obtain ⟨-, op', hop', -⟩ := hholds
    simp [(hvalid.fresh hfresh).1] at hop'
  · rintro t rfl
    obtain ⟨hnone, sqe, hsqe, htag, -⟩ := h
    rw [hop, Function.update_of_ne (htag ▸ hfresh sqe hsqe)]
    exact hnone
  · exact hqueued
  · intro j hj
    exact hended ▸ hj

end Fits

/-- The first section of a poll. -/
inductive Polled (r : Ring) (f : Future) : Ring × Slot → Prop where
  | event {r' : Ring} {op : OpState} {m : MultishotState} {event : MultishotEvent}
      {events : List MultishotEvent} : r'.Routed → Move r.table .quiet r'.table →
      r.table.op f.userData = some op → op.multishot = some m → m.events = event :: events →
      r'.table = { r.table.setOp f.userData
        { op with multishot := some { m with events := events } } with
        transferred := r.transferred ++ event.fds.map (f.userData, ·) } →
      Polled r f (r', .ready f)
  | result {r' : Ring} {op : OpState} {result : Except IoError ℕ} : r'.Routed →
      Move r.table .quiet r'.table → r.table.op f.userData = some op →
      op.result = some result →
      r'.table = { r.table.releaseOp f.userData op with
        transferred := r.transferred ++
          (acceptedFd (result, op.resource)).map (f.userData, ·) } →
      Polled r f (r', .idle)
  | nothing {op : OpState} : r.table.op f.userData = some op → op.result = none ∨ f.multishot →
      (∀ m, op.multishot = some m → m.events = []) → Polled r f (r, .polled f)

theorem Ring.Routed.poll {r : Ring} {f : Future} (h : r.Routed) (hf : f.Holds r.table) :
    Polled r f (Uring.poll r f) := by
  obtain ⟨key, u, multishot, waker, since⟩ := f
  obtain ⟨hindex, op, hop, hmultishot⟩ := hf
  obtain ⟨op', hkey, huser, hop'⟩ := h.get_of_index hindex
  obtain rfl : op' = op := Option.some.inj (hop'.symm.trans hop)
  obtain rfl : u = op'.userData := huser.symm
  cases hm : op'.multishot with
  | none =>
    have hf : multishot = false := by simpa [hm] using hmultishot.symm
    rcases h.takeResult hkey hm with ⟨hresult, htake⟩ | ⟨result, r', hresult, htake, hrouted, hmove,
      htable⟩
    · simp only [Uring.poll, hf, htake]
      exact .nothing hop (.inl hresult) (by simp [hm])
    · simp only [Uring.poll, hf, htake]
      exact .result hrouted hmove hop hresult htable
  | some m =>
    have hf : multishot = true := by simpa [hm] using hmultishot.symm
    rcases h.takeMultishotEvent hkey hm with ⟨hevents, htake⟩ | ⟨event, events, r', hevents, htake,
      hrouted, hmove, htable⟩
    · simp only [Uring.poll, hf, htake]
      refine .nothing hop (.inr rfl) fun m' hm' => ?_
      rw [hm, Option.some.injEq] at hm'
      exact hm' ▸ hevents
    · simp only [Uring.poll, hf, htake]
      exact .event hrouted hmove hop hm hevents htable

theorem Ring.Routed.run {r : Ring} (h : r.Routed) {key : ℕ} (hkey : r.ops.Vacant key)
    (start : Start) (waker : ℕ) (hb : (start.run r key waker).2.allocated < 2 ^ 64) :
    Started r start.multishot waker (start.run r key waker) := by
  cases start with
  | op request => exact h.startOp hkey request waker hb
  | acceptMultishot fd => exact h.startMultishotAccept hkey fd waker hb
  | recvMultishot fd bufferSize bufferCount =>
    exact h.startMultishotRecv hkey fd bufferSize bufferCount waker hb

/-- A completion takes no operation from its future: only operations without one are cancelled. -/
theorem Table.Valid.sameOps_reapCqe {v : Table} {cqe : Cqe} {io : Traffic Sqe Cqe} (h : v.Valid)
    (hreap : v.io.reap = some (cqe, io)) : SameOps v (Table.reapCqe { v with io := io } cqe) := by
  have hqueued : io.queued = v.io.queued := by
    obtain ⟨rest, -, rfl⟩ := Traffic.reap_eq_some.mp hreap
    rfl
  have hclear : SameOps v (v.clear io cqe.userData) :=
    ⟨rfl, fun _ => rfl, fun sqe hsqe => hqueued ▸ hsqe, fun _ hu => hu⟩
  have hset : ∀ {u : ℕ} {old op : OpState}, v.op u = some old →
      op.toOrphanedOp.shape = old.toOrphanedOp.shape →
      SameOps v ((v.clear io cqe.userData).setOp u op) := fun hu hshape =>
    hclear.trans (.setOp hu (isSome_of_shape hshape))
  have horphan : ∀ (orphan : ℕ → Option OrphanedOp) released closed,
      SameOps v { v.clear io cqe.userData with
        orphan := orphan
        released := released
        closed := closed } := fun _ _ _ =>
    ⟨hclear.index, hclear.op, hclear.queued, hclear.ended⟩
  rcases h.reap_cases hreap with ⟨-, ⟨hcancel, heq⟩ | ⟨-, heq⟩⟩ | ⟨-, -, -, heq⟩ | ⟨-, -, -, heq⟩ |
    ⟨-, -, -, -, heq⟩ <;> rw [heq]
  · have hnone := (h.cancel _ _ hcancel).1
    unfold Table.reapCancel
    split_ifs
    · split
      · split_ifs
        · exact horphan _ _ _
        · exact hclear
      · split
        · rename_i hop
          simp [Table.clear, hnone] at hop
        · exact hclear
    · exact hclear
  · exact hclear
  · unfold Table.reapCleanup
    split
    · rename_i op hop
      exact hset hop (op.cleaned_shape _)
    · split
      · split
        · exact horphan _ _ _
        · exact horphan _ _ _
      · exact hclear
  · unfold Table.reapProvide
    split_ifs
    · split
      · rename_i op hop
        exact hset hop (op.provideFailed_shape _)
      · exact hclear
    · exact hclear
  · unfold Table.reapAnswer
    split
    · rename_i op hop
      exact hset hop (op.answered_shape _)
    · split
      · dsimp only
        split
        · exact horphan _ _ _
        · exact horphan _ _ _
      · exact hclear

namespace System

def future (s : System) (i : ℕ) : Option Future := (s.slots[i]?).bind Slot.future

/-- The move of the tables that a step makes first. -/
def kind (s : System) : Label → Kind
  | .reapCqe => (s.ring.io.cq.head?).elim .quiet .reap
  | .client i (.drop _) => (s.future i).elim .quiet fun f => .drop f.userData
  | _ => .quiet

structure Routed (s : System) : Prop where
  ring : s.ring.Routed
  fits : ∀ (i : ℕ) (slot : Slot), s.slots[i]? = some slot → slot.Fits s.ring.table
  apart : ∀ i j f g, s.future i = some f → s.future j = some g → f.userData = g.userData → i = j
  owned : ∀ u op, s.ring.table.op u = some op → ∃ i f, s.future i = some f ∧ f.userData = u

variable {s s' : System}

theorem Routed.new (sqEntries : ℕ) (sqpoll : Bool) (futures : ℕ) :
    (System.new sqEntries sqpoll futures).Routed := by
  have hidle : ∀ i, (System.new sqEntries sqpoll futures).future i = none := by
    intro i
    simp only [future, System.new, List.getElem?_replicate]
    split_ifs <;> rfl
  refine ⟨.new sqEntries sqpoll, fun i slot hi => ?_, fun i j f g hf => ?_, fun u op hu => ?_⟩
  · obtain rfl : slot = .idle := List.eq_of_mem_replicate (List.mem_of_getElem? hi)
    trivial
  · simp [hidle] at hf
  · simp [System.new, Ring.new, Ring.table, Slab.lookup] at hu

theorem Routed.holds (h : s.Routed) {i : ℕ} {f : Future} (hf : s.future i = some f) :
    f.Holds s.ring.table := by
  obtain ⟨slot, hi, hslot⟩ := Option.bind_eq_some_iff.mp hf
  exact (h.fits i slot hi).holds hslot

/-- A step that touches neither the futures nor their operations. -/
theorem Routed.kept (h : s.Routed) (hslots : s'.slots = s.slots) (hring : s'.ring.Routed)
    (hsame : SameOps s.ring.table s'.ring.table) : s'.Routed := by
  have hfuture : s'.future = s.future := by
    funext i
    rw [future, hslots, future]
  refine ⟨hring, fun i slot hi => ?_, hfuture ▸ h.apart, fun u op hu => ?_⟩
  · rw [hslots] at hi
    exact (h.fits i slot hi).same hsame
  · have hsome : s.ring.table.op u ≠ none := fun hnone => by
      rw [hsame.op_none.mpr hnone] at hu
      cases hu
    obtain ⟨op', hop'⟩ := Option.ne_none_iff_exists'.mp hsome
    rw [hfuture]
    exact h.owned u op' hop'

section Client
variable {i : ℕ} {old slot : Slot} {ring : Ring}

theorem future_set (hi : s.slots[i]? = some old) (j : ℕ) :
    future { s with ring := ring, slots := s.slots.set i slot } j =
      if j = i then slot.future else s.future j := by
  have hlt := (List.getElem?_eq_some_iff.mp hi).1
  simp only [future, List.getElem?_set]
  by_cases hj : j = i
  · subst hj
    simp [hlt]
  · simp [hj, Ne.symm hj]

/-- A section of one future's code, by what it means for the others. -/
theorem Routed.setSlot (h : s.Routed) (hi : s.slots[i]? = some old) (hring : ring.Routed)
    (hslot : slot.Fits ring.table)
    (hothers : ∀ j other, j ≠ i → s.slots[j]? = some other → other.Fits ring.table)
    (hapart : ∀ f j g, slot.future = some f → j ≠ i → s.future j = some g →
      g.userData ≠ f.userData)
    (howned : ∀ u op, ring.table.op u = some op → (∃ f, slot.future = some f ∧ f.userData = u) ∨
      ∃ j f, j ≠ i ∧ s.future j = some f ∧ f.userData = u) :
    Routed { s with ring := ring, slots := s.slots.set i slot } := by
  refine ⟨hring, fun j other hj => ?_, fun j k f g hf hg huser => ?_, fun u op hu => ?_⟩
  · simp only [List.getElem?_set] at hj
    split_ifs at hj with hij hlt
    · cases hj
      exact hslot
    · exact hothers j other (Ne.symm hij) hj
  · rw [future_set hi] at hf hg
    by_cases hj : j = i <;> by_cases hk : k = i
    · rw [hj, hk]
    · rw [if_pos hj] at hf
      rw [if_neg hk] at hg
      exact absurd huser.symm (hapart f k g hf hk hg)
    · rw [if_neg hj] at hf
      rw [if_pos hk] at hg
      exact absurd huser (hapart g j f hg hj hf)
    · rw [if_neg hj] at hf
      rw [if_neg hk] at hg
      exact h.apart j k f g hf hg huser
  · rcases howned u op hu with ⟨f, hf, huser⟩ | ⟨j, f, hj, hf, huser⟩
    · exact ⟨i, f, by rw [future_set hi, if_pos rfl, hf], huser⟩
    · exact ⟨j, f, by rw [future_set hi, if_neg hj, hf], huser⟩

/-- The future goes on and no operation comes or goes. -/
theorem Routed.sameSlot (h : s.Routed) (hi : s.slots[i]? = some old) (hring : ring.Routed)
    (hsame : SameOps s.ring.table ring.table) (hslot : slot.Fits ring.table)
    (hfuture : slot.future.map Future.userData = old.future.map Future.userData) :
    Routed { s with ring := ring, slots := s.slots.set i slot } := by
  have hi' : s.future i = old.future := by simp [future, hi]
  refine h.setSlot hi hring hslot (fun j other _ hj => (h.fits j other hj).same hsame)
    (fun f j g hf hj hg huser => ?_) fun u op hu => ?_
  · rw [hf, Option.map_some] at hfuture
    obtain ⟨f', hf', huser'⟩ := Option.map_eq_some_iff.mp hfuture.symm
    exact hj (h.apart j i g f' hg (hi'.trans hf') (huser.trans huser'.symm))
  · have hsome : s.ring.table.op u ≠ none := fun hnone => by
      rw [hsame.op_none.mpr hnone] at hu
      cases hu
    obtain ⟨op', hop'⟩ := Option.ne_none_iff_exists'.mp hsome
    obtain ⟨j, g, hg, huser⟩ := h.owned u op' hop'
    by_cases hj : j = i
    · subst hj
      rw [hi'] at hg
      rw [hg, Option.map_some] at hfuture
      obtain ⟨f, hf, huser'⟩ := Option.map_eq_some_iff.mp hfuture
      exact .inl ⟨f, hf, huser'.trans huser⟩
    · exact .inr ⟨j, g, hj, hg, huser⟩

variable {f : Future}

theorem Routed.releaseSlot (h : s.Routed) (hi : s.slots[i]? = some old)
    (hf : old.future = some f) (hring : ring.Routed)
    (hop : ring.table.op = update s.ring.table.op f.userData none)
    (hindex : ring.table.index = update s.ring.table.index f.userData none)
    (hqueued : ring.table.io.queued = s.ring.table.io.queued)
    (hended : ring.table.ended = s.ring.table.ended) (hslot : slot.Fits ring.table)
    (hnone : slot.future = none) :
    Routed { s with ring := ring, slots := s.slots.set i slot } := by
  have hi' : s.future i = some f := by simp [future, hi, hf]
  refine h.setSlot hi hring hslot (fun j other hj hother => ?_) (fun g j _ hg => ?_)
    fun u op hu => ?_
  · apply (h.fits j other hother).release hop hindex hqueued hended
    intro g hg huser
    have hj' : s.future j = some g := by simp [future, hother, hg]
    exact hj (h.apart j i g f hj' hi' huser)
  · simp [hnone] at hg
  · have hu' : u ≠ f.userData := by
      rintro rfl
      simp [hop] at hu
    rw [hop, Function.update_of_ne hu'] at hu
    obtain ⟨j, g, hg, huser⟩ := h.owned u op hu
    refine .inr ⟨j, g, ?_, hg, huser⟩
    rintro rfl
    rw [hi', Option.some.injEq] at hg
    exact hu' (hg ▸ huser.symm)

theorem Routed.startSlot (h : s.Routed) (hi : s.slots[i]? = some old) {op : OpState}
    (hnone : old.future = none) (hring : ring.Routed)
    (hop : ring.table.op = update s.ring.table.op f.userData (some op))
    (hindex : ring.table.index = update s.ring.table.index f.userData (some f.key))
    (hmultishot : op.multishot.isSome = f.multishot)
    (hfresh : ∀ sqe ∈ s.ring.io.queued, sqe.userData ≠ f.userData)
    (hqueued : ∀ sqe ∈ s.ring.io.queued, sqe ∈ ring.io.queued)
    (hended : ring.table.ended = s.ring.table.ended) :
    Routed { s with ring := ring, slots := s.slots.set i (.started f) } := by
  have hholds : f.Holds ring.table := by
    refine ⟨by simp [hindex], op, by simp [hop], hmultishot⟩
  have hi' : s.future i = none := by simp [future, hi, hnone]
  have hold : ∀ {j g}, s.future j = some g → g.userData ≠ f.userData := by
    intro j g hg huser
    obtain ⟨-, op', hop', -⟩ := h.holds hg
    have := (h.ring.valid.fresh hfresh).1
    rw [huser, this] at hop'
    cases hop'
  refine h.setSlot hi hring hholds (fun j other _ hother => ?_) (fun g j g' hg _ hg' => ?_)
    fun u op' hu => ?_
  · exact (h.fits j other hother).start h.ring.valid hop hindex hfresh hqueued hended
  · cases hg
    exact hold hg'
  · by_cases hu' : u = f.userData
    · exact .inl ⟨f, rfl, hu'.symm⟩
    · rw [hop, Function.update_of_ne hu'] at hu
      obtain ⟨j, g, hg, huser⟩ := h.owned u op' hu
      refine .inr ⟨j, g, ?_, hg, huser⟩
      rintro rfl
      simp [hi'] at hg

/-- What every step does. -/
structure Stepped (s : System) (a : Label) (s' : System) : Prop where
  routed : s'.Routed
  moves : ∃ v, Move s.ring.table (s.kind a) v ∧ Quiet v s'.ring.table

theorem Stepped.of_quiet {a : Label} (hrouted : s'.Routed) (hkind : s.kind a = .quiet)
    (hquiet : Quiet s.ring.table s'.ring.table) : Stepped s a s' := by
  refine ⟨hrouted, s.ring.table, ?_, hquiet⟩
  rw [hkind]
  exact .stay

theorem Routed.startStep (h : s.Routed) (hi : s.slots[i]? = some .idle) {key waker : ℕ}
    (now : ℕ) (hvacant : s.ring.ops.Vacant key) (start : Start) {result : Option ℕ}
    (hrun : start.run s.ring key waker = (result, ring)) (hb : ring.allocated < 2 ^ 64) :
    Stepped s (.client i (.start key start waker)) { s with
      ring := ring
      slots := s.slots.set i (result.elim .idle fun key' =>
        .started ⟨key', s.ring.nextUserData, start.multishot, waker, now⟩) } := by
  have hstarted := h.ring.run hvacant start waker (by rwa [hrun])
  rw [hrun] at hstarted
  cases hstarted with
  | rejected hring htable =>
    have hmove : Move s.ring.table .quiet ring.table := by
      rcases htable with htable | htable <;> rw [htable]
      · exact .stay
      · exact .alloc
    have hsame : SameOps s.ring.table ring.table := by
      rcases htable with htable | htable <;> rw [htable]
      · exact .refl _
      · exact ⟨rfl, fun _ => rfl, fun _ hsqe => hsqe, fun _ hu => hu⟩
    exact .of_quiet (h.sameSlot hi hring hsame trivial rfl) rfl (.single hmove)
  | queued hring hmove hmultishot _ _ hop hindex hended hqueued hfresh =>
    exact .of_quiet (h.startSlot hi rfl hring hop hindex hmultishot hfresh hqueued hended) rfl
      (.single hmove)

theorem Routed.dropStep (h : s.Routed) (hi : s.slots[i]? = some old) {orphanKey : ℕ}
    (hf : old.future = some f) (hvacant : s.ring.orphaned.Vacant orphanKey) :
    Stepped s (.client i (.drop orphanKey)) { s with
      ring := (orphan s.ring f.key orphanKey).2
      slots := s.slots.set i ((orphan s.ring f.key orphanKey).1.elim .idle .cancelling) } := by
  obtain ⟨hindex, -⟩ := (h.fits i old hi).holds hf
  obtain ⟨op, hkey, huser, hop⟩ := h.ring.get_of_index hindex
  have horphan := h.ring.orphan hkey hvacant
  rw [huser] at horphan
  have hkind : s.kind (.client i (.drop orphanKey)) = .drop f.userData := by
    simp [kind, future, hi, hf]
  refine ⟨?_, _, hkind ▸ horphan.move, .refl _⟩
  apply h.releaseSlot hi hf horphan.routed horphan.op horphan.index
  · exact congrArg Traffic.queued horphan.io
  · exact horphan.ended
  · cases htarget : (orphan s.ring f.key orphanKey).1 with
    | none => trivial
    | some target =>
      obtain rfl := horphan.target target htarget
      obtain ⟨-, sqe, hsqe, hstarts⟩ := h.ring.valid.op _ op hop
      refine ⟨by simp [horphan.op], sqe, ?_, hstarts.1.trans huser, hstarts.2.2.1⟩
      have hqueued := congrArg Traffic.queued horphan.io
      exact hqueued.symm ▸ hsqe
  · cases (orphan s.ring f.key orphanKey).1 <;> rfl

theorem Routed.pollStep (h : s.Routed) (hi : s.slots[i]? = some old) {f' : Future} {waker : ℕ}
    (hf : old.future = some f) (hf' : f'.userData = f.userData) (hholds : f'.Holds s.ring.table) :
    Stepped s (.client i (.poll waker)) { s with
      ring := (poll s.ring f').1
      slots := s.slots.set i (poll s.ring f').2 } := by
  have hpoll := h.ring.poll hholds
  rcases hresult : poll s.ring f' with ⟨ring, slot⟩
  rw [hresult] at hpoll
  cases hpoll with
  | @event _ op m event events hring hmove hop hm _ htable =>
    have hsame : SameOps s.ring.table ring.table := by
      have hset : SameOps s.ring.table (s.ring.table.setOp f'.userData
          { op with multishot := some { m with events := events } }) := .setOp hop (by simp [hm])
      rw [htable]
      exact ⟨hset.index, hset.op, hset.queued, hset.ended⟩
    refine .of_quiet (h.sameSlot hi hring hsame (hholds.same hsame) ?_) rfl (.single hmove)
    rw [hf]
    exact congrArg some hf'
  | result hring hmove hop _ htable =>
    rw [hf'] at htable
    refine .of_quiet (h.releaseSlot hi hf hring ?_ ?_ ?_ ?_ trivial rfl) rfl (.single hmove)
    all_goals
      rw [htable]
      rfl
  | nothing =>
    refine .of_quiet (h.sameSlot hi h.ring (.refl _) hholds ?_) rfl (.refl _)
    rw [hf]
    exact congrArg some hf'

theorem Routed.checkStep (h : s.Routed) (hi : s.slots[i]? = some (.polled f))
    (hmultishot : f.multishot = true) (hfinished : multishotFinished s.ring f.key = true) :
    Stepped s (.client i .check) { s with
      ring := { s.ring with ended := s.ring.ended ++ [f.userData] }
      slots := s.slots.set i (.finished f) } := by
  have hholds : f.Holds s.ring.table := h.fits i _ hi
  obtain ⟨op, hkey, -, hop⟩ := h.ring.get_of_index hholds.1
  obtain ⟨m, hm, hfinished⟩ := (Option.any_eq_true ..).mp hfinished
  have hm : op.multishot = some m := by simpa [hkey] using hm
  have hmove : Move s.ring.table .quiet { s.ring.table with
      ended := s.ring.table.ended ++ [f.userData] } := .check hop hm hfinished
  have hsame : SameOps s.ring.table { s.ring.table with
      ended := s.ring.table.ended ++ [f.userData] } :=
    ⟨rfl, fun _ => rfl, fun _ hsqe => hsqe, fun _ hu => List.mem_append_left _ hu⟩
  have hring : Ring.Routed { s.ring with ended := s.ring.ended ++ [f.userData] } :=
    h.ring.of_move hmove h.ring.ops h.ring.orphaned h.ring.counter
  refine .of_quiet (h.sameSlot hi hring hsame ⟨hholds.same hsame, hmultishot, ?_⟩ rfl) rfl
    (.single hmove)
  exact List.mem_append_right _ (List.mem_singleton_self _)

theorem Routed.finishStep (h : s.Routed) (hi : s.slots[i]? = some (.finished f)) :
    Stepped s (.client i .finish) { s with
      ring := removeMultishot s.ring f.key
      slots := s.slots.set i .idle } := by
  obtain ⟨⟨hindex, op, hop, hisSome⟩, hmultishot, hended⟩ := h.fits i _ hi
  obtain ⟨op', hkey, huser, hop'⟩ := h.ring.get_of_index hindex
  obtain rfl : op' = op := Option.some.inj (hop'.symm.trans hop)
  obtain ⟨hring, hmove, htable⟩ := h.ring.removeMultishot hkey (hisSome.trans hmultishot)
    (huser.symm ▸ hended)
  rw [huser] at htable
  refine .of_quiet (h.releaseSlot hi rfl hring ?_ ?_ ?_ ?_ trivial rfl) rfl (.single hmove)
  all_goals
    rw [htable]
    rfl

theorem Routed.registerStep (h : s.Routed) (hi : s.slots[i]? = some old)
    (hf : old.future = some f) :
    Stepped s (.client i .register) { s with
      ring := storeWaker s.ring f.key f.waker
      slots := s.slots.set i (.pending f) } := by
  have hholds := (h.fits i old hi).holds hf
  obtain ⟨op, hkey, huser, hop⟩ := h.ring.get_of_index hholds.1
  obtain ⟨hring, hmove, htable⟩ := h.ring.storeWaker hkey f.waker
  have hsame : SameOps s.ring.table (storeWaker s.ring f.key f.waker).table := by
    rw [htable, huser]
    exact .setOp hop rfl
  exact .of_quiet (h.sameSlot hi hring hsame (hholds.same hsame) (by rw [hf]; rfl)) rfl
    (.single hmove)

theorem Routed.client (h : s.Routed) {now : ℕ} {move : ClientMove} (hi : s.slots[i]? = some old)
    (hstep : ClientStep s.ring now old move ring slot) (hb : ring.allocated < 2 ^ 64) :
    Stepped s (.client i move) { s with ring := ring, slots := s.slots.set i slot } := by
  induction hstep with
  | @start key key' waker start _ hvacant hrun
  | @startFailed key waker start _ hvacant hrun => exact h.startStep hi now hvacant start hrun hb
  | @submit f answer =>
    have hkept := h.ring.submitInner answer
    have hholds : f.Holds s.ring.table := h.fits i _ hi
    refine .of_quiet (h.sameSlot hi hkept.routed hkept.same ?_ ?_) rfl hkept.quiet
    · split <;> exact hholds.same hkept.same
    · split <;> rfl
  | drop hold hvacant =>
    rcases hold with rfl | rfl | rfl <;> exact h.dropStep hi rfl hvacant
  | poll hold =>
    rcases hold with rfl | rfl
    all_goals
      have hholds := h.fits i _ hi
      exact h.pollStep hi rfl rfl hholds
  | check hmultishot hfinished => exact h.checkStep hi hmultishot hfinished
  | checkUnfinished hmultishot =>
    exact .of_quiet (h.sameSlot hi h.ring (.refl _) ⟨h.fits i _ hi, hmultishot⟩ rfl) rfl (.refl _)
  | finish => exact h.finishStep hi
  | register hold =>
    rcases hold with ⟨rfl, -⟩ | rfl <;> exact h.registerStep hi rfl
  | @cancel target =>
    obtain ⟨hnone, hstarted⟩ := h.fits i _ hi
    have hkept := h.ring.queueCancel hnone hstarted hb
    refine .of_quiet (h.sameSlot hi hkept.routed hkept.same ?_ ?_) rfl hkept.quiet
    · cases (queueCancel s.ring target).1 <;> trivial
    · cases (queueCancel s.ring target).1 <;> rfl
  | @submitCancel c answer =>
    have hkept := h.ring.submitInner answer
    refine .of_quiet (h.sameSlot hi hkept.routed hkept.same ?_ ?_) rfl hkept.quiet
    · split <;> trivial
    · split <;> rfl
  | @uncancel c =>
    have hkept := h.ring.uncancel c
    exact .of_quiet (h.sameSlot hi hkept.routed hkept.same trivial rfl) rfl hkept.quiet

end Client

inductive Steps (s : System) : Label → System → Prop where
  | consume {n : ℕ} : Steps s (.consume n) { s with
      ring := { s.ring with io := s.ring.io.consume n } }
  | post {i : ℕ} {res : ℤ} {flags : ℕ} {sqe : Sqe} : s.ring.io.inFlight[i]? = some sqe →
      Steps s (.post i res flags) { s with
        ring := { s.ring with io := s.ring.io.post Cqe.last i ⟨sqe, res, flags⟩ } }
  | submit {answer : Option ℕ} : Steps s (.submit answer) { s with
      ring := (submitInner s.ring answer).2 }
  | client {i : ℕ} {move : ClientMove} {old slot : Slot} {ring : Ring} : s.slots[i]? = some old →
      ClientStep s.ring s.wakes.length old move ring slot →
      Steps s (.client i move) { s with
        ring := ring
        slots := s.slots.set i slot }
  | reapBegin : s.reaping = none → Steps s .reapBegin { s with
      reaping := some (s.ring.io.cq.length, ⟨false, []⟩) }
  | reapCqe {available : ℕ} {reaper : Reaper} {cqe : Cqe} {io : Traffic Sqe Cqe} :
      s.reaping = some (available + 1, reaper) → s.ring.io.reap = some (cqe, io) →
      Steps s .reapCqe { s with
        ring := (Uring.reapCqe { s.ring with io := io } cqe).1
        reaping := some (available,
          ⟨reaper.refill || (Uring.reapCqe { s.ring with io := io } cqe).2.2,
            reaper.wake ++ (Uring.reapCqe { s.ring with io := io } cqe).2.1⟩) }
  | reapEnd {reaper : Reaper} : s.reaping = some (0, reaper) →
      Steps s .reapEnd { s with
        ring := (queuePendingCleanupsLocked s.ring).2
        reaping := none
        reapers := s.reapers ++
          [{ reaper with refill := reaper.refill || (queuePendingCleanupsLocked s.ring).1 }] }
  | reaperSubmit {j : ℕ} {answer : Option ℕ} {wake : List ℕ} : s.reapers[j]? = some ⟨true, wake⟩ →
      Steps s (.reaperSubmit j answer) { s with
        ring := (submitInner s.ring answer).2
        reapers := s.reapers.set j ⟨false, wake⟩ }
  | reaperWake {j waker : ℕ} {wake : List ℕ} : s.reapers[j]? = some ⟨false, waker :: wake⟩ →
      Steps s (.reaperWake j) { s with
        reapers := s.reapers.set j ⟨false, wake⟩
        wakes := s.wakes ++ [waker] }
  | reaperReturn {j : ℕ} : s.reapers[j]? = some ⟨false, []⟩ →
      Steps s (.reaperReturn j) { s with reapers := s.reapers.eraseIdx j }

theorem Steps.of_eq {a : Label} (hstep : s.step a = some s') : Steps s a s' := by
  cases a with
  | consume n | submit answer =>
    simp only [System.step] at hstep
    split_ifs at hstep
    cases hstep
    constructor
  | post i res flags =>
    obtain ⟨sqe, hsqe, rfl⟩ := Option.map_eq_some_iff.mp hstep
    exact .post hsqe
  | client i move =>
    simp only [System.step] at hstep
    split_ifs at hstep
    obtain ⟨slot, hi, hmap⟩ := Option.bind_eq_some_iff.mp hstep
    obtain ⟨⟨ring, slot'⟩, hclient, rfl⟩ := Option.map_eq_some_iff.mp hmap
    exact .client hi (.of_eq hclient)
  | reapBegin =>
    simp only [System.step] at hstep
    split_ifs at hstep with hnone
    cases hstep
    exact .reapBegin (Option.isNone_iff_eq_none.mp hnone)
  | reapCqe =>
    simp only [System.step] at hstep
    split at hstep
    · rename_i hreaping
      obtain ⟨⟨cqe, io⟩, hreap, rfl⟩ := Option.map_eq_some_iff.mp hstep
      exact .reapCqe hreaping hreap
    · cases hstep
  | reapEnd =>
    simp only [System.step] at hstep
    split at hstep
    · rename_i hreaping
      cases hstep
      exact .reapEnd hreaping
    · cases hstep
  | reaperSubmit j answer =>
    simp only [System.step] at hstep
    split_ifs at hstep
    split at hstep
    · rename_i hj
      cases hstep
      exact .reaperSubmit hj
    · cases hstep
  | reaperWake j =>
    simp only [System.step] at hstep
    split at hstep
    · rename_i hj
      cases hstep
      exact .reaperWake hj
    · cases hstep
  | reaperReturn j =>
    simp only [System.step] at hstep
    split at hstep
    · rename_i hj
      cases hstep
      exact .reaperReturn hj
    · cases hstep

theorem Routed.step {a : Label} (h : s.Routed) (hstep : s.step a = some s')
    (hb : s'.ring.allocated < 2 ^ 64) : Stepped s a s' := by
  have hkept : ∀ {ring : Ring}, Ring.Kept s.ring ring → s'.ring = ring → s'.slots = s.slots →
      s.kind a = .quiet → Stepped s a s' := by
    rintro ring hkept rfl hslots hkind
    exact .of_quiet (h.kept hslots hkept.routed hkept.same) hkind hkept.quiet
  have hsame : s'.ring = s.ring → s'.slots = s.slots → s.kind a = .quiet → Stepped s a s' := by
    apply hkept
    exact ⟨h.ring, .refl _, .refl _⟩
  cases Steps.of_eq hstep with
  | @consume n => exact hkept (h.ring.consume n s.ring.sqPending) rfl rfl rfl
  | post hsqe => exact hkept (h.ring.post hsqe) rfl rfl rfl
  | @submit answer => exact hkept (h.ring.submitInner answer) rfl rfl rfl
  | client hi hclient => exact h.client hi hclient hb
  | reapBegin => exact hsame rfl rfl rfl
  | reapCqe _ hreap =>
    have hreaped := h.ring.reapCqe hreap hb
    obtain ⟨rest, hcq, -⟩ := Traffic.reap_eq_some.mp hreap
    refine ⟨h.kept rfl hreaped.routed ?_, _, ?_, hreaped.quiet⟩
    · exact (h.ring.valid.sameOps_reapCqe hreap).trans hreaped.same
    · simp only [kind, hcq, List.head?_cons, Option.elim_some]
      exact hreaped.move
  | reapEnd => exact hkept (h.ring.queuePendingCleanupsLocked hb) rfl rfl rfl
  | @reaperSubmit j answer => exact hkept (h.ring.submitInner answer) rfl rfl rfl
  | reaperWake | reaperReturn => exact hsame rfl rfl rfl

/-- A run is restricted by what its steps do to the tables. -/
def allows (guard : Table → Kind → Prop) (s : System) (a : Label) : Prop :=
  guard s.ring.table (s.kind a)

instance {guard : Table → Kind → Prop} [∀ v k, Decidable (guard v k)] (s : System) (a : Label) :
    Decidable (s.allows guard a) :=
  inferInstanceAs (Decidable (guard s.ring.table (s.kind a)))

theorem allocated_startMultishotAccept (r : Ring) (key : ℕ) (fd : ℤ) (waker : ℕ) :
    r.allocated ≤ (startMultishotAccept r key fd waker).2.allocated := by
  unfold startMultishotAccept
  split_ifs
  · exact Nat.le_refl _
  · rcases hnext : nextUserData r with ⟨result, r₁⟩
    have hr₁ : r.allocated ≤ r₁.allocated := by
      rw [← congrArg (fun p => p.2.allocated) hnext]
      exact Nat.le_succ _
    cases result with
    | error => exact hr₁
    | ok u =>
      dsimp only
      split
      · exact hr₁
      · rename_i hqueue
        rw [Ring.queueSqeLocked_eq_ok hqueue]
        exact hr₁

theorem allocated_startMultishotRecv (r : Ring) (key : ℕ) (fd : ℤ)
    (bufferSize bufferCount waker : ℕ) :
    r.allocated ≤ (startMultishotRecv r key fd bufferSize bufferCount waker).2.allocated := by
  unfold startMultishotRecv
  split_ifs
  · exact Nat.le_refl _
  · exact Nat.le_refl _
  · exact Nat.le_refl _
  · exact Nat.le_refl _
  · rcases hnext : nextUserData r with ⟨result, r₁⟩
    have hr₁ : r.allocated ≤ r₁.allocated := by
      rw [← congrArg (fun p => p.2.allocated) hnext]
      exact Nat.le_succ _
    cases result with
    | error => exact hr₁
    | ok u =>
      dsimp only
      split
      all_goals
        rename_i hsecond
        have hr₂ := hr₁.trans ((Nat.le_succ _).trans_eq (congrArg (fun p => p.2.allocated) hsecond))
      · exact hr₂
      · split
        · exact hr₂
        · rename_i hqueue
          rw [Ring.queueSqeLocked_eq_ok hqueue]
          split
          · exact hr₂
          · rename_i hqueue'
            rw [Ring.queueSqeLocked_eq_ok hqueue']
            exact hr₂

theorem allocated_run (r : Ring) (key waker : ℕ) (start : Start) :
    r.allocated ≤ (start.run r key waker).2.allocated := by
  cases start with
  | op request => exact (Nat.le_succ _).trans_eq (Ring.allocated_startOp r key request waker).symm
  | acceptMultishot fd => exact allocated_startMultishotAccept r key fd waker
  | recvMultishot fd bufferSize bufferCount =>
    exact allocated_startMultishotRecv r key fd bufferSize bufferCount waker

theorem allocated_poll (r : Ring) (f : Future) : (poll r f).1.allocated = r.allocated := by
  unfold poll takeMultishotEvent takeResult
  split_ifs
  · cases (r.ops.get f.key).bind fun op => op.multishot with
    | none => rfl
    | some m =>
      dsimp only
      cases m.events <;> rfl
  · cases r.ops.get f.key with
    | none => rfl
    | some op =>
      dsimp only
      cases op.result <;> rfl

theorem allocated_submitInner (r : Ring) (answer : Option ℕ) :
    (submitInner r answer).2.allocated = r.allocated := by
  obtain ⟨n, sqPending, heq⟩ := Ring.exists_submitInner_eq r answer
  rw [heq]

theorem allocated_client {r r' : Ring} {now : ℕ} {slot slot' : Slot} {move : ClientMove}
    (h : ClientStep r now slot move r' slot') : r.allocated ≤ r'.allocated := by
  induction h with
  | @start key key' waker start _ _ hrun | @startFailed key waker start _ _ hrun =>
    exact (allocated_run r key waker start).trans_eq (congrArg (fun p => p.2.allocated) hrun)
  | submit | submitCancel => rw [allocated_submitInner]
  | drop =>
    unfold orphan
    split
    · exact Nat.le_refl _
    · dsimp only
      split_ifs <;> exact Nat.le_refl _
  | poll => rw [allocated_poll]
  | finish =>
    unfold removeMultishot
    split <;> exact Nat.le_refl _
  | @cancel target => exact (Nat.le_succ _).trans_eq (Ring.Asks.queueCancel r target).allocated.symm
  | check | checkUnfinished | register | uncancel => exact Nat.le_refl _

theorem allocated_reapCqe (r : Ring) (cqe : Cqe) :
    r.allocated ≤ (reapCqe r cqe).1.allocated := by
  unfold reapCqe
  split
  · dsimp only
    rw [(Ring.counter_reapCancel _ _ _).2]
  · split
    · dsimp only
      split_ifs
      · rw [(Ring.counter_reapCleanup _ _ _).2]
      · rw [(Ring.counter_reapProvide _ _ _).2]
    · split
      · rename_i key _
        unfold reapOp
        cases r.ops.get key with
        | none => exact Nat.le_refl _
        | some op =>
          dsimp only
          split
          · exact Nat.le_refl _
          · dsimp only
            rw [(Ring.Asks.queueProvideBufferLocked ..).allocated]
            exact Nat.le_succ _
      · split
        · dsimp only
          rw [(Ring.counter_reapOrphan _ _ _).2]
        · exact Nat.le_refl _

theorem allocated_le {a : Label} (hstep : s.step a = some s') :
    s.ring.allocated ≤ s'.ring.allocated := by
  cases Steps.of_eq hstep with
  | consume | post | reapBegin | reaperWake | reaperReturn => exact Nat.le_refl _
  | submit | reaperSubmit => exact (allocated_submitInner ..).ge
  | client _ hclient => exact allocated_client hclient
  | @reapCqe _ _ cqe io => exact allocated_reapCqe { s.ring with io := io } cqe
  | reapEnd => exact (Nat.le_add_right _ _).trans_eq (Ring.allocated_queueCleanups ..).symm

theorem Quiet.keep {J : Table → Prop} {v v' : Table} (h : Quiet v v') (hvalid : v.Valid) (hJ : J v)
    (hmove : ∀ v v', v.Valid → J v → Move v .quiet v' → J v') : v'.Valid ∧ J v' := by
  induction h with
  | refl => exact ⟨hvalid, hJ⟩
  | tail _ hlast ih => exact ⟨ih.1.move hlast, hmove _ _ ih.1 ih.2 hlast⟩

theorem routed_of_reachable {guard : Table → Kind → Prop} {sqEntries futures : ℕ} {sqpoll : Bool}
    {J : Table → Prop} (hquiet : ∀ v, guard v .quiet)
    (hnew : J (Ring.new sqEntries sqpoll).table)
    (hmove : ∀ v k v', v.Valid → J v → guard v k → Move v k v' → J v')
    (h : Reachable System.step (allows guard) (.new sqEntries sqpoll futures) s)
    (hb : s.ring.allocated < 2 ^ 64) : s.Routed ∧ J s.ring.table := by
  induction h with
  | start => exact ⟨.new sqEntries sqpoll futures, hnew⟩
  | @next s s' a _ hallowed hstep ih =>
    obtain ⟨hrouted, hJ⟩ := ih ((allocated_le hstep).trans_lt hb)
    obtain ⟨hrouted', v, hfirst, hrest⟩ := hrouted.step hstep hb
    have hv : J v := hmove _ _ _ hrouted.ring.valid hJ hallowed hfirst
    refine ⟨hrouted', (Quiet.keep hrest (hrouted.ring.valid.move hfirst) hv ?_).2⟩
    intro v v' hvalid hv hlast
    exact hmove _ _ _ hvalid hv (hquiet _) hlast

end System

end Eddy.Uring
