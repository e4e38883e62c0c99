import Eddy.UringTeardown

/-!
# The destructor comes to its end

While an entry is left, something is outstanding whenever the thread waits. So the kernel posts a
completion, and the thread reaps again. Since requests for buffers are refused only now and then,
there are finitely many of them. Once all completions were reaped, no entry can be left.
-/

namespace Eddy.Uring
open Table Interleaving FairRuns

namespace Ring
variable {r r' : Ring}

structure Winding (r : Ring) : Prop where
  routed : r.Routed
  ops : ∀ u, r.table.op u = none
  lives : ∀ u, (r.table.life u).Sound ∧ (r.table.life u).Drains
  fits : r.Fits

/-- The lives of the operations go on. -/
theorem lives_move {v v' : Table} {k : Kind} (hvalid : v.Valid)
    (hlives : ∀ u, (v.life u).Sound ∧ (v.life u).Drains)
    (hguard : ∀ l : Life, l.DropsPolled k) (hmove : Move v k v') (u : ℕ) :
    (v'.life u).Sound ∧ (v'.life u).Drains := by
  obtain ⟨hsound, hdrains⟩ := hlives u
  rcases Move.life hvalid hsound hmove with heq | ⟨hstep, -⟩
  · rw [heq]
    exact ⟨hsound, hdrains⟩
  · exact ⟨hsound.step hstep, hdrains.step hsound (hguard _) hstep⟩

theorem lives_quiet {v v' : Table} (hvalid : v.Valid)
    (hlives : ∀ u, (v.life u).Sound ∧ (v.life u).Drains) (hquiet : Quiet v v') (u : ℕ) :
    (v'.life u).Sound ∧ (v'.life u).Drains := by
  refine (System.Quiet.keep (J := fun v => ∀ u, (v.life u).Sound ∧ (v.life u).Drains) hquiet hvalid
    hlives ?_).2 u
  intro v v' hvalid hlives hmove
  exact lives_move (k := .quiet) hvalid hlives (fun _ => trivial) hmove

theorem Winding.kept (h : r.Winding) (hkept : Kept r r') (hsteady : Steady r r') : r'.Winding := by
  refine ⟨hkept.routed, ?_, ?_, h.fits.steady hsteady⟩
  · intro u
    exact hkept.same.op_none.mpr (h.ops u)
  · exact lives_quiet h.routed.valid h.lives hkept.quiet

/-- No completion answers an operation with a future. -/
theorem Winding.index (h : r.Winding) (u : ℕ) : r.opsByUserData u = none :=
  (h.routed.valid.index u).mpr (h.ops u)

theorem Winding.table_reapCqe (h : r.Winding) (cqe : Cqe) (io : Traffic Sqe Cqe) :
    (Uring.reapCqe { r with io := io } cqe).1.table = Table.reapCqe { r.table with io := io } cqe :=
  (h.routed.reapCqe_other io fun _ _ => h.index _).2.1

theorem Winding.io_reapCqe (h : r.Winding) (cqe : Cqe) (io : Traffic Sqe Cqe) :
    (Uring.reapCqe { r with io := io } cqe).1.io = io := by
  have htable := congrArg Table.io (h.table_reapCqe cqe io)
  exact htable.trans (Table.io_reapCqe _ cqe)

theorem Winding.reapCqe (h : r.Winding) {cqe : Cqe} {io : Traffic Sqe Cqe}
    (hreap : r.io.reap = some (cqe, io))
    (hb : (Uring.reapCqe { r with io := io } cqe).1.allocated < 2 ^ 64) :
    (Uring.reapCqe { r with io := io } cqe).1.Winding := by
  have hreaped := h.routed.reapCqe hreap hb
  have hsame := (h.routed.valid.sameOps_reapCqe hreap).trans hreaped.same
  refine ⟨hreaped.routed, ?_, ?_, ?_⟩
  · intro u
    exact hsame.op_none.mpr (h.ops u)
  · have hlives := lives_move (k := .reap cqe) h.routed.valid h.lives (fun _ => trivial)
      hreaped.move
    exact lives_quiet (h.routed.valid.move hreaped.move) hlives hreaped.quiet
  · have hio : Steady r { r with io := io } := .of_eq rfl rfl rfl
    exact h.fits.steady (hio.trans (.reapCqe _ cqe))

theorem Winding.submitInner (h : r.Winding) (answer : Option ℕ) :
    (Uring.submitInner r answer).2.Winding :=
  h.kept (h.routed.submitInner answer) (.submitInner r answer)

theorem Winding.queuePendingCleanupsLocked (h : r.Winding)
    (hb : (Uring.queuePendingCleanupsLocked r).2.allocated < 2 ^ 64) :
    (Uring.queuePendingCleanupsLocked r).2.Winding :=
  h.kept (h.routed.queuePendingCleanupsLocked hb) (.queueCleanups r _)

theorem allocated_queueCancels (r : Ring) (targets : List ℕ) :
    r.allocated ≤ (Uring.queueCancels r targets).allocated ∧
      (targets ≠ [] → r.allocated + 1 ≤ (Uring.queueCancels r targets).allocated) := by
  induction targets generalizing r with
  | nil => exact ⟨Nat.le_refl _, fun hne => absurd rfl hne⟩
  | cons target targets ih =>
    suffices hnext : r.allocated + 1 ≤ (Uring.queueCancels r (target :: targets)).allocated from
      ⟨Nat.le_of_succ_le hnext, fun _ => hnext⟩
    obtain ⟨r', hasks, -, heq | heq⟩ := queueCancels_cases r target targets
    · rw [heq, hasks.allocated]
    · rw [heq, ← hasks.allocated]
      exact (ih r').1

/-- A cancellation of `Inner::drop` is queued like that of a dropped future. -/
theorem Routed.queueCancels_cons (h : r.Routed) (target : ℕ) (targets : List ℕ)
    (hb : r.allocated + 1 < 2 ^ 64) :
    Uring.queueCancels r (target :: targets) =
      Uring.queueCancels (Uring.queueCancel r target).2 targets := by
  rw [Uring.queueCancels]
  unfold Uring.queueCancel
  simp only [h.nextUserData hb]
  cases queueSqeLocked _ _ <;> rfl

theorem Winding.queueCancels (h : r.Winding) {targets : List ℕ}
    (htargets : ∀ target ∈ targets, ∃ sqe ∈ r.io.queued, sqe.userData = target ∧
      sqe.opcode.control = false)
    (hb : (Uring.queueCancels r targets).allocated < 2 ^ 64) :
    (Uring.queueCancels r targets).Winding := by
  induction targets generalizing r with
  | nil => exact h
  | cons target targets ih =>
    have hb₁ := ((allocated_queueCancels r (target :: targets)).2 (by simp)).trans_lt hb
    rw [h.routed.queueCancels_cons target targets hb₁] at hb ⊢
    have hkept := h.routed.queueCancel (h.ops target) (htargets target (by simp))
      ((allocated_queueCancels _ targets).1.trans_lt hb)
    refine ih (h.kept hkept (.of_asks (.queueCancel r target))) ?_ hb
    intro other hother
    obtain ⟨sqe, hsqe, hstarted⟩ := htargets other (by simp [hother])
    exact ⟨sqe, hkept.same.queued sqe hsqe, hstarted⟩

theorem io_submitInner (r : Ring) (answer : Option ℕ) :
    ∃ n, (Uring.submitInner r answer).2.io = r.io.consume n := by
  obtain ⟨n, sqPending, heq⟩ := exists_submitInner_eq r answer
  exact ⟨n, congrArg Ring.io heq⟩

theorem io_queueCancels (r : Ring) (targets : List ℕ) :
    ∃ sqes, (Uring.queueCancels r targets).io = r.io.queueAll sqes := by
  induction targets generalizing r with
  | nil => exact ⟨[], r.io.queueAll_nil.symm⟩
  | cons target targets ih =>
    obtain ⟨r', -, hio, heq⟩ := queueCancels_cases r target targets
    have hrest : ∃ sqes, (Uring.queueCancels r (target :: targets)).io = r'.io.queueAll sqes := by
      rcases heq with heq | heq
      · exact ⟨[], by rw [heq, Traffic.queueAll_nil]⟩
      · rw [heq]
        exact ih r'
    obtain ⟨sqes, hsqes⟩ := hrest
    rcases hio with hio | ⟨sqe, hio⟩
    · exact ⟨sqes, by rw [hsqes, hio]⟩
    · exact ⟨sqe :: sqes, by rw [hsqes, hio, Traffic.queueAll_queue]⟩

theorem io_queueCleanup (r : Ring) (request : ℕ × ℕ × ℕ) :
    (Uring.queueCleanup r request).2.io = r.io ∨
      ∃ sqe : Sqe, (Uring.queueCleanup r request).2.io = r.io.queue sqe ∧
        sqe.opcode = .removeBuffers ∧ sqe.owner = request.1 := by
  obtain ⟨target, count, group⟩ := request
  unfold Uring.queueCleanup Uring.queueRemoveBuffersLocked
  rcases hnext : Uring.nextUserData r with ⟨result, r₁⟩
  obtain rfl : r₁ = (Uring.nextUserData r).2 := by rw [hnext]
  cases result with
  | error => exact .inl rfl
  | ok u =>
    dsimp only
    cases hqueue : queueSqeLocked (Uring.nextUserData r).2 _ with
    | error => exact .inl rfl
    | ok r₂ =>
      rw [queueSqeLocked_eq_ok hqueue]
      exact .inr ⟨_, rfl, rfl, rfl⟩

theorem io_queueCleanups (r : Ring) (requests : List (ℕ × ℕ × ℕ)) :
    ∃ sqes : List Sqe, (Uring.queueCleanups r requests).2.io = r.io.queueAll sqes ∧
      ∀ sqe ∈ sqes, sqe.opcode = .removeBuffers ∧ ∃ request ∈ requests, sqe.owner = request.1 := by
  induction requests generalizing r with
  | nil => exact ⟨[], r.io.queueAll_nil.symm, nofun⟩
  | cons request requests ih =>
    obtain ⟨sqes, hio, hsqes⟩ := ih (Uring.queueCleanup r request).2
    have hold : ∀ sqe ∈ sqes, sqe.opcode = .removeBuffers ∧
        ∃ other ∈ request :: requests, sqe.owner = other.1 := by
      intro sqe hsqe
      obtain ⟨hopcode, other, hother, howner⟩ := hsqes sqe hsqe
      exact ⟨hopcode, other, List.mem_cons_of_mem _ hother, howner⟩
    rcases io_queueCleanup r request with hsame | ⟨sqe, hqueue, hopcode, howner⟩
    · rw [hsame] at hio
      exact ⟨sqes, hio, hold⟩
    · rw [hqueue, Traffic.queueAll_queue] at hio
      refine ⟨sqe :: sqes, hio, ?_⟩
      intro a ha
      rcases List.mem_cons.mp ha with rfl | ha
      · exact ⟨hopcode, request, List.mem_cons_self, howner⟩
      · exact hold a ha

/-- What is queued at the end of a reap takes the buffers of streams back. -/
theorem io_queuePendingCleanupsLocked (r : Ring) :
    ∃ sqes : List Sqe, (Uring.queuePendingCleanupsLocked r).2.io = r.io.queueAll sqes ∧
      ∀ sqe ∈ sqes, sqe.opcode = .removeBuffers ∧
        ∃ op ∈ r.entries, ∃ count group, cleanupRequest op = some (sqe.owner, count, group) := by
  obtain ⟨sqes, hio, hsqes⟩ := io_queueCleanups r (r.entries.filterMap cleanupRequest)
  refine ⟨sqes, hio, fun sqe hsqe => ?_⟩
  obtain ⟨hopcode, ⟨target, count, group⟩, hrequest, howner⟩ := hsqes sqe hsqe
  obtain ⟨op, hop, heq⟩ := List.mem_filterMap.mp hrequest
  exact ⟨hopcode, op, hop, count, group, heq.trans (by rw [howner])⟩

theorem le_length_of_error {sqe : Sqe} {error : IoError} (h : queueSqeLocked r sqe = .error error) :
    r.sqEntries ≤ r.io.sq.length := by
  unfold queueSqeLocked at h
  split_ifs at h with hfull
  exact hfull

/-- A request for buffers is queued unless the queue is full. -/
theorem Winding.sq_ne_nil (h : r.Winding) {requests : List (ℕ × ℕ × ℕ)} (hne : requests ≠ [])
    (hb : (Uring.queueCleanups r requests).2.allocated < 2 ^ 64) :
    (Uring.queueCleanups r requests).2.io.sq ≠ [] := by
  cases requests with
  | nil => exact absurd rfl hne
  | cons request requests =>
    obtain ⟨target, count, group⟩ := request
    have hfirst : (Uring.queueCleanup r (target, count, group)).2.io.sq ≠ [] := by
      rw [allocated_queueCleanups, List.length_cons] at hb
      unfold Uring.queueCleanup Uring.queueRemoveBuffersLocked
      simp only [h.routed.nextUserData (show r.allocated + 1 < 2 ^ 64 by omega)]
      cases hqueue : queueSqeLocked _ _ with
      | error =>
        have hfull := le_length_of_error hqueue
        have hroom := h.fits.room
        exact List.ne_nil_of_length_pos (hroom.trans_le hfull)
      | ok r₂ =>
        rw [queueSqeLocked_eq_ok hqueue]
        simp [Traffic.queue]
    obtain ⟨sqes, hio, -⟩ := io_queueCleanups (Uring.queueCleanup r (target, count, group)).2 requests
    change (Uring.queueCleanups (Uring.queueCleanup r (target, count, group)).2 requests).2.io.sq ≠ []
    rw [hio]
    simp [Traffic.queueAll, hfirst]

theorem Winding.mem_outstanding (h : r.Winding) {sqe : Sqe} (hsqe : sqe ∈ r.io.queued)
    (hreaped : ∀ cqe ∈ r.io.reaped, cqe.sqe = sqe → cqe.last = false) :
    sqe ∈ outstanding r.io := by
  simp only [outstanding, List.mem_append, List.mem_map]
  rcases h.routed.valid.io.unread hsqe hreaped with hsq | hflight | ⟨cqe, hcqe, rfl⟩
  · exact .inl (.inl hsq)
  · exact .inl (.inr hflight)
  · exact .inr ⟨cqe, hcqe, rfl⟩

variable {op : OrphanedOp} {u : ℕ}

theorem Winding.mem_of_orphan (h : r.Winding)
    (horphan : r.table.orphan u = some op) : op ∈ r.entries := by
  have huser := (h.routed.valid.orphan u op horphan).1
  exact List.mem_append_right _ (h.routed.orphaned.mem_values.mpr (huser.symm ▸ horphan))

/-- The entry of an operation that is not about to ask for its buffers waits for a completion. -/
theorem Winding.outstanding_ne_nil (h : r.Winding)
    (horphan : r.table.orphan u = some op) (hrequest : cleanupRequest op = none) :
    outstanding r.io ≠ [] := by
  obtain ⟨hsound, hdrains⟩ := h.lives u
  obtain ⟨huser, started, hstarted, hstarts⟩ := h.routed.valid.orphan u op horphan
  cases hfinished : (r.table.life u).finished with
  | false =>
    refine List.ne_nil_of_mem (h.mem_outstanding hstarted ?_)
    rintro cqe hcqe rfl
    by_contra hlast
    have huser' : cqe.userData = u := hstarts.1.trans huser
    have hanswer := mem_answers (v := r.table) hcqe hstarts.2.2.1
    rw [huser'] at hanswer
    have hdone : (r.table.life u).finished = true :=
      List.any_eq_true.mpr ⟨cqe, hanswer, by simpa using hlast⟩
    rw [hfinished] at hdone
    cases hdone
  | true =>
    obtain ⟨m, bufferSize, group, hm, hkind, hterminal, hcomplete, -⟩ :=
      hdrains.waits hsound horphan hfinished
    have hheld : (r.table.life u).held = some op := Life.held_of_orphan (h.ops u) horphan
    have hbooked := hdrains.books.stream op m hheld hm
    cases hasked : m.cleanupUserData with
    | none =>
      have hcount : op.resource.poolLength / bufferSize < 2 ^ 16 :=
        h.fits.counted op (h.mem_of_orphan horphan) bufferSize group
          (by simp [OrphanedOp.pool, hm, hkind])
      have hmany : 2 ^ 16 ≤ op.resource.poolLength / bufferSize := by
        simpa [cleanupRequest, hm, hterminal, hcomplete, hasked, hkind] using hrequest
      omega
    | some c =>
      obtain ⟨sqe, hsqe, -, hout⟩ := hbooked.asked c hasked
      refine List.ne_nil_of_mem (h.mem_outstanding (List.mem_of_mem_filter hsqe) ?_)
      rintro cqe hcqe rfl
      exact absurd rfl (hout cqe (List.mem_filter.mpr ⟨hcqe, (List.mem_filter.mp hsqe).2⟩))

theorem Winding.reapEnd (h : r.Winding)
    (horphan : (Uring.queuePendingCleanupsLocked r).2.table.orphan u = some op)
    (hb : (Uring.queuePendingCleanupsLocked r).2.allocated < 2 ^ 64) :
    outstanding (Uring.queuePendingCleanupsLocked r).2.io ≠ [] := by
  unfold Uring.queuePendingCleanupsLocked at horphan hb ⊢
  cases hrequests : (r.ops.values.map OpState.toOrphanedOp ++ r.orphaned.values).filterMap
      cleanupRequest with
  | nil =>
    rw [hrequests] at horphan
    have horphan : r.table.orphan u = some op := horphan
    refine h.outstanding_ne_nil horphan ?_
    exact List.filterMap_eq_nil_iff.mp hrequests op (h.mem_of_orphan horphan)
  | cons request requests =>
    rw [hrequests] at hb
    have hsq := h.sq_ne_nil (List.cons_ne_nil request requests) hb
    intro hnil
    simp only [outstanding, List.append_eq_nil_iff] at hnil
    exact hsq hnil.1.1

end Ring

/-- The thread has reaped and not begun again. -/
def Place.settled : Place → Bool
  | .reaped _ | .count | .enter => true
  | _ => false

theorem outstanding_consume_ne_nil {io : Traffic Sqe Cqe} (h : outstanding io ≠ []) (n : ℕ) :
    outstanding (io.consume n) ≠ [] := by
  intro hnil
  apply h
  have hsplit := List.take_append_drop n io.sq
  simp only [outstanding, Traffic.consume, List.append_eq_nil_iff] at hnil
  obtain ⟨⟨hdrop, hflight, htake⟩, hcq⟩ := hnil
  rw [hdrop, htake] at hsplit
  simp [outstanding, ← hsplit, hflight, hcq]

theorem orphan_submitInner (r : Ring) (answer : Option ℕ) :
    (submitInner r answer).2.table.orphan = r.table.orphan := by
  obtain ⟨n, sqPending, heq⟩ := Ring.exists_submitInner_eq r answer
  rw [heq]
  rfl

/-- Nothing has a result when no operation has a future. -/
theorem Ring.Winding.ops_values {r : Ring} (h : r.Winding) : r.ops.values = [] := by
  refine List.eq_nil_iff_forall_not_mem.mpr fun op hop => ?_
  have hlookup : r.table.op op.userData = some op := h.routed.ops.mem_values.mp hop
  rw [h.ops] at hlookup
  cases hlookup

theorem Ring.Winding.dropCompleted {r : Ring} (h : r.Winding) : dropCompleted r = r := by
  have hnone : r.ops.entries = [] := by
    refine List.eq_nil_iff_forall_not_mem.mpr fun ⟨key, op⟩ hop => ?_
    have hmem := Slab.mem_values_of_mem_entries hop
    rw [h.ops_values] at hmem
    cases hmem
  simp [Uring.dropCompleted, hnone]

theorem Ring.Winding.orphan_of_mem {r : Ring} (h : r.Winding) {op : OrphanedOp}
    (hop : op ∈ r.entries) : r.table.orphan op.userData = some op := by
  simp only [Ring.entries, h.ops_values, List.map_nil, List.nil_append] at hop
  exact h.routed.orphaned.mem_values.mp hop

/-- The thread has not come to its loop. -/
def Place.early : Place → Bool
  | .submit | .cancel | .submitCancels _ => true
  | _ => false

def Place.reads : Place → Bool
  | .reaping (_ + 1) _ => true
  | _ => false

namespace Teardown
variable {t t' : Teardown}

/-- What a section of `Inner::drop` can do. -/
inductive Ran (t : Teardown) : Teardown → Prop where
  | submit {answer : Option ℕ} : t.place = .submit →
      Ran t { t with ring := (submitInner t.ring answer).2, place := .cancel }
  | cancel : t.place = .cancel →
      Ran t { t with
        ring := queueCancels t.ring (t.ring.entries.map OrphanedOp.userData)
        place := .submitCancels (t.ring.entries.map OrphanedOp.userData) }
  | submitCancels {answer : Option ℕ} {targets : List ℕ} : t.place = .submitCancels targets →
      Ran t { t with
        ring := (submitInner t.ring answer).2
        place := if targets.isEmpty then .closed else .loop }
  | reapBegin : t.place = .loop →
      Ran t { t with place := .reaping t.ring.io.cq.length ⟨false, []⟩ }
  | reapCqe {available : ℕ} {reaper : Reaper} {cqe : Cqe} {io : Traffic Sqe Cqe} :
      t.place = .reaping (available + 1) reaper → t.ring.io.reap = some (cqe, io) →
      Ran t { t with
        ring := (reapCqe { t.ring with io := io } cqe).1
        place := .reaping available
          ⟨reaper.refill || (reapCqe { t.ring with io := io } cqe).2.2,
            reaper.wake ++ (reapCqe { t.ring with io := io } cqe).2.1⟩ }
  | reapEnd {reaper : Reaper} : t.place = .reaping 0 reaper →
      Ran t { t with
        ring := (queuePendingCleanupsLocked t.ring).2
        place := .reaped { reaper with
          refill := reaper.refill || (queuePendingCleanupsLocked t.ring).1 } }
  | submitReaped {answer : Option ℕ} {wake : List ℕ} : t.place = .reaped ⟨true, wake⟩ →
      Ran t { t with ring := (submitInner t.ring answer).2, place := .reaped ⟨false, wake⟩ }
  | wake {wake : List ℕ} : t.place = .reaped ⟨false, wake⟩ →
      Ran t { t with place := .count, wakes := t.wakes ++ wake }
  | count : t.place = .count →
      Ran t { t with
        ring := dropCompleted t.ring
        place := if (dropCompleted t.ring).ops.values.length +
          (dropCompleted t.ring).orphaned.values.length = 0 then .closed else .enter }
  | enter : t.place = .enter → Ran t { t with place := .loop }
  | failed : t.place = .enter → Ran t { t with place := .closed }

theorem Ran.of_eq {answer : Option ℕ} {enter : Enter} (h : t.run answer enter = some t') :
    Ran t t' := by
  unfold run at h
  split at h
  · rename_i hplace
    cases h
    exact .submit hplace
  · rename_i hplace
    cases h
    exact .cancel hplace
  · rename_i hplace
    cases h
    exact .submitCancels hplace
  · rename_i hplace
    cases h
    exact .reapBegin hplace
  · rename_i hplace
    obtain ⟨⟨cqe, io⟩, hreap, rfl⟩ := Option.map_eq_some_iff.mp h
    exact .reapCqe hplace hreap
  · rename_i hplace
    cases h
    exact .reapEnd hplace
  · rename_i hplace
    cases h
    exact .submitReaped hplace
  · rename_i hplace
    cases h
    exact .wake hplace
  · rename_i hplace
    cases h
    exact .count hplace
  · rename_i hplace
    cases enter with
    | event =>
      simp only at h
      split_ifs at h
      cases h
      exact .enter hplace
    | interrupted =>
      cases h
      exact .enter hplace
    | failed =>
      cases h
      exact .failed hplace
  · cases h

/-- What the kernel can do, or the thread. -/
inductive Steps (t : Teardown) : Label → Teardown → Prop where
  | consume {n : ℕ} : Steps t (.consume n) { t with
      ring := { t.ring with io := t.ring.io.consume n } }
  | post {i : ℕ} {res : ℤ} {flags : ℕ} {sqe : Sqe} : t.ring.io.inFlight[i]? = some sqe →
      Steps t (.post i res flags) { t with
        ring := { t.ring with io := t.ring.io.post Cqe.last i ⟨sqe, res, flags⟩ } }
  | run {answer : Option ℕ} {enter : Enter} {t' : Teardown} : Ran t t' →
      Steps t (.run answer enter) t'

theorem Steps.of_eq {a : Label} (h : t.step a = some t') : Steps t a t' := by
  cases a with
  | consume n =>
    simp only [step] at h
    split_ifs at h
    cases h
    exact .consume
  | post i res flags =>
    obtain ⟨sqe, hsqe, rfl⟩ := Option.map_eq_some_iff.mp h
    exact .post hsqe
  | run answer enter => exact .run (.of_eq h)

structure Sound (t : Teardown) : Prop where
  ring : t.ring.Winding
  available : ∀ available reaper, t.place = .reaping available reaper →
    available ≤ t.ring.io.cq.length
  /-- While an entry is left, the kernel or the thread has something to do. -/
  settled : t.place.settled = true → ∀ u op, t.ring.table.orphan u = some op →
    outstanding t.ring.io ≠ []
  waiting : t.place = .enter → ∃ u op, t.ring.table.orphan u = some op

theorem Sound.begin {r : Ring} (h : r.Winding) : (Teardown.begin r).Sound :=
  ⟨h, nofun, nofun, nofun⟩

theorem Sound.ran (h : t.Sound) (hran : Ran t t') (hb : t'.ring.allocated < 2 ^ 64) : t'.Sound := by
  induction hran with
  | submit => exact ⟨h.ring.submitInner _, nofun, nofun, nofun⟩
  | cancel =>
    refine ⟨h.ring.queueCancels ?_ hb, nofun, nofun, nofun⟩
    intro target htarget
    obtain ⟨op, hop, rfl⟩ := List.mem_map.mp htarget
    obtain ⟨-, sqe, hsqe, hstarts⟩ := h.ring.routed.valid.orphan _ op (h.ring.orphan_of_mem hop)
    exact ⟨sqe, hsqe, hstarts.1, hstarts.2.2.1⟩
  | submitCancels =>
    split
    · exact ⟨h.ring.submitInner _, nofun, nofun, nofun⟩
    · exact ⟨h.ring.submitInner _, nofun, nofun, nofun⟩
  | reapBegin =>
    refine ⟨h.ring, ?_, nofun, nofun⟩
    intro available reaper heq
    cases heq
    exact Nat.le_refl _
  | @reapCqe available reaper cqe io hplace hreap =>
    refine ⟨h.ring.reapCqe hreap hb, ?_, nofun, nofun⟩
    intro available' reaper' heq
    cases heq
    obtain ⟨rest, hcq, rfl⟩ := Traffic.reap_eq_some.mp hreap
    have hbefore := h.available _ _ hplace
    rw [hcq, List.length_cons] at hbefore
    rw [h.ring.io_reapCqe]
    exact Nat.le_of_succ_le_succ hbefore
  | reapEnd =>
    refine ⟨h.ring.queuePendingCleanupsLocked hb, nofun, ?_, nofun⟩
    intro _ u op horphan
    exact h.ring.reapEnd horphan hb
  | @submitReaped answer wake hplace =>
    refine ⟨h.ring.submitInner _, nofun, ?_, nofun⟩
    intro _ u op horphan
    obtain ⟨n, hio⟩ := Ring.io_submitInner t.ring answer
    dsimp only at horphan
    rw [orphan_submitInner] at horphan
    rw [hio]
    exact outstanding_consume_ne_nil (h.settled (by rw [hplace]; rfl) u op horphan) n
  | wake hplace =>
    refine ⟨h.ring, nofun, ?_, nofun⟩
    intro _
    exact h.settled (by rw [hplace]; rfl)
  | count hplace =>
    rw [h.ring.dropCompleted, h.ring.ops_values, List.length_nil, Nat.zero_add]
    split
    · exact ⟨h.ring, nofun, nofun, nofun⟩
    · rename_i hleft
      obtain ⟨op, hop⟩ := List.exists_mem_of_length_pos (Nat.pos_of_ne_zero hleft)
      refine ⟨h.ring, nofun, ?_, ?_⟩
      · intro _
        exact h.settled (by rw [hplace]; rfl)
      · intro _
        exact ⟨op.userData, op, h.ring.routed.orphaned.mem_values.mp hop⟩
  | enter | failed => exact ⟨h.ring, nofun, nofun, nofun⟩

theorem Sound.step {a : Label} (h : t.Sound) (hstep : t.step a = some t')
    (hb : t'.ring.allocated < 2 ^ 64) : t'.Sound := by
  cases Steps.of_eq hstep with
  | @consume n =>
    refine ⟨h.ring.kept (h.ring.routed.consume n t.ring.sqPending) (.of_eq rfl rfl rfl),
      h.available, ?_, h.waiting⟩
    intro hsettled u op horphan
    exact outstanding_consume_ne_nil (h.settled hsettled u op horphan) n
  | @post i res flags sqe hsqe =>
    refine ⟨h.ring.kept (h.ring.routed.post hsqe) (.of_eq rfl rfl rfl), ?_, ?_, h.waiting⟩
    · intro available reaper heq
      have hbefore := h.available available reaper heq
      simp only [Traffic.post, List.length_append]
      exact Nat.le_add_right_of_le hbefore
    · intro _ u op _
      simp [outstanding, Traffic.post]
  | run hran => exact h.ran hran hb

/-- No entry comes, and neither submissions nor completions are forgotten. -/
structure Advances (t t' : Teardown) : Prop where
  orphan : ∀ u op', t'.ring.table.orphan u = some op' → ∃ op, t.ring.table.orphan u = some op
  queued : ∀ sqe ∈ t.ring.io.queued, sqe ∈ t'.ring.io.queued
  reaped : ∀ cqe ∈ t.ring.io.reaped, cqe ∈ t'.ring.io.reaped

theorem Advances.refl (t : Teardown) : Advances t t :=
  ⟨fun _ op h => ⟨op, h⟩, fun _ h => h, fun _ h => h⟩

theorem Advances.trans {t'' : Teardown} (h : Advances t t') (h' : Advances t' t'') :
    Advances t t'' := by
  refine ⟨?_, fun sqe hsqe => h'.queued sqe (h.queued sqe hsqe),
    fun cqe hcqe => h'.reaped cqe (h.reaped cqe hcqe)⟩
  intro u op'' hop''
  obtain ⟨op', hop'⟩ := h'.orphan u op'' hop''
  exact h.orphan u op' hop'

theorem Sound.steady (h : t.Sound) (hran : Ran t t') : t.ring.Steady t'.ring := by
  induction hran with
  | submit | submitCancels | submitReaped => exact .submitInner ..
  | cancel => exact .queueCancels ..
  | reapBegin | wake | enter | failed => exact .of_eq rfl rfl rfl
  | @reapCqe _ _ cqe io =>
    have hio : t.ring.Steady { t.ring with io := io } := .of_eq rfl rfl rfl
    exact hio.trans (.reapCqe _ cqe)
  | reapEnd => exact .queueCleanups ..
  | count =>
    rw [h.ring.dropCompleted]
    exact .of_eq rfl rfl rfl

/-- What a section does to the submissions and completions. -/
inductive Transfers (t t' : Teardown) : Prop where
  | consume {n : ℕ} : t.place.reads = false → t'.ring.io = t.ring.io.consume n → Transfers t t'
  | queue {sqes : List Sqe} : t.place.reads = false → t'.ring.io = t.ring.io.queueAll sqes →
      (t.place.early = false → ∀ sqe ∈ sqes, sqe.opcode = .removeBuffers ∧
        ∃ op ∈ t.ring.entries, ∃ count group,
          cleanupRequest op = some (sqe.owner, count, group)) → Transfers t t'
  | reap {available : ℕ} {reaper reaper' : Reaper} {cqe : Cqe} :
      t.place = .reaping (available + 1) reaper → t'.place = .reaping available reaper' →
      t.ring.io.reap = some (cqe, t'.ring.io) → Transfers t t'

theorem Sound.transfers (h : t.Sound) (hran : Ran t t') : Transfers t t' := by
  induction hran with
  | @submit answer hplace | @submitCancels answer _ hplace | @submitReaped answer _ hplace =>
    obtain ⟨n, hio⟩ := Ring.io_submitInner t.ring answer
    refine .consume ?_ hio
    rw [hplace]
    rfl
  | cancel hplace =>
    obtain ⟨sqes, hio⟩ := Ring.io_queueCancels t.ring (t.ring.entries.map OrphanedOp.userData)
    refine .queue ?_ hio ?_ <;> rw [hplace]
    · rfl
    · intro hearly
      cases hearly
  | reapBegin hplace | wake hplace | enter hplace | failed hplace =>
    refine .consume ?_ t.ring.io.consume_zero.symm
    rw [hplace]
    rfl
  | @reapCqe _ _ cqe io hplace hreap =>
    have hio : t.ring.io.reap = some (cqe, (reapCqe { t.ring with io := io } cqe).1.io) := by
      rw [h.ring.io_reapCqe]
      exact hreap
    exact .reap hplace rfl hio
  | reapEnd hplace =>
    obtain ⟨sqes, hio, hsqes⟩ := Ring.io_queuePendingCleanupsLocked t.ring
    refine .queue ?_ hio fun _ => hsqes
    rw [hplace]
    rfl
  | count hplace =>
    rw [h.ring.dropCompleted]
    refine .consume ?_ t.ring.io.consume_zero.symm
    rw [hplace]
    rfl

theorem Sound.advances (h : t.Sound) (h' : t'.Sound) (hran : Ran t t') : Advances t t' := by
  have horphan : ∀ u op', t'.ring.table.orphan u = some op' →
      ∃ op, t.ring.table.orphan u = some op := by
    intro u op' hop'
    have huser := (h'.ring.routed.valid.orphan u op' hop').1
    obtain ⟨op, hop, hshape⟩ := (h.steady hran).entries op' (h'.ring.mem_of_orphan hop')
    have huser' := (Ring.userData_of_shape hshape).symm.trans huser
    exact ⟨op, huser' ▸ h.ring.orphan_of_mem hop⟩
  refine ⟨horphan, ?_, ?_⟩
  · intro sqe hsqe
    cases h.transfers hran with
    | consume _ hio =>
      rw [hio]
      exact hsqe
    | queue _ hio =>
      rw [hio]
      exact List.mem_append_left _ hsqe
    | reap _ _ hreap =>
      obtain ⟨rest, -, hio⟩ := Traffic.reap_eq_some.mp hreap
      rw [hio]
      exact hsqe
  · intro cqe hcqe
    cases h.transfers hran with
    | consume _ hio | queue _ hio =>
      rw [hio]
      exact hcqe
    | reap _ _ hreap =>
      obtain ⟨rest, -, hio⟩ := Traffic.reap_eq_some.mp hreap
      rw [hio]
      exact List.mem_append_left _ hcqe

/-- What the kernel does, or nothing. -/
structure Idles (t t' : Teardown) : Prop where
  place : t'.place = t.place
  orphan : t'.ring.table.orphan = t.ring.table.orphan
  queued : t'.ring.io.queued = t.ring.io.queued
  reaped : t'.ring.io.reaped = t.ring.io.reaped
  cq : ∃ more, t'.ring.io.cq = t.ring.io.cq ++ more

theorem Idles.advances (h : Idles t t') : Advances t t' := by
  refine ⟨?_, ?_, ?_⟩
  · intro u op hop
    exact ⟨op, h.orphan ▸ hop⟩
  · rw [h.queued]
    exact fun _ hsqe => hsqe
  · rw [h.reaped]
    exact fun _ hcqe => hcqe

theorem Steps.ran_or_idles {a : Label} (h : Steps t a t') :
    Own a ∧ Ran t t' ∨ ¬ Own a ∧ Idles t t' := by
  induction h with
  | consume => exact .inr ⟨id, rfl, rfl, rfl, rfl, [], (List.append_nil _).symm⟩
  | post => exact .inr ⟨id, rfl, rfl, rfl, rfl, _, rfl⟩
  | run hran => exact .inl ⟨trivial, hran⟩

theorem ran_or_idles {ρ : ℕ → Teardown} {act : ℕ → Option Label} (h : Runs step ρ act) (n : ℕ) :
    Acts Own act n ∧ Ran (ρ n) (ρ (n + 1)) ∨ ¬ Acts Own act n ∧ Idles (ρ n) (ρ (n + 1)) := by
  have hmoment := h n
  cases ha : act n with
  | none =>
    refine .inr ⟨by simp [Acts, ha], ?_⟩
    rw [ha] at hmoment
    have hsame : ρ (n + 1) = ρ n := hmoment
    rw [hsame]
    exact ⟨rfl, rfl, rfl, rfl, [], (List.append_nil _).symm⟩
  | some a =>
    rw [ha] at hmoment
    have hacts : Acts Own act n ↔ Own a := by simp [Acts, ha]
    rw [hacts]
    exact (Steps.of_eq (show (ρ n).step a = some (ρ (n + 1)) from hmoment)).ran_or_idles

structure Endless (ρ : ℕ → Teardown) (act : ℕ → Option Label) : Prop where
  runs : Runs step ρ act
  fair : Fair Own Ready ρ act
  served : Served ρ
  sound : ∀ n, (ρ n).Sound
  alive : ∀ n, (ρ n).place ≠ .closed

/-- How far the thread is from reading a completion before which it finds `p` others. -/
def rank (p : ℕ) : Place → ℕ
  | .submit => p + 9
  | .cancel => p + 8
  | .submitCancels _ => p + 7
  | .loop => p + 1
  | .reaping available _ => if p < available then p else p + 6
  | .reaped reaper => if reaper.refill then p + 5 else p + 4
  | .count => p + 3
  | .enter => p + 2
  | .closed => 0

/-- A section that reads no completion brings the thread nearer to the next one. -/
theorem Ran.rank_lt (h : Ran t t') (halive : t'.place ≠ .closed) (hreads : t.place.reads = false)
    {p : ℕ} (hp : p < t.ring.io.cq.length) : rank p t'.place < rank p t.place := by
  induction h with
  | submit hplace | cancel hplace | submitReaped hplace | wake hplace | enter hplace =>
    simp [hplace, rank]
  | submitCancels hplace | count hplace =>
    dsimp only at halive ⊢
    split_ifs at halive ⊢
    · exact absurd rfl halive
    · simp [hplace, rank]
  | reapBegin hplace => simp [hplace, rank, hp]
  | reapCqe hplace =>
    rw [hplace] at hreads
    cases hreads
  | reapEnd hplace =>
    simp only [hplace, rank, Nat.not_lt_zero, ↓reduceIte]
    split_ifs <;> omega
  | failed => exact absurd rfl halive

theorem Sound.nearer (h : t.Sound) (hran : Ran t t') (halive : t'.place ≠ .closed) {cqe : Cqe}
    {before after : List Cqe} (hcq : t.ring.io.cq = before ++ cqe :: after) :
    cqe ∈ t'.ring.io.reaped ∨ ∃ before' after', t'.ring.io.cq = before' ++ cqe :: after' ∧
      rank before'.length t'.place < rank before.length t.place := by
  have hp : before.length < t.ring.io.cq.length := by simp [hcq]
  cases h.transfers hran with
  | consume hreads hio | queue hreads hio =>
    refine .inr ⟨before, after, ?_, hran.rank_lt halive hreads hp⟩
    rw [hio]
    exact hcq
  | reap hplace hplace' hreap =>
    obtain ⟨rest, hfirst, hio⟩ := Traffic.reap_eq_some.mp hreap
    rw [hcq] at hfirst
    rw [hio]
    cases before with
    | nil =>
      cases hfirst
      exact .inl (List.mem_append_right _ (List.mem_singleton_self _))
    | cons b before =>
      cases hfirst
      refine .inr ⟨before, after, rfl, ?_⟩
      simp only [hplace, hplace', rank, List.length_cons]
      split_ifs <;> omega

section Endless
variable {ρ : ℕ → Teardown} {act : ℕ → Option Label}

theorem Endless.advances (h : Endless ρ act) {n m : ℕ} (hm : n ≤ m) : Advances (ρ n) (ρ m) := by
  induction m, hm using Nat.le_induction with
  | base => exact .refl _
  | succ m hm ih =>
    refine ih.trans ?_
    rcases ran_or_idles h.runs m with ⟨-, hran⟩ | ⟨-, hidles⟩
    · exact (h.sound m).advances (h.sound (m + 1)) hran
    · exact hidles.advances

/-- Every completion is read. -/
theorem Endless.reaps (h : Endless ρ act) {n : ℕ} {cqe : Cqe} (hcqe : cqe ∈ (ρ n).ring.io.cq) :
    ∃ m, n ≤ m ∧ cqe ∈ (ρ m).ring.io.reaped := by
  obtain ⟨before, after, hcq⟩ := List.append_of_mem hcqe
  let P : ℕ → ℕ → Prop := fun k n => ∃ before after, (ρ n).ring.io.cq = before ++ cqe :: after ∧
    rank before.length (ρ n).place = k
  refine h.fair.eventually (P := P) ?_ ?_ ?_ ⟨before, after, hcq, rfl⟩
  · rintro k n ⟨before, after, hcq, -⟩
    refine ⟨h.alive n, fun _ => ?_⟩
    simp [hcq]
  · rintro k n ⟨before, after, hcq, hrank⟩ hidle
    rcases ran_or_idles h.runs n with ⟨hacts, -⟩ | ⟨-, hidles⟩
    · exact absurd hacts hidle
    · obtain ⟨more, hmore⟩ := hidles.cq
      refine .inr ⟨before, after ++ more, ?_, ?_⟩
      · rw [hmore, hcq]
        simp
      · rw [hidles.place]
        exact hrank
  · rintro k n ⟨before, after, hcq, hrank⟩ hacts
    rcases ran_or_idles h.runs n with ⟨-, hran⟩ | ⟨hidle, -⟩
    · rcases (h.sound n).nearer hran (h.alive (n + 1)) hcq with hdone | ⟨before', after', hcq', hless⟩
      · exact .inl hdone
      · exact .inr ⟨_, hrank ▸ hless, before', after', hcq', rfl⟩
    · exact absurd hacts hidle

theorem Endless.completes (h : Endless ρ act) {n : ℕ} {sqe : Sqe}
    (hsqe : sqe ∈ (ρ n).ring.io.queued) :
    ∃ m, n ≤ m ∧ ∃ cqe ∈ (ρ m).ring.io.reaped, cqe.sqe = sqe ∧ cqe.last = true := by
  have hposted : ∃ m, n ≤ m ∧ ∃ cqe ∈ (ρ m).ring.io.posted, cqe.sqe = sqe ∧ cqe.last = true := by
    rcases (h.sound n).ring.routed.valid.io.mem_queued.mp hsqe with hsq | hflight | ⟨cqe, hcqe⟩
    · exact h.served.posts n sqe (List.mem_append_left _ hsq)
    · exact h.served.posts n sqe (List.mem_append_right _ hflight)
    · exact ⟨n, Nat.le_refl n, cqe, hcqe.1, hcqe.2.2, hcqe.2.1⟩
  obtain ⟨m, hm, cqe, hcqe, heq, hlast⟩ := hposted
  rcases List.mem_append.mp hcqe with hreaped | hcq
  · exact ⟨m, hm, cqe, hreaped, heq, hlast⟩
  · obtain ⟨m', hm', hreaped⟩ := h.reaps hcq
    exact ⟨m', hm.trans hm', cqe, hreaped, heq, hlast⟩

theorem Ran.early (h : Ran t t') (hplace : t.place.early = false) : t'.place.early = false := by
  induction h with
  | submit heq | cancel heq | submitCancels heq =>
    rw [heq] at hplace
    cases hplace
  | count =>
    dsimp only
    split_ifs <;> rfl
  | reapBegin | reapCqe | reapEnd | submitReaped | wake | enter | failed => rfl

def sections : Place → ℕ
  | .submit => 3
  | .cancel => 2
  | .submitCancels _ => 1
  | _ => 0

theorem Ran.sections (h : Ran t t') (hplace : t.place.early = true) :
    t'.place.early = false ∨ sections t'.place < sections t.place := by
  induction h with
  | submit heq | cancel heq =>
    rw [heq]
    exact .inr (by simp [Teardown.sections])
  | submitCancels =>
    dsimp only
    split_ifs <;> exact .inl rfl
  | reapBegin heq | reapCqe heq | reapEnd heq | submitReaped heq | wake heq | count heq | enter heq
  | failed heq =>
    rw [heq] at hplace
    cases hplace

/-- The thread comes to its loop and stays there. -/
theorem Endless.loops (h : Endless ρ act) :
    ∃ n, ∀ m, n ≤ m → (ρ m).place.early = false := by
  have hcomes : ∃ n, (ρ n).place.early = false := by
    cases hfirst : (ρ 0).place.early with
    | false => exact ⟨0, hfirst⟩
    | true =>
      let P : ℕ → ℕ → Prop := fun k n => (ρ n).place.early = true ∧ sections (ρ n).place = k
      obtain ⟨m, -, hm⟩ : ∃ m, 0 ≤ m ∧ (ρ m).place.early = false := by
        refine h.fair.eventually (P := P) ?_ ?_ ?_ ⟨hfirst, rfl⟩
        · rintro k n ⟨hearly, -⟩
          refine ⟨h.alive n, fun henter => ?_⟩
          rw [henter] at hearly
          cases hearly
        · rintro k n ⟨hearly, hsections⟩ hidle
          rcases ran_or_idles h.runs n with ⟨hacts, -⟩ | ⟨-, hidles⟩
          · exact absurd hacts hidle
          · refine .inr ⟨?_, ?_⟩ <;> rw [hidles.place]
            · exact hearly
            · exact hsections
        · rintro k n ⟨hearly, hsections⟩ hacts
          rcases ran_or_idles h.runs n with ⟨-, hran⟩ | ⟨hidle, -⟩
          · cases hnext : (ρ (n + 1)).place.early with
            | false => exact .inl rfl
            | true =>
              have hless := (hran.sections hearly).resolve_left (by simp [hnext])
              exact .inr ⟨_, hsections ▸ hless, hnext, rfl⟩
          · exact absurd hacts hidle
      exact ⟨m, hm⟩
  obtain ⟨n, hn⟩ := hcomes
  refine ⟨n, fun m hm => ?_⟩
  induction m, hm using Nat.le_induction with
  | base => exact hn
  | succ m hm ih =>
    rcases ran_or_idles h.runs m with ⟨-, hran⟩ | ⟨-, hidles⟩
    · exact hran.early ih
    · rw [hidles.place]
      exact ih

/-- From some moment on no entry leaves the tables. -/
theorem Endless.keeps (h : Endless ρ act) :
    ∃ n, ∀ m, n ≤ m → ∀ u op, (ρ n).ring.table.orphan u = some op →
      ∃ op', (ρ m).ring.table.orphan u = some op' := by
  let K : ℕ → Finset ℕ := fun n => (Finset.range ((ρ 0).ring.allocated + 1)).filter fun u =>
    ((ρ n).ring.table.orphan u).isSome
  have hK : ∀ n u, u ∈ K n ↔ ∃ op, (ρ n).ring.table.orphan u = some op := by
    intro n u
    rw [Finset.mem_filter, Option.isSome_iff_exists, and_iff_right_iff_imp]
    rintro ⟨op, hop⟩
    obtain ⟨first, hfirst⟩ := (h.advances (Nat.zero_le n)).orphan u op hop
    have hvalid := (h.sound 0).ring.routed.valid
    obtain ⟨huser, sqe, hsqe, hstarts⟩ := hvalid.orphan u first hfirst
    have hbelow : sqe.userData ≤ (ρ 0).ring.allocated := hvalid.below sqe hsqe
    rw [hstarts.1, huser] at hbelow
    exact Finset.mem_range_succ_iff.mpr hbelow
  have hanti : Antitone K := by
    intro n m hm u hu
    obtain ⟨op, hop⟩ := (hK m u).mp hu
    exact (hK n u).mpr ((h.advances hm).orphan u op hop)
  obtain ⟨n, hn⟩ := exists_constant hanti
  refine ⟨n, fun m hm u op hop => ?_⟩
  have hmem : u ∈ K m := hn m hm ▸ (hK n u).mpr ⟨op, hop⟩
  exact (hK m u).mp hmem

/-- What a section in the loop queues takes back the buffers of a stream that has ended. -/
theorem Sound.requests (h : t.Sound) (hran : Ran t t') (hplace : t.place.early = false) {sqe : Sqe}
    (hsqe : sqe ∈ t'.ring.io.queued) (hnew : sqe ∉ t.ring.io.queued) :
    sqe.opcode = .removeBuffers ∧ (t.ring.table.life sqe.owner).finished = true ∧
      ∃ op, t.ring.table.orphan sqe.owner = some op := by
  cases h.transfers hran with
  | consume _ hio =>
    rw [hio] at hsqe
    exact absurd hsqe hnew
  | reap _ _ hreap =>
    obtain ⟨rest, -, hio⟩ := Traffic.reap_eq_some.mp hreap
    rw [hio] at hsqe
    exact absurd hsqe hnew
  | queue _ hio hsqes =>
    rw [hio] at hsqe
    have hmem := (List.mem_append.mp hsqe).resolve_left hnew
    obtain ⟨hopcode, op, hop, count, group, heq⟩ := hsqes hplace sqe hmem
    have horphan := h.ring.orphan_of_mem hop
    have howner : sqe.owner = op.userData := Ring.cleanupRequest_target heq
    rw [← howner] at horphan
    obtain ⟨m, -, hm, -, hterminal, -, -⟩ := Life.cleanupRequest_eq_some heq
    have hends := (h.ring.lives sqe.owner).2.ends
    exact ⟨hopcode, (hends.ended op m horphan hm hterminal).1, op, horphan⟩

/-- From some moment on nothing is queued: a request that the kernel does not refuse takes its
stream out of the tables. -/
theorem Endless.rests (h : Endless ρ act) :
    ∃ n, ∀ m, n ≤ m → ∀ sqe ∈ (ρ m).ring.io.queued, sqe ∈ (ρ n).ring.io.queued := by
  obtain ⟨a, hloops⟩ := h.loops
  obtain ⟨b, hkeeps⟩ := h.keeps
  obtain ⟨c, hrefuses⟩ := h.served.refuses
  refine ⟨max a (max b c), fun m hm => ?_⟩
  induction m, hm using Nat.le_induction with
  | base => exact fun _ hsqe => hsqe
  | succ m hm ih =>
    intro sqe hsqe
    by_cases hold : sqe ∈ (ρ m).ring.io.queued
    · exact ih sqe hold
    rcases ran_or_idles h.runs m with ⟨-, hran⟩ | ⟨-, hidles⟩
    · exfalso
      obtain ⟨hopcode, hfinished, op, horphan⟩ :=
        (h.sound m).requests hran (hloops m (by omega)) hsqe hold
      obtain ⟨m', hm', cqe, hcqe, rfl, -⟩ := h.completes hsqe
      have hadvances := h.advances (show m ≤ m' by omega)
      have hres : 0 ≤ cqe.res := by
        by_contra hneg
        have hposted := hrefuses m' cqe (List.mem_append_left _ hcqe) hopcode (by omega)
        have hqueued := (h.sound c).ring.routed.valid.io.known cqe hposted
        exact hold ((h.advances (show c ≤ m by omega)).queued _ hqueued)
      obtain ⟨first, hfirst⟩ := (h.advances (show b ≤ m by omega)).orphan _ op horphan
      obtain ⟨op', horphan'⟩ := hkeeps m' (by omega) _ first hfirst
      have hfinished' : ((ρ m').ring.table.life cqe.sqe.owner).finished = true := by
        obtain ⟨answer, hanswer, hlast⟩ := List.any_eq_true.mp hfinished
        obtain ⟨hreaped, hstarts⟩ := List.mem_filter.mp hanswer
        exact List.any_eq_true.mpr
          ⟨answer, List.mem_filter.mpr ⟨hadvances.reaped _ hreaped, hstarts⟩, hlast⟩
      have hcleaned : ((ρ m').ring.table.life cqe.sqe.owner).cleaned = true := by
        refine List.any_eq_true.mpr ⟨cqe, List.mem_filter.mpr ⟨hcqe, ?_⟩, by simpa using hres⟩
        simp [Sqe.cleansUp, hopcode]
      obtain ⟨hsound, hdrains⟩ := (h.sound m').ring.lives cqe.sqe.owner
      obtain ⟨-, -, -, -, -, -, -, hnot⟩ := hdrains.waits hsound horphan' hfinished'
      rw [hcleaned] at hnot
      cases hnot
    · rw [hidles.queued] at hsqe
      exact absurd hsqe hold

/-- At last nothing is outstanding. -/
theorem Endless.drains (h : Endless ρ act) :
    ∃ n, ∀ m, n ≤ m → (ρ m).ring.io.sq = [] ∧ (ρ m).ring.io.inFlight = [] ∧
      (ρ m).ring.io.cq = [] := by
  obtain ⟨n, hrests⟩ := h.rests
  let Done : Sqe → ℕ → Prop := fun sqe m =>
    ∃ cqe ∈ (ρ m).ring.io.reaped, cqe.sqe = sqe ∧ cqe.last = true
  have hmono : ∀ sqe m m', m ≤ m' → Done sqe m → Done sqe m' := by
    rintro sqe m m' hm ⟨cqe, hcqe, hdone⟩
    exact ⟨cqe, (h.advances hm).reaped cqe hcqe, hdone⟩
  obtain ⟨k, hk⟩ : ∃ k, ∀ sqe ∈ (ρ n).ring.io.queued, Done sqe k := by
    refine exists_forall hmono fun sqe hsqe => ?_
    obtain ⟨m, -, hdone⟩ := h.completes hsqe
    exact ⟨m, hdone⟩
  refine ⟨max n k, fun m hm => ?_⟩
  refine (h.sound m).ring.routed.valid.io.eq_nil fun sqe hsqe => ?_
  exact hmono sqe k m (by omega) (hk sqe (hrests m (by omega) sqe hsqe))

def steps : Place → ℕ
  | .loop => 5
  | .reaping .. => 4
  | .reaped reaper => if reaper.refill then 3 else 2
  | .count => 1
  | _ => 0

theorem Sound.steps (h : t.Sound) (hran : Ran t t') (hplace : t.place.early = false)
    (henter : t.place ≠ .enter) (hcq : t.ring.io.cq = []) :
    t'.place = .closed ∨ t'.place = .enter ∨ steps t'.place < steps t.place := by
  induction hran with
  | submit heq | cancel heq | submitCancels heq =>
    rw [heq] at hplace
    cases hplace
  | reapBegin heq =>
    rw [heq]
    exact .inr (.inr (by simp [Teardown.steps]))
  | reapCqe heq =>
    have havailable := h.available _ _ heq
    rw [hcq] at havailable
    cases havailable
  | reapEnd heq =>
    rw [heq]
    refine .inr (.inr ?_)
    simp only [Teardown.steps]
    split_ifs <;> omega
  | submitReaped heq | wake heq =>
    rw [heq]
    exact .inr (.inr (by simp [Teardown.steps]))
  | count heq =>
    dsimp only
    split_ifs
    · exact .inl rfl
    · exact .inr (.inl rfl)
  | enter heq => exact absurd heq henter
  | failed => exact .inl rfl

/-- The thread does not go on for ever. -/
theorem not_endless (h : Endless ρ act) : False := by
  obtain ⟨a, hloops⟩ := h.loops
  obtain ⟨b, hdrains⟩ := h.drains
  have henter : ∀ n, b ≤ n → (ρ n).place ≠ .enter := by
    intro n hn henter
    obtain ⟨u, op, horphan⟩ := (h.sound n).waiting henter
    apply (h.sound n).settled (by rw [henter]; rfl) u op horphan
    obtain ⟨hsq, hflight, hcq⟩ := hdrains n hn
    simp [outstanding, hsq, hflight, hcq]
  let P : ℕ → ℕ → Prop := fun k n => max a b ≤ n ∧ steps (ρ n).place = k
  obtain ⟨-, -, hfalse⟩ : ∃ m, max a b ≤ m ∧ False := by
    refine h.fair.eventually (P := P) (Q := fun _ => False) ?_ ?_ ?_ ⟨Nat.le_refl _, rfl⟩
    · rintro k n ⟨hn, -⟩
      exact ⟨h.alive n, fun heq => absurd heq (henter n (by omega))⟩
    · rintro k n ⟨hn, hsteps⟩ hidle
      rcases ran_or_idles h.runs n with ⟨hacts, -⟩ | ⟨-, hidles⟩
      · exact absurd hacts hidle
      · refine .inr ⟨by omega, ?_⟩
        rw [hidles.place]
        exact hsteps
    · rintro k n ⟨hn, hsteps⟩ hacts
      rcases ran_or_idles h.runs n with ⟨-, hran⟩ | ⟨hidle, -⟩
      · rcases (h.sound n).steps hran (hloops n (by omega)) (henter n (by omega))
          (hdrains n (by omega)).2.2 with hclosed | hwaits | hless
        · exact absurd hclosed (h.alive (n + 1))
        · exact absurd hwaits (henter (n + 1) (by omega))
        · exact .inr ⟨_, hsteps ▸ hless, by omega, rfl⟩
      · exact absurd hacts hidle
  exact hfalse

end Endless

end Teardown

/-- `Inner::drop` comes to its end when nobody uses the ring. -/
theorem Ring.Winding.closes {r : Ring} (h : r.Winding) : r.Closes := by
  intro ρ act hbegin hruns hfair hserved hb
  by_contra hnever
  have hsound : ∀ n, (ρ n).Sound := by
    refine hruns.invariant ?_ ?_
    · rw [hbegin]
      exact .begin h
    · intro n a _ hbefore hstep
      exact hbefore.step hstep (hb (n + 1))
  refine Teardown.not_endless ⟨hruns, hfair, hserved, hsound, ?_⟩
  intro n hclosed
  exact hnever ⟨n, hclosed⟩

namespace Teardown

/-- The thread goes on, and what is outstanding is answered in a later state. -/
structure AnsweredBy (t' t : Teardown) : Prop where
  goes : t.place ≠ .closed
  allocated : t.ring.allocated < 2 ^ 64
  answers : ∀ sqe ∈ t.ring.io.sq ++ t.ring.io.inFlight,
    ∃ cqe ∈ t'.ring.io.posted, cqe.sqe = sqe ∧ cqe.last = true
  posted : ∀ cqe ∈ t.ring.io.posted, cqe ∈ t'.ring.io.posted

instance (t' t : Teardown) : Decidable (AnsweredBy t' t) :=
  decidable_of_iff (t.place ≠ .closed ∧ t.ring.allocated < 2 ^ 64 ∧
    (∀ sqe ∈ t.ring.io.sq ++ t.ring.io.inFlight,
      ∃ cqe ∈ t'.ring.io.posted, cqe.sqe = sqe ∧ cqe.last = true) ∧
    ∀ cqe ∈ t.ring.io.posted, cqe ∈ t'.ring.io.posted)
    ⟨fun ⟨h₁, h₂, h₃, h₄⟩ => ⟨h₁, h₂, h₃, h₄⟩, fun ⟨h₁, h₂, h₃, h₄⟩ => ⟨h₁, h₂, h₃, h₄⟩⟩

/-- The sections of a thread that finds an entry for which nothing is outstanding. -/
def waits : List Label :=
  [.run (some 0) .event, .run none .event, .run (some 1) .event, .post 0 (-2) 0, .run none .event,
    .run none .event, .run none .event, .run none .event, .run none .event]

/-- The thread waits and all was answered, so it waits for ever. -/
theorem not_closes_of_run {r : Ring} {as : List Label} {t : Teardown}
    (hrun : Interleaving.run step (.begin r) as = some t) (hplace : t.place = .enter)
    (hcq : t.ring.io.cq = []) (hvisited : ∀ t' ∈ visited step (.begin r) as, AnsweredBy t t') :
    ¬ r.Closes := by
  intro hcloses
  obtain ⟨ρ, act, hbegin, hruns, hlast, hρ⟩ := exists_runs_of_run hrun
  have hanswered : ∀ n, AnsweredBy t (ρ n) := fun n => hvisited _ (hρ n)
  have hfair : Fair Own Ready ρ act := by
    intro n hready
    obtain ⟨-, hwaits⟩ := hready (max n as.length) (Nat.le_max_left _ _)
    rw [hlast _ (Nat.le_max_right _ _)] at hwaits
    exact absurd hcq (hwaits hplace)
  have hserved : Served ρ := by
    constructor
    · intro n sqe hsqe
      refine ⟨max n as.length, Nat.le_max_left _ _, ?_⟩
      rw [hlast _ (Nat.le_max_right _ _)]
      exact (hanswered n).answers sqe hsqe
    · refine ⟨as.length, fun m cqe hcqe _ _ => ?_⟩
      rw [hlast _ (Nat.le_refl _)]
      exact (hanswered m).posted cqe hcqe
  obtain ⟨n, hclosed⟩ := hcloses ρ act hbegin hruns hfair hserved fun n => (hanswered n).allocated
  exact (hanswered n).goes hclosed

end Teardown

namespace System

instance (s : System) : Decidable s.Unused := instDecidableAnd

/-- Dropped operations leave the tables, and `Inner::drop` comes to its end. -/
structure DrainsOrphans (s : System) : Prop where
  gone : s.ring.DrainsOrphans
  closes : s.Unused → s.ring.Closes

theorem Routed.winding {s : System} (h : s.Routed)
    (hlives : ∀ u, (s.ring.table.life u).Sound ∧ (s.ring.table.life u).Drains)
    (hfits : s.ring.Fits) (hunused : s.Unused) : s.ring.Winding := by
  refine ⟨h.ring, fun u => ?_, hlives, hfits⟩
  by_contra hsome
  obtain ⟨op, hop⟩ := Option.ne_none_iff_exists'.mp hsome
  obtain ⟨i, f, hf, -⟩ := h.owned u op hop
  obtain ⟨slot, hslot, hf⟩ := Option.bind_eq_some_iff.mp hf
  rw [hunused.1 slot (List.mem_of_getElem? hslot)] at hf
  cases hf

/-- In a run that drops no stream with events in it, all orphans drain. -/
theorem orphans_drain {sqEntries futures : ℕ} {sqpoll : Bool} {s : System} (hroom : 0 < sqEntries)
    (h : Reachable System.step (allows (guards Life.DropsPolled)) (.new sqEntries sqpoll futures) s)
    (hb : s.ring.allocated < 2 ^ 64) : s.DrainsOrphans := by
  obtain ⟨hrouted, hlives⟩ := lives_of_reachable (I := Life.Drains) (fun _ => trivial) .new
    (fun l k l' hsound hdrains hguard hstep => hdrains.step hsound hguard hstep) h hb
  refine ⟨hrouted.ring.drains hlives, fun hunused => ?_⟩
  exact (hrouted.winding hlives (fits_of_reachable hroom h) hunused).closes

/-- A stream is dropped after its data was taken; its buffers come back and it is gone. -/
theorem polled_stream_drains :
    ∃ s, Reachable System.step (allows (guards Life.DropsPolled)) (.new 8 false 1) s ∧
      s.Unused ∧ s.ring.dropped = [1] ∧ s.ring.orphanedByUserData 1 = none ∧ s.DrainsOrphans := by
  have hrun : (run (guarded System.step (allows (guards Life.DropsPolled))) (.new 8 false 1)
      [.client 0 (.start 0 (.recvMultishot 3 16 2) 7), .client 0 (.submit (some 2)), .post 0 0 0,
        .post 0 5 3, .reapBegin, .reapCqe, .reapCqe, .reapEnd, .reaperSubmit 0 (some 1),
        .reaperWake 0, .reaperReturn 0, .client 0 (.poll 7), .client 0 (.drop 0),
        .client 0 .cancel, .client 0 (.submit (some 1)), .post 0 (-125) 0, .post 0 0 0,
        .post 0 0 0, .reapBegin, .reapCqe, .reapCqe, .reapCqe, .reapEnd, .reaperSubmit 0 (some 1),
        .reaperReturn 0, .post 0 2 0, .reapBegin, .reapCqe, .reapEnd, .reaperReturn 0]).any
        (fun s => decide (s.ring.allocated < 2 ^ 64) && decide s.Unused &&
          decide (s.ring.dropped = [1]) && decide (s.ring.orphanedByUserData 1 = none)) = true := by
    decide +kernel
  obtain ⟨s, hreach, hs⟩ := exists_reachable_of_run hrun
  simp only [Bool.and_eq_true, decide_eq_true_eq] at hs
  obtain ⟨⟨⟨hb, hunused⟩, hdropped⟩, hgone⟩ := hs
  exact ⟨s, hreach, hunused, hdropped, hgone, orphans_drain (by decide) hreach hb⟩

/-- The data of a stream was not taken when it is dropped: although the stream ends and its
buffers come back, its entry stays, and `Inner::drop` waits for a completion that never comes. -/
theorem unpolled_stream_stays :
    ∃ s, Reachable System.step anyStep (.new 8 false 1) s ∧ s.ring.allocated < 2 ^ 64 ∧
      ¬ s.ring.DrainsOrphans ∧ s.Unused ∧ ¬ s.ring.Closes := by
  have hrun : (run (guarded System.step anyStep) (.new 8 false 1)
      [.client 0 (.start 0 (.recvMultishot 3 16 2) 7), .client 0 (.submit (some 2)), .post 0 0 0,
        .post 0 5 3, .reapBegin, .reapCqe, .reapCqe, .reapEnd, .reaperSubmit 0 (some 1),
        .reaperWake 0, .reaperReturn 0, .client 0 (.drop 0), .client 0 .cancel,
        .client 0 (.submit (some 1)), .post 0 (-125) 0, .post 0 0 0, .post 0 0 0, .reapBegin,
        .reapCqe, .reapCqe, .reapCqe, .reapEnd, .reaperSubmit 0 (some 1), .reaperReturn 0,
        .post 0 2 0, .reapBegin, .reapCqe, .reapEnd, .reaperReturn 0]).any
        (fun s => decide (s.ring.allocated < 2 ^ 64) && decide s.Unused &&
          s.ring.io.queued.any (fun sqe => decide (sqe.opcode.control = false) &&
            decide (sqe.userData ∈ s.ring.dropped) &&
            s.ring.io.reaped.any (fun cqe => decide (cqe.sqe = sqe) && cqe.last) &&
            s.ring.io.reaped.any (fun cqe => decide (cqe.sqe.opcode = .removeBuffers ∧
              cqe.sqe.owner = sqe.userData ∧ 0 ≤ cqe.res)) &&
            (s.ring.orphanedByUserData sqe.userData).isSome) &&
          (run Teardown.step (.begin s.ring) Teardown.waits).any fun t => decide (t.place = .enter) &&
            t.ring.io.cq.isEmpty && (visited Teardown.step (.begin s.ring) Teardown.waits).all fun t' =>
              decide (Teardown.AnsweredBy t t')) = true := by
    decide +kernel
  obtain ⟨s, hreach, hs⟩ := exists_reachable_of_run hrun
  simp only [Bool.and_eq_true, decide_eq_true_eq, List.any_eq_true, List.all_eq_true,
    List.isEmpty_iff, Option.any_eq_true] at hs
  obtain ⟨⟨⟨hb, hunused⟩, sqe, hsqe, ⟨⟨⟨hcontrol, hdropped⟩, hlast⟩, hcleaned⟩, hstays⟩, t, ht,
    ⟨hplace, hcq⟩, hvisited⟩ := hs
  refine ⟨s, hreach, hb, ?_, hunused, Teardown.not_closes_of_run ht hplace hcq hvisited⟩
  intro hdrains
  obtain ⟨-, hgone, -⟩ := hdrains sqe hsqe hcontrol hdropped hlast fun _ => hcleaned
  rw [hgone] at hstays
  cases hstays

end System

end Eddy.Uring
