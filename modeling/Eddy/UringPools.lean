import Eddy.UringRetention

/-!
# Where the buffers of a multishot receive are

The kernel has the buffers of a group that were provided, and neither selected by a receive nor
removed. This is determined by the completions that it has posted. A buffer may also be in a
submission that provides it, or in a completion that was not yet reaped.
-/

namespace Eddy.Uring
open Table Interleaving
open Function (update)

/-- A multishot receive takes its buffers from a group: it has `IOSQE_BUFFER_SELECT`. -/
def Sqe.selects (sqe : Sqe) : Bool := sqe.opcode == .recv && sqe.multishot

/-- Whether the submission is about this group of buffers. -/
def Sqe.uses (g : ℕ) (sqe : Sqe) : Bool := (sqe.opcode.buffers || sqe.selects) && sqe.bufIndex == g

/-- The buffers that a `PROVIDE_BUFFERS` names. -/
def Sqe.ids (sqe : Sqe) : List ℕ := List.range' sqe.off sqe.fd.toNat

/-- How often the submission provides the buffer. -/
def Sqe.carry (g id : ℕ) (sqe : Sqe) : ℕ :=
  if sqe.opcode = .provideBuffers ∧ sqe.bufIndex = g ∧ id ∈ sqe.ids then 1 else 0

/-- The kernel has put data into a buffer. -/
def Cqe.selected (cqe : Cqe) : Bool := cqe.sqe.selects && cqe.hasBuffer

/-- What the kernel says about a buffer fits the receive: it is filled at most to its length, and
its number is a `u16`. -/
def Cqe.Sane (cqe : Cqe) : Prop :=
  cqe.selected = true → 0 ≤ cqe.res ∧ cqe.res ≤ cqe.sqe.len ∧ cqe.bufferId < 2 ^ 16

instance (cqe : Cqe) : Decidable cqe.Sane := inferInstanceAs (Decidable (_ → _))

/-- How often the buffer is in the hands of a completion: it has the data, or was refused. -/
def Cqe.keep (g id : ℕ) (cqe : Cqe) : ℕ :=
  if cqe.selected = true then if cqe.sqe.bufIndex = g ∧ cqe.bufferId = id then 1 else 0
  else if cqe.res < 0 then cqe.sqe.carry g id else 0

/-- What a completion does to the buffers of a group that the kernel has. -/
def Cqe.turn (g : ℕ) (buffers : List ℕ) (cqe : Cqe) : List ℕ :=
  if cqe.sqe.bufIndex ≠ g then buffers
  else if cqe.sqe.opcode = .provideBuffers then
    if 0 ≤ cqe.res then buffers ++ cqe.sqe.ids else buffers
  else if cqe.sqe.opcode = .removeBuffers then
    if 0 ≤ cqe.res then buffers.drop cqe.sqe.fd.toNat else buffers
  else if cqe.selected then buffers.erase cqe.bufferId
  else buffers

/-- The buffers of a group that the kernel has. -/
def available (io : Traffic Sqe Cqe) (g : ℕ) : List ℕ := io.posted.foldl (Cqe.turn g) []

/-- In how many places a buffer is: with the kernel, in a `PROVIDE_BUFFERS` that is queued or in
flight, or in a completion that was not reaped. -/
def places (io : Traffic Sqe Cqe) (g id : ℕ) : ℕ :=
  (available io g).count id + total (Sqe.carry g id) (io.sq ++ io.inFlight) +
    total (Cqe.keep g id) io.cq

/-- The submissions that were not completed, or whose completion was not reaped. -/
def outstanding (io : Traffic Sqe Cqe) : List Sqe := io.sq ++ io.inFlight ++ io.cq.map Cqe.sqe

section Places
variable {io io' : Traffic Sqe Cqe} {sqe : Sqe} {cqe : Cqe} {g id i : ℕ}

theorem Sqe.uses_of_carry (h : sqe.carry g id ≠ 0) : sqe.uses g = true := by
  unfold Sqe.carry at h
  split_ifs at h with hcarry
  · obtain ⟨hopcode, hgroup, -⟩ := hcarry
    simp [Sqe.uses, hopcode, hgroup, Opcode.buffers]
  · exact absurd rfl h

theorem Cqe.uses_of_keep (h : cqe.keep g id ≠ 0) : cqe.sqe.uses g = true := by
  unfold Cqe.keep at h
  split_ifs at h with hselected hbuffer hres
  · simp only [Cqe.selected, Bool.and_eq_true] at hselected
    simp [Sqe.uses, hselected.1, hbuffer.1]
  · exact absurd rfl h
  · exact Sqe.uses_of_carry h
  · exact absurd rfl h

theorem Sqe.count_ids (hopcode : sqe.opcode = .provideBuffers) (hgroup : sqe.bufIndex = g) :
    sqe.ids.count id = sqe.carry g id := by
  have hnodup : sqe.ids.Nodup := List.nodup_range'
  rw [hnodup.count]
  simp only [Sqe.carry, hopcode, hgroup, true_and]

theorem places_queue (io : Traffic Sqe Cqe) (sqe : Sqe) (g id : ℕ) :
    places (io.queue sqe) g id = places io g id + sqe.carry g id := by
  simp only [places, available, Traffic.queue, Traffic.posted, total_append, total_cons, total_nil]
  omega

theorem places_consume (io : Traffic Sqe Cqe) (n g id : ℕ) :
    places (io.consume n) g id = places io g id := by
  have hsplit : total (Sqe.carry g id) io.sq =
      total (Sqe.carry g id) (io.sq.take n) + total (Sqe.carry g id) (io.sq.drop n) := by
    rw [← total_append, List.take_append_drop]
  simp only [places, available, Traffic.consume, Traffic.posted, total_append]
  omega

theorem places_reap (hreap : io.reap = some (cqe, io')) (g id : ℕ) :
    places io g id = places io' g id + cqe.keep g id := by
  have hposted := Traffic.posted_reap hreap
  obtain ⟨rest, hcq, rfl⟩ := Traffic.reap_eq_some.mp hreap
  unfold places available
  rw [hposted, hcq, total_cons]
  dsimp only
  omega

theorem available_post (io : Traffic Sqe Cqe) (i g : ℕ) (cqe : Cqe) :
    available (io.post Cqe.last i cqe) g = cqe.turn g (available io g) := by
  unfold available Traffic.posted Traffic.post
  rw [← List.append_assoc, List.foldl_append]
  rfl

theorem Sqe.carry_of_opcode (h : sqe.opcode ≠ .provideBuffers) (g id : ℕ) : sqe.carry g id = 0 :=
  if_neg fun hcarry => h hcarry.1

theorem Sqe.carry_of_group (h : sqe.bufIndex ≠ g) (id : ℕ) : sqe.carry g id = 0 :=
  if_neg fun hcarry => h hcarry.2.1

theorem Cqe.last_of_opcode (h : cqe.sqe.opcode = .provideBuffers) : cqe.last = true := by
  simp [Cqe.last, Sqe.multishot, h]

theorem Cqe.selected_of_opcode (h : cqe.sqe.opcode ≠ .recv) : cqe.selected = false := by
  simp [Cqe.selected, Sqe.selects, h]

/-- The submission leaves those in flight when it provides buffers. -/
theorem total_inFlight_post (hi : io.inFlight[i]? = some cqe.sqe) (g id : ℕ) :
    total (Sqe.carry g id) io.inFlight =
      total (Sqe.carry g id) (io.post Cqe.last i cqe).inFlight + cqe.sqe.carry g id := by
  have herase := total_eraseIdx (Sqe.carry g id) hi
  unfold Traffic.post
  by_cases hopcode : cqe.sqe.opcode = .provideBuffers
  · rw [Cqe.last_of_opcode hopcode]
    exact herase
  · rw [Sqe.carry_of_opcode hopcode] at herase ⊢
    dsimp only
    split_ifs
    · exact herase
    · rfl

/-- A completion moves buffers and loses none: it has the buffer that it selects from those that
the kernel has, and it is not one that takes buffers from the group. -/
theorem places_post (hi : io.inFlight[i]? = some cqe.sqe)
    (hremove : cqe.sqe.bufIndex = g → cqe.sqe.opcode ≠ .removeBuffers)
    (hselected : cqe.sqe.bufIndex = g → cqe.selected = true → cqe.bufferId ∈ available io g) :
    places (io.post Cqe.last i cqe) g id = places io g id := by
  have hflight := total_inFlight_post hi g id
  have hcq : (io.post Cqe.last i cqe).cq = io.cq ++ [cqe] := rfl
  have hsq : (io.post Cqe.last i cqe).sq = io.sq := rfl
  have hturn : (cqe.turn g (available io g)).count id + cqe.keep g id =
      (available io g).count id + cqe.sqe.carry g id := by
    by_cases hgroup : cqe.sqe.bufIndex = g
    · unfold Cqe.turn Cqe.keep
      rw [if_neg (not_not.mpr hgroup)]
      by_cases hprovide : cqe.sqe.opcode = .provideBuffers
      · rw [if_pos hprovide, Cqe.selected_of_opcode (by rw [hprovide]; decide)]
        by_cases hres : 0 ≤ cqe.res
        · rw [if_pos hres, List.count_append, Sqe.count_ids hprovide hgroup]
          simp [Int.not_lt.mpr hres]
        · rw [if_neg hres]
          simp [Int.not_le.mp hres]
      · rw [if_neg hprovide, if_neg (hremove hgroup), Sqe.carry_of_opcode hprovide]
        cases hbuffer : cqe.selected with
        | false => simp
        | true =>
          have hmem := List.count_pos_iff.mpr (hselected hgroup hbuffer)
          by_cases hid : cqe.bufferId = id
          · subst hid
            simp only [List.count_erase_self, hgroup, ↓reduceIte, and_self]
            omega
          · rw [if_pos rfl, List.count_erase_of_ne (Ne.symm hid)]
            simp [hid]
    · have hkeep : cqe.keep g id = 0 := by
        by_contra hne
        have huses := Cqe.uses_of_keep hne
        simp [Sqe.uses, hgroup] at huses
      rw [hkeep, Sqe.carry_of_group hgroup]
      unfold Cqe.turn
      rw [if_pos hgroup]
  unfold places
  rw [available_post, hcq, hsq, total_append, total_append, total_append, total_cons, total_nil]
  omega

theorem mem_outstanding_queue {a : Sqe} (h : a ∈ outstanding (io.queue sqe)) :
    a ∈ outstanding io ∨ a = sqe := by
  simp only [outstanding, Traffic.queue, List.mem_append, List.mem_singleton] at h ⊢
  tauto

theorem mem_outstanding_consume {n : ℕ} {a : Sqe} (h : a ∈ outstanding (io.consume n)) :
    a ∈ outstanding io := by
  simp only [outstanding, Traffic.consume, List.mem_append] at h ⊢
  rcases h with (h | h | h) | h
  · exact .inl (.inl (List.mem_of_mem_drop h))
  · exact .inl (.inr h)
  · exact .inl (.inl (List.mem_of_mem_take h))
  · exact .inr h

theorem mem_outstanding_post {a : Sqe} (hi : io.inFlight[i]? = some cqe.sqe)
    (h : a ∈ outstanding (io.post Cqe.last i cqe)) : a ∈ outstanding io := by
  simp only [outstanding, Traffic.post, List.mem_append, List.map_append, List.map_cons,
    List.map_nil, List.mem_singleton] at h ⊢
  rcases h with (h | h) | h | rfl
  · exact .inl (.inl h)
  · split_ifs at h
    · exact .inl (.inr (List.mem_of_mem_eraseIdx h))
    · exact .inl (.inr h)
  · exact .inr h
  · exact .inl (.inr (List.mem_of_getElem? hi))

theorem mem_outstanding_reap {a : Sqe} (hreap : io.reap = some (cqe, io'))
    (h : a ∈ outstanding io') : a ∈ outstanding io := by
  obtain ⟨rest, hcq, rfl⟩ := Traffic.reap_eq_some.mp hreap
  simp only [outstanding, hcq, List.map_cons, List.mem_append, List.mem_cons] at h ⊢
  tauto

theorem sqe_mem_outstanding (hreap : io.reap = some (cqe, io')) : cqe.sqe ∈ outstanding io := by
  obtain ⟨rest, hcq, -⟩ := Traffic.reap_eq_some.mp hreap
  simp [outstanding, hcq]

end Places

/-- The size of the buffers of a multishot receive, and their group. -/
def OrphanedOp.pool (op : OrphanedOp) : Option (ℕ × ℕ) :=
  op.multishot.bind fun m =>
    match m.eventKind with
    | .accept => none
    | .recv bufferSize bufferGroup => some (bufferSize, bufferGroup)

theorem OrphanedOp.pool_of_shape {a b : OrphanedOp} (h : a.shape = b.shape) : a.pool = b.pool := by
  have hpool : ∀ op : OrphanedOp, op.pool = op.shape.2.2.bind fun kind =>
      match kind with
      | .accept => none
      | .recv bufferSize bufferGroup => some (bufferSize, bufferGroup) := by
    intro op
    cases hm : op.multishot <;> simp [OrphanedOp.pool, OrphanedOp.shape, hm]
  rw [hpool, hpool, h]

theorem resource_of_shape {a b : OrphanedOp} (h : a.shape = b.shape) : a.resource = b.resource := by
  simp only [OrphanedOp.shape, Prod.mk.injEq] at h
  exact h.1

/-- How many buffers a multishot receive has. -/
def OrphanedOp.buffers (op : OrphanedOp) (bufferSize : ℕ) : ℕ := op.resource.poolLength / bufferSize

namespace Table
variable {v v' : Table}

structure Belongs (v : Table) (sqe : Sqe) : Prop where
  owner : ∀ u op size g, v.held u = some op → op.pool = some (size, g) → sqe.uses g = true →
    sqe.owner = u
  length : ∀ u op size g, v.held u = some op → op.pool = some (size, g) → sqe.uses g = true →
    sqe.opcode = .recv → sqe.len = size
  /-- Buffers are taken back when the stream has ended. -/
  ended : ∀ u op size g, v.op u = some op → op.pool = some (size, g) → sqe.uses g = true →
    sqe.opcode = .removeBuffers → op.terminal = true

structure Pooled (v : Table) : Prop where
  belongs : ∀ sqe ∈ outstanding v.io, v.Belongs sqe
  apart : ∀ u u' op op' size size' g, v.held u = some op → v.held u' = some op' →
    op.pool = some (size, g) → op'.pool = some (size', g) → u = u'
  data : ∀ cqe ∈ v.io.cq, cqe.Sane
  kept : ∀ u op size g, v.op u = some op → op.pool = some (size, g) → op.terminal = false →
    ∀ id < op.buffers size, places v.io g id = 1

theorem held_of_op {u : ℕ} {op : OpState} (h : v.op u = some op) :
    v.held u = some op.toOrphanedOp := by
  simp [held, h]

theorem Belongs.of_unused {sqe : Sqe} (h : ∀ g, sqe.uses g = false) : v.Belongs sqe := by
  constructor
  all_goals
    intro u op size g _ _ huses
    rw [h g] at huses
    cases huses

/-- The streams of one table are among those of another, and none that had ended is live. -/
structure Shrinks (v v' : Table) : Prop where
  held : ∀ u op', v'.held u = some op' → op'.pool ≠ none →
    ∃ op, v.held u = some op ∧ op'.shape = op.shape
  op : ∀ u op', v'.op u = some op' → op'.pool ≠ none → ∃ op, v.op u = some op ∧
    op'.toOrphanedOp.shape = op.toOrphanedOp.shape ∧ (op.terminal = true → op'.terminal = true)

theorem Shrinks.belongs (h : Shrinks v v') {sqe : Sqe} (hsqe : v.Belongs sqe) :
    v'.Belongs sqe := by
  refine ⟨fun u op' size g hu hpool huses => ?_, fun u op' size g hu hpool huses => ?_,
    fun u op' size g hu hpool huses hremove => ?_⟩
  · obtain ⟨op, hop, hshape⟩ := h.held u op' hu (by simp [hpool])
    rw [OrphanedOp.pool_of_shape hshape] at hpool
    exact hsqe.owner u op size g hop hpool huses
  · obtain ⟨op, hop, hshape⟩ := h.held u op' hu (by simp [hpool])
    rw [OrphanedOp.pool_of_shape hshape] at hpool
    exact hsqe.length u op size g hop hpool huses
  · obtain ⟨op, hop, hshape, hterminal⟩ := h.op u op' hu (by simp [hpool])
    refine hterminal ?_
    rw [OrphanedOp.pool_of_shape hshape] at hpool
    exact hsqe.ended u op size g hop hpool huses hremove

/-- No entry is added. A submission that is added belongs to its stream, and the buffers of the
streams that stay live are where they were, or where they belong. -/
theorem Pooled.shrinks (h : v.Pooled) (hshrinks : Shrinks v v')
    (hsqes : ∀ sqe ∈ outstanding v'.io, sqe ∈ outstanding v.io ∨ v'.Belongs sqe)
    (hdata : ∀ cqe ∈ v'.io.cq, cqe.Sane)
    (hplaces : ∀ u op op' size g, v.op u = some op → v'.op u = some op' →
      op.pool = some (size, g) → op.terminal = false → op'.terminal = false →
      ∀ id < op.buffers size, places v.io g id = 1 → places v'.io g id = 1) : v'.Pooled := by
  refine ⟨fun sqe hsqe => ?_, ?_, hdata, fun u op' size g hu hpool hlive id hid => ?_⟩
  · rcases hsqes sqe hsqe with hold | hnew
    · exact hshrinks.belongs (h.belongs sqe hold)
    · exact hnew
  · intro u u' a' b' size size' g ha hb hpa hpb
    obtain ⟨a, ha, hshape⟩ := hshrinks.held u a' ha (by simp [hpa])
    obtain ⟨b, hb, hshape'⟩ := hshrinks.held u' b' hb (by simp [hpb])
    rw [OrphanedOp.pool_of_shape hshape] at hpa
    rw [OrphanedOp.pool_of_shape hshape'] at hpb
    exact h.apart u u' a b size size' g ha hb hpa hpb
  · obtain ⟨op, hop, hshape, hterminal⟩ := hshrinks.op u op' hu (by simp [hpool])
    have hbefore : op.terminal = false := by
      by_contra hended
      rw [hterminal (by simpa using hended)] at hlive
      cases hlive
    rw [OrphanedOp.pool_of_shape hshape] at hpool
    unfold OrphanedOp.buffers at hid
    rw [resource_of_shape hshape] at hid
    exact hplaces u op op' size g hop hu hpool hbefore hlive id hid
      (h.kept u op size g hop hpool hbefore id hid)

/-- The submissions and completions stay. -/
theorem Pooled.of_io (h : v.Pooled) (hshrinks : Shrinks v v') (hio : v'.io = v.io) : v'.Pooled := by
  refine h.shrinks hshrinks (fun sqe hsqe => .inl (hio ▸ hsqe)) (hio ▸ h.data) ?_
  intro u op op' size g _ _ _ _ _ id _ hone
  rw [hio]
  exact hone

theorem Valid.held_of_orphan (h : v.Valid) {u : ℕ} {op : OrphanedOp} (hop : v.orphan u = some op) :
    v.held u = some op := by
  have hnone := (h.apart u).resolve_right (by simp [hop])
  simp [held, hnone, hop]

namespace Shrinks

/-- The operations and the orphans are looked at one by one. -/
theorem of_entries (hop : ∀ u op', v'.op u = some op' → op'.pool ≠ none → ∃ op, v.op u = some op ∧
      op'.toOrphanedOp.shape = op.toOrphanedOp.shape ∧ (op.terminal = true → op'.terminal = true))
    (horphan : ∀ u op', v'.orphan u = some op' → ∃ op, v.held u = some op ∧ op'.shape = op.shape) :
    Shrinks v v' := by
  refine ⟨fun u op' hu hpool => ?_, hop⟩
  cases hu' : v'.op u with
  | none =>
    simp only [Table.held, hu', Option.elim_none] at hu
    exact horphan u op' hu
  | some op =>
    simp only [Table.held, hu', Option.elim_some, Option.some.injEq] at hu
    subst hu
    obtain ⟨old, hold, hshape, -⟩ := hop u op hu' hpool
    exact ⟨old.toOrphanedOp, held_of_op hold, hshape⟩

theorem of_eq (h : v.Valid) (hop : v'.op = v.op) (horphan : v'.orphan = v.orphan) :
    Shrinks v v' := by
  refine of_entries (fun u op hu _ => ?_) fun u op hu => ?_
  · rw [hop] at hu
    exact ⟨op, hu, rfl, fun hterminal => hterminal⟩
  · rw [horphan] at hu
    exact ⟨op, h.held_of_orphan hu, rfl⟩

/-- One operation is added that has no pool, or one changes. -/
theorem setOp (h : v.Valid) {w : ℕ} {op : OpState}
    (hop : v'.op = update v.op w (some op)) (horphan : v'.orphan = v.orphan)
    (hold : op.pool ≠ none → ∃ old, v.op w = some old ∧
      op.toOrphanedOp.shape = old.toOrphanedOp.shape ∧
      (old.terminal = true → op.terminal = true)) : Shrinks v v' := by
  refine of_entries (fun u op' hu hpool => ?_) fun u op' hu => ?_
  · rw [hop] at hu
    by_cases huw : u = w
    · subst huw
      rw [Function.update_self] at hu
      cases hu
      exact hold hpool
    · rw [Function.update_of_ne huw] at hu
      exact ⟨op', hu, rfl, fun hterminal => hterminal⟩
  · rw [horphan] at hu
    exact ⟨op', h.held_of_orphan hu, rfl⟩

theorem removeOp (h : v.Valid) {w : ℕ} (hop : v'.op = update v.op w none)
    (horphan : ∀ u op', v'.orphan u = some op' → v.orphan u = some op' ∨
      ∃ op, v.op u = some op ∧ op' = op.toOrphanedOp) : Shrinks v v' := by
  refine of_entries (fun u op' hu _ => ?_) fun u op' hu => ?_
  · rw [hop] at hu
    by_cases huw : u = w
    · subst huw
      rw [Function.update_self] at hu
      cases hu
    · rw [Function.update_of_ne huw] at hu
      exact ⟨op', hu, rfl, fun hterminal => hterminal⟩
  · rcases horphan u op' hu with hold | ⟨op, hold, rfl⟩
    · exact ⟨op', h.held_of_orphan hold, rfl⟩
    · exact ⟨op.toOrphanedOp, held_of_op hold, rfl⟩

theorem setOrphan (h : v.Valid) {w : ℕ} {old : OrphanedOp} (op : Option OrphanedOp)
    (hw : v.orphan w = some old) (hop : v'.op = v.op)
    (horphan : v'.orphan = update v.orphan w op)
    (hshape : ∀ op', op = some op' → op'.shape = old.shape) : Shrinks v v' := by
  refine of_entries (fun u op' hu _ => ?_) fun u op' hu => ?_
  · rw [hop] at hu
    exact ⟨op', hu, rfl, fun hterminal => hterminal⟩
  · rw [horphan] at hu
    by_cases huw : u = w
    · subst huw
      rw [Function.update_self] at hu
      exact ⟨old, h.held_of_orphan hw, hshape op' hu⟩
    · rw [Function.update_of_ne huw] at hu
      exact ⟨op', h.held_of_orphan hu, rfl⟩

end Shrinks

section Reap
variable {cqe : Cqe} {io : Traffic Sqe Cqe}

theorem io_reapCqe (v : Table) (cqe : Cqe) : (v.reapCqe cqe).io = v.io := by
  unfold Table.reapCqe
  split
  · unfold Table.reapCancel
    split_ifs
    · split
      · split_ifs <;> rfl
      · split
        · split_ifs <;> rfl
        · rfl
    · rfl
  · split
    · dsimp only
      split_ifs
      · unfold Table.reapCleanup
        split
        · rfl
        · split
          · split <;> rfl
          · rfl
      · unfold Table.reapProvide
        split_ifs
        · split <;> rfl
        · rfl
    · unfold Table.reapAnswer
      split
      · rfl
      · split
        · dsimp only
          split <;> rfl
        · rfl

end Reap

end Table

/-- When a completion gives a buffer back. -/
theorem OpState.refill_eq {op : OpState} {cqe : Cqe} {size g : ℕ}
    (hpool : op.pool = some (size, g)) :
    op.refill cqe = if 0 ≤ cqe.res ∧ cqe.hasBuffer = true ∧ cqe.bufferId < op.buffers size ∧
        cqe.res ≤ size ∧ cqe.more = true then
      some ⟨cqe.bufferId * size, size, g, cqe.bufferId % 2 ^ 16⟩ else none := by
  obtain ⟨m, hm, hkind⟩ := Option.bind_eq_some_iff.mp hpool
  have hrecv : m.eventKind = .recv size g := by
    cases hevent : m.eventKind with
    | accept => simp [hevent] at hkind
    | recv bufferSize bufferGroup =>
      simp only [hevent, Option.some.injEq, Prod.mk.injEq] at hkind
      rw [hkind.1, hkind.2]
  unfold OpState.refill
  rw [hm, Option.bind_some]
  unfold MultishotState.event OrphanedOp.buffers
  rw [hrecv]
  dsimp only
  by_cases hres : cqe.res < 0
  · rw [if_pos hres, if_neg (fun hall => by omega)]
  · rw [if_neg hres]
    cases hbuffer : cqe.hasBuffer with
    | false => simp
    | true =>
      by_cases hinvalid : op.resource.poolLength / size ≤ cqe.bufferId ∨ size < cqe.res.toNat
      · simp only [hinvalid, Bool.not_true, Bool.false_eq_true, ↓reduceIte]
        rw [if_neg (fun hall => by omega)]
      · simp only [hinvalid, Bool.not_true, Bool.false_eq_true, ↓reduceIte]
        push Not at hinvalid
        cases hmore : cqe.more with
        | false => simp
        | true =>
          refine (if_pos rfl).trans (if_pos ?_).symm
          exact ⟨by omega, trivial, hinvalid.1, by omega, rfl⟩

theorem OpState.terminal_answered {op : OpState} {cqe : Cqe} {size g : ℕ}
    (hpool : op.pool = some (size, g)) : (op.answered cqe).terminal = !cqe.more := by
  obtain ⟨m, hm, -⟩ := Option.bind_eq_some_iff.mp hpool
  simp [OpState.answered, hm, OrphanedOp.terminal]

theorem OpState.terminal_provideFailed {op : OpState} {res : ℤ} {size g : ℕ}
    (hpool : op.pool = some (size, g)) : (op.provideFailed res).terminal = true := by
  obtain ⟨m, hm, -⟩ := Option.bind_eq_some_iff.mp hpool
  simp [OpState.provideFailed, hm, OrphanedOp.terminal]

namespace Table
variable {v v' : Table} {cqe : Cqe} {io : Traffic Sqe Cqe}

/-- A completion does not announce more data of a stream that has ended. -/
def Orderly (v : Table) (cqe : Cqe) : Prop :=
  ∀ op ∈ v.op cqe.userData, op.pool ≠ none → op.terminal = true → cqe.more = false

instance (v : Table) (cqe : Cqe) : Decidable (v.Orderly cqe) :=
  inferInstanceAs (Decidable (∀ op ∈ v.op cqe.userData, _))

theorem Valid.shrinks_reap (h : v.Valid) (hreap : v.io.reap = some (cqe, io))
    (horderly : v.Orderly cqe) : Shrinks v (Table.reapCqe { v with io := io } cqe) := by
  have hsame : Shrinks v (v.clear io cqe.userData) := .of_eq h rfl rfl
  rcases h.reap_cases hreap with ⟨-, ⟨-, heq⟩ | ⟨-, heq⟩⟩ | ⟨-, -, -, heq⟩ | ⟨-, -, -, heq⟩ |
    ⟨-, -, -, -, heq⟩ <;> rw [heq]
  · unfold Table.reapCancel
    split_ifs
    · split
      · rename_i op hop
        split_ifs
        · exact .setOrphan h none hop rfl rfl nofun
        · exact hsame
      · split
        · split_ifs
          · exact .removeOp h rfl fun u op' hu => .inl hu
          · exact hsame
        · exact hsame
    · exact hsame
  · exact hsame
  · unfold Table.reapCleanup
    split
    · rename_i op hop
      refine .setOp h rfl rfl fun _ => ⟨op, hop, op.cleaned_shape _, fun hterminal => ?_⟩
      rw [OpState.terminal_cleaned]
      exact hterminal
    · split
      · rename_i op hop
        split
        · rename_i op' hop'
          refine .setOrphan h (some op') hop rfl rfl fun op'' heq => ?_
          cases heq
          exact OrphanedOp.cleaned_shape hop'
        · exact .setOrphan h none hop rfl rfl nofun
      · exact hsame
  · unfold Table.reapProvide
    split_ifs
    · split
      · rename_i op hop
        refine .setOp h rfl rfl fun hpool => ⟨op, hop, op.provideFailed_shape _, fun _ => ?_⟩
        rw [OrphanedOp.pool_of_shape (op.provideFailed_shape _)] at hpool
        obtain ⟨⟨size, g⟩, hpool⟩ := Option.ne_none_iff_exists'.mp hpool
        exact OpState.terminal_provideFailed hpool
      · exact hsame
    · exact hsame
  · unfold Table.reapAnswer
    split
    · rename_i op hop
      refine .setOp h rfl rfl fun hpool => ⟨op, hop, op.answered_shape _, fun hterminal => ?_⟩
      rw [OrphanedOp.pool_of_shape (op.answered_shape _)] at hpool
      have hmore := horderly op hop hpool hterminal
      obtain ⟨⟨size, g⟩, hpool⟩ := Option.ne_none_iff_exists'.mp hpool
      rw [OpState.terminal_answered hpool, hmore]
      rfl
    · split
      · rename_i op hop
        dsimp only
        split
        · rename_i op' hop'
          refine .setOrphan h (some op') hop rfl rfl fun op'' heq => ?_
          cases heq
          exact OrphanedOp.answered_shape hop'
        · exact .setOrphan h none hop rfl rfl nofun
      · exact hsame

theorem Valid.started_of_answer (h : v.Valid) (hreap : v.io.reap = some (cqe, io)) {op : OpState}
    (hop : v.op cqe.userData = some op) : cqe.sqe.Starts op.toOrphanedOp := by
  obtain ⟨huser, sqe, hsqe, hstarts⟩ := h.op _ op hop
  have heq : sqe.userData = cqe.sqe.userData := hstarts.1.trans huser
  rw [← h.io.tag_injective hsqe (h.sqe_mem hreap) heq]
  exact hstarts

/-- The receive of a stream selects from the stream's group. -/
theorem selects_of_starts {sqe : Sqe} {op : OrphanedOp} {size g : ℕ} (h : sqe.Starts op)
    (hpool : op.pool = some (size, g)) :
    sqe.selects = true ∧ sqe.bufIndex = g ∧ sqe.opcode = .recv := by
  obtain ⟨m, hm, hkind⟩ := Option.bind_eq_some_iff.mp hpool
  obtain ⟨-, -, -, hmultishot⟩ := h
  rw [hm] at hmultishot
  obtain ⟨hmultishot, hevent⟩ := hmultishot
  cases hrecv : m.eventKind with
  | accept => simp [hrecv] at hkind
  | recv bufferSize bufferGroup =>
    simp only [hrecv] at hkind hevent
    obtain ⟨hopcode, hgroup, -⟩ := hevent
    cases hkind
    exact ⟨by simp [Sqe.selects, hopcode, hmultishot], hgroup, hopcode⟩

/-- A completion holds no buffer of a stream that stays live, unless it answers the stream and
gives the buffer back. -/
theorem Pooled.keep_eq_zero (h : v.Pooled) (hvalid : v.Valid)
    (hreap : v.io.reap = some (cqe, io)) {u size g id : ℕ} {op op' : OpState}
    (hu : v.op u = some op) (hu' : (Table.reapCqe { v with io := io } cqe).op u = some op')
    (hpool : op.pool = some (size, g)) (hlive : op'.terminal = false) (hid : id < op.buffers size)
    (hrefill : cqe.userData = u → op.refill cqe = none) : cqe.keep g id = 0 := by
  by_contra hne
  have howner := (h.belongs _ (sqe_mem_outstanding hreap)).owner u _ size g (held_of_op hu) hpool
    (Cqe.uses_of_keep hne)
  have hcarry : cqe.sqe.opcode ≠ .provideBuffers → cqe.selected = true := by
    intro hopcode
    by_contra hselected
    rw [Cqe.keep, if_neg hselected, Sqe.carry_of_opcode hopcode] at hne
    exact hne (ite_self 0)
  have hunselected : cqe.sqe.opcode ≠ .recv → cqe.sqe.opcode = .provideBuffers := by
    intro hopcode
    by_contra hprovide
    have := hcarry hprovide
    rw [Cqe.selected_of_opcode hopcode] at this
    cases this
  rcases hvalid.reap_cases hreap with ⟨hopcode, -⟩ | ⟨hopcode, -⟩ | ⟨hopcode, -, -, heq⟩ |
    ⟨hcontrol, hself, -, -, heq⟩
  · cases hopcode.symm.trans (hunselected (by rw [hopcode]; decide))
  · cases hopcode.symm.trans (hunselected (by rw [hopcode]; decide))
  · have hselected := Cqe.selected_of_opcode (show cqe.sqe.opcode ≠ .recv by rw [hopcode]; decide)
    have hres : cqe.res < 0 := by
      by_contra hres
      rw [Cqe.keep, hselected, if_neg (by decide), if_neg hres] at hne
      exact hne rfl
    rw [heq, Table.reapProvide, if_pos hres] at hu'
    simp only [Table.clear, howner, hu, Table.setOp, Function.update_self, Option.some.injEq] at hu'
    rw [← hu', OpState.terminal_provideFailed hpool] at hlive
    cases hlive
  · have hselected := hcarry fun hopcode => by simp [hopcode, Opcode.control] at hcontrol
    rw [hself] at howner
    subst howner
    have hdata : cqe.Sane := by
      obtain ⟨rest, hcq, -⟩ := Traffic.reap_eq_some.mp hreap
      exact h.data cqe (by simp [hcq])
    obtain ⟨hpos, hle, -⟩ := hdata hselected
    have hstarts := hvalid.started_of_answer hreap hu
    obtain ⟨-, -, hopcode⟩ := selects_of_starts hstarts hpool
    have hlength := (h.belongs _ (sqe_mem_outstanding hreap)).length _ _ size g (held_of_op hu)
      hpool (Cqe.uses_of_keep hne) hopcode
    have hbuffer : cqe.bufferId = id := by
      by_contra hother
      rw [Cqe.keep, if_pos hselected, if_neg (fun hboth => hother hboth.2)] at hne
      exact hne rfl
    rw [heq] at hu'
    simp only [Table.reapAnswer, Table.clear, hu, Table.setOp, Function.update_self,
      Option.some.injEq] at hu'
    rw [← hu', OpState.terminal_answered hpool, Bool.not_eq_false'] at hlive
    have hnone := hrefill rfl
    rw [OpState.refill_eq hpool, if_pos] at hnone
    · cases hnone
    · simp only [Cqe.selected, Bool.and_eq_true] at hselected
      exact ⟨hpos, hselected.2, hbuffer ▸ hid, hlength ▸ hle, hlive⟩

theorem Pooled.data_reap (h : v.Pooled) (hreap : v.io.reap = some (cqe, io)) :
    ∀ a ∈ io.cq, a.Sane := by
  intro a ha
  obtain ⟨rest, hcq, rfl⟩ := Traffic.reap_eq_some.mp hreap
  exact h.data a (by rw [hcq]; exact List.mem_cons_of_mem _ ha)

/-- A completion that gives no buffer back. -/
theorem Pooled.reap (h : v.Pooled) (hvalid : v.Valid) (hreap : v.io.reap = some (cqe, io))
    (horderly : v.Orderly cqe)
    (hrefill : ∀ op, v.op cqe.userData = some op → op.refill cqe = none) :
    (Table.reapCqe { v with io := io } cqe).Pooled := by
  have hio : (Table.reapCqe { v with io := io } cqe).io = io := io_reapCqe _ cqe
  refine h.shrinks (hvalid.shrinks_reap hreap horderly) (fun sqe hsqe => ?_) ?_ ?_
  · rw [hio] at hsqe
    exact .inl (mem_outstanding_reap hreap hsqe)
  · rw [hio]
    exact h.data_reap hreap
  · intro u op op' size g hu hu' hpool _ hlive id hid hone
    have hkeep := h.keep_eq_zero hvalid hreap hu hu' hpool hlive hid fun heq =>
      hrefill op (heq ▸ hu)
    rw [places_reap hreap, hkeep] at hone
    rw [hio]
    exact hone

/-- A completion whose buffer goes back to the kernel. -/
theorem Pooled.refill (h : v.Pooled) (hvalid : v.Valid) (hreap : v.io.reap = some (cqe, io))
    (horderly : v.Orderly cqe) {op : OpState} {refill : Refill} (sqe : Sqe)
    (hop : v.op cqe.userData = some op) (hrefill : op.refill cqe = some refill)
    (hopcode : sqe.opcode = .provideBuffers) (hgroup : sqe.bufIndex = refill.bufferGroup)
    (hids : sqe.ids = [refill.bufferId]) (howner : sqe.owner = cqe.userData)
    (hop' : v'.op = (Table.reapCqe { v with io := io } cqe).op)
    (horphan' : v'.orphan = (Table.reapCqe { v with io := io } cqe).orphan)
    (hio' : v'.io = io.queue sqe) : v'.Pooled := by
  have hshrinks : Shrinks v v' := by
    obtain ⟨hheld, hops⟩ := hvalid.shrinks_reap hreap horderly
    refine ⟨fun u op' hu hpool => hheld u op' ?_ hpool, fun u op' hu => hops u op' (hop' ▸ hu)⟩
    unfold held at hu ⊢
    rw [hop', horphan'] at hu
    exact hu
  obtain ⟨⟨size, g⟩, hpool⟩ := Option.ne_none_iff_exists'.mp (show op.pool ≠ none by
    intro hnone
    have hreceives := Ring.receives_of_refill hrefill
    obtain ⟨m, hm, hkind⟩ := (Option.any_eq_true ..).mp hreceives
    cases hevent : m.eventKind with
    | accept => simp [hevent] at hkind
    | recv => simp [OrphanedOp.pool, hm, hevent] at hnone)
  rw [OpState.refill_eq hpool] at hrefill
  split_ifs at hrefill with hall
  cases hrefill
  obtain ⟨-, hbuffer, -⟩ := hall
  obtain ⟨hselects, hindex, -⟩ := selects_of_starts (hvalid.started_of_answer hreap hop) hpool
  have hselected : cqe.selected = true := by simp [Cqe.selected, hselects, hbuffer]
  have hdata : cqe.Sane := by
    obtain ⟨rest, hcq, -⟩ := Traffic.reap_eq_some.mp hreap
    exact h.data cqe (by simp [hcq])
  have hsmall := (hdata hselected).2.2
  have hsame : ∀ u op' size', v.held u = some op' → op'.pool = some (size', g) →
      u = cqe.userData := fun u op' size' hu hpool' =>
    h.apart u _ op' _ size' size g hu (held_of_op hop) hpool' hpool
  have huses : ∀ {g'}, sqe.uses g' = true → g' = g := by
    intro g' huses
    simp only [Sqe.uses, Bool.and_eq_true, beq_iff_eq] at huses
    exact huses.2.symm.trans hgroup
  refine h.shrinks hshrinks (fun a ha => ?_) ?_ ?_
  · rw [hio'] at ha
    rcases mem_outstanding_queue ha with hold | rfl
    · exact .inl (mem_outstanding_reap hreap hold)
    · refine .inr ⟨fun u op' size' g' hu hpool' ha => ?_, fun _ _ _ _ _ _ _ hrecv => ?_,
        fun _ _ _ _ _ _ _ hremove => ?_⟩
      · obtain ⟨old, hold, hshape⟩ := hshrinks.held u op' hu (by simp [hpool'])
        rw [OrphanedOp.pool_of_shape hshape, huses ha] at hpool'
        exact howner.trans (hsame u old size' hold hpool').symm
      · cases hopcode.symm.trans hrecv
      · cases hopcode.symm.trans hremove
  · rw [hio']
    change ∀ a ∈ io.cq, a.Sane
    exact h.data_reap hreap
  · intro u op₁ op₂ size' g' hu _ hpool' _ _ id _ hone
    have hmoved : cqe.keep g' id = sqe.carry g' id := by
      by_cases hg : g' = g
      · subst hg
        simp only [Cqe.keep, hselected, ↓reduceIte, hindex, true_and, Sqe.carry, hopcode, hgroup,
          hids, List.mem_singleton, Nat.mod_eq_of_lt hsmall, eq_comm]
      · rw [Sqe.carry_of_group (by rw [hgroup]; exact Ne.symm hg), Cqe.keep, if_pos hselected,
          if_neg (fun hboth => hg (hboth.1.symm.trans hindex))]
    rw [places_reap hreap, hmoved] at hone
    rw [hio', places_queue]
    exact hone

theorem Pooled.consume (h : v.Pooled) (hvalid : v.Valid) (n : ℕ) :
    Pooled { v with io := v.io.consume n } := by
  refine h.shrinks (.of_eq hvalid rfl rfl) (fun sqe hsqe => .inl (mem_outstanding_consume hsqe))
    h.data ?_
  intro u op op' size g _ _ _ _ _ id _ hone
  rw [places_consume]
  exact hone

theorem Pooled.post (h : v.Pooled) (hvalid : v.Valid) {i : ℕ}
    (hi : v.io.inFlight[i]? = some cqe.sqe) (hsane : cqe.Sane)
    (hselects : cqe.selected = true → cqe.bufferId ∈ available v.io cqe.sqe.bufIndex) :
    Pooled { v with io := v.io.post Cqe.last i cqe } := by
  have hmem : cqe.sqe ∈ outstanding v.io := by
    simp only [outstanding, List.mem_append]
    exact .inl (.inr (List.mem_of_getElem? hi))
  refine h.shrinks (.of_eq hvalid rfl rfl) (fun sqe hsqe => .inl (mem_outstanding_post hi hsqe)) ?_ ?_
  · intro a ha
    change a ∈ v.io.cq ++ [cqe] at ha
    rcases List.mem_append.mp ha with hold | hnew
    · exact h.data a hold
    · obtain rfl := List.mem_singleton.mp hnew
      exact hsane
  · intro u op op' size g hu _ hpool hlive _ id _ hone
    rw [places_post hi]
    · exact hone
    · intro hgroup hremove
      have huses : cqe.sqe.uses g = true := by simp [Sqe.uses, hremove, hgroup, Opcode.buffers]
      have hended := (h.belongs _ hmem).ended u op size g hu hpool huses hremove
      rw [hlive] at hended
      cases hended
    · rintro rfl
      exact hselects

theorem Pooled.queue (h : v.Pooled) (hshrinks : Shrinks v v') {sqe : Sqe}
    (hio : v'.io = v.io.queue sqe) (hbelongs : v'.Belongs sqe)
    (hopcode : sqe.opcode ≠ .provideBuffers) : v'.Pooled := by
  refine h.shrinks hshrinks (fun a ha => ?_) ?_ ?_
  · rw [hio] at ha
    rcases mem_outstanding_queue ha with hold | rfl
    · exact .inl hold
    · exact .inr hbelongs
  · rw [hio]
    exact h.data
  · intro u op op' size g _ _ _ _ _ id _ hone
    rw [hio, places_queue, Sqe.carry_of_opcode hopcode]
    exact hone

theorem pool_of_request {op : OrphanedOp} {target count group : ℕ}
    (h : cleanupRequest op = some (target, count, group)) :
    op.terminal = true ∧ ∃ size, op.pool = some (size, group) := by
  obtain ⟨m, hm, hrequest⟩ := Option.bind_eq_some_iff.mp h
  split_ifs at hrequest with hwait
  have hterminal : m.terminal = true := by
    by_contra hlive
    simp [hlive] at hwait
  refine ⟨by simp [OrphanedOp.terminal, hm, hterminal], ?_⟩
  split at hrequest
  · cases hrequest
  · rename_i size group' hkind
    dsimp only at hrequest
    split_ifs at hrequest
    cases hrequest
    exact ⟨size, by simp [OrphanedOp.pool, hm, hkind]⟩

/-- The buffers of a stream that has ended are to be taken back. -/
theorem Pooled.cleanup (h : v.Pooled) (hvalid : v.Valid) {op : OrphanedOp} {count : ℕ} (sqe : Sqe)
    (hopcode : sqe.opcode = .removeBuffers) (hheld : v.held sqe.owner = some op)
    (hrequest : cleanupRequest op = some (sqe.owner, count, sqe.bufIndex))
    (hop' : v'.op = (v.op sqe.owner).elim v.op fun op =>
      update v.op sqe.owner (some (op.setCleanup sqe.userData)))
    (horphan' : v'.orphan = (v.orphan sqe.owner).elim v.orphan fun op =>
      update v.orphan sqe.owner (some (op.setCleanup sqe.userData)))
    (hio' : v'.io = v.io.queue sqe) : v'.Pooled := by
  obtain ⟨hterminal, size, hpool⟩ := pool_of_request hrequest
  have hshrinks : Shrinks v v' := by
    refine .of_entries (fun u op' hu _ => ?_) fun u op' hu => ?_
    · rw [hop'] at hu
      cases hown : v.op sqe.owner with
      | none =>
        rw [hown] at hu
        exact ⟨op', hu, rfl, fun hended => hended⟩
      | some old =>
        rw [hown, Option.elim_some] at hu
        by_cases huw : u = sqe.owner
        · subst huw
          rw [Function.update_self] at hu
          cases hu
          refine ⟨old, hown, OrphanedOp.setCleanup_shape _ _, fun hended => ?_⟩
          exact (OrphanedOp.terminal_setCleanup).trans hended
        · rw [Function.update_of_ne huw] at hu
          exact ⟨op', hu, rfl, fun hended => hended⟩
    · rw [horphan'] at hu
      cases hown : v.orphan sqe.owner with
      | none =>
        rw [hown] at hu
        exact ⟨op', hvalid.held_of_orphan hu, rfl⟩
      | some old =>
        rw [hown, Option.elim_some] at hu
        by_cases huw : u = sqe.owner
        · subst huw
          rw [Function.update_self] at hu
          cases hu
          exact ⟨old, hvalid.held_of_orphan hown, OrphanedOp.setCleanup_shape _ _⟩
        · rw [Function.update_of_ne huw] at hu
          exact ⟨op', hvalid.held_of_orphan hu, rfl⟩
  have hsame : ∀ {u op' size' g}, v.held u = some op' → op'.pool = some (size', g) →
      sqe.uses g = true → u = sqe.owner := by
    intro u op' size' g hu hpool' huses
    simp only [Sqe.uses, Bool.and_eq_true, beq_iff_eq] at huses
    rw [← huses.2] at hpool'
    exact h.apart u _ op' op size' size _ hu hheld hpool' hpool
  refine h.queue hshrinks hio' ⟨fun u op' size' g hu hpool' huses => ?_,
    fun _ _ _ _ _ _ _ hrecv => ?_, fun u op' size' g hu hpool' huses _ => ?_⟩ ?_
  · obtain ⟨old, hold, hshape⟩ := hshrinks.held u op' hu (by simp [hpool'])
    rw [OrphanedOp.pool_of_shape hshape] at hpool'
    exact (hsame hold hpool' huses).symm
  · cases hopcode.symm.trans hrecv
  · obtain ⟨old, hold, hshape, hended⟩ := hshrinks.op u op' hu (by simp [hpool'])
    refine hended ?_
    rw [OrphanedOp.pool_of_shape hshape] at hpool'
    have hu := hsame (held_of_op hold) hpool' huses
    subst hu
    rw [held_of_op hold] at hheld
    cases hheld
    exact hterminal
  · rw [hopcode]
    decide

structure GroupFree (v : Table) (g : ℕ) : Prop where
  entries : ∀ u op size, v.held u = some op → op.pool ≠ some (size, g)
  submissions : ∀ sqe ∈ outstanding v.io, sqe.uses g = false
  buffers : available v.io g = []

theorem GroupFree.places_eq_zero {g : ℕ} (h : v.GroupFree g) (id : ℕ) : places v.io g id = 0 := by
  have hcarry : total (Sqe.carry g id) (v.io.sq ++ v.io.inFlight) = 0 := by
    refine total_eq_zero_iff.mpr fun sqe hsqe => ?_
    by_contra hne
    have := h.submissions sqe (List.mem_append_left _ hsqe)
    rw [Sqe.uses_of_carry hne] at this
    cases this
  have hkeep : total (Cqe.keep g id) v.io.cq = 0 := by
    refine total_eq_zero_iff.mpr fun a ha => ?_
    by_contra hne
    have := h.submissions a.sqe (List.mem_append_right _ (List.mem_map_of_mem ha))
    rw [Cqe.uses_of_keep hne] at this
    cases this
  unfold places
  rw [h.buffers, hcarry, hkeep]
  rfl

/-- One operation with a future more is in the tables. -/
structure Opens (v : Table) (u : ℕ) (op : OpState) (v' : Table) : Prop where
  op : v'.op = update v.op u (some op)
  orphan : v'.orphan = v.orphan

section Opens
variable {u size g : ℕ} {op : OpState}

theorem Opens.of_held (h : v.Opens u op v') {w : ℕ} {op' : OrphanedOp} (hw : v'.held w = some op') :
    w = u ∧ op' = op.toOrphanedOp ∨ w ≠ u ∧ v.held w = some op' := by
  by_cases hwu : w = u
  · subst hwu
    simp only [held, h.op, Function.update_self, Option.elim_some, Option.some.injEq] at hw
    exact .inl ⟨rfl, hw.symm⟩
  · simp only [held, h.op, h.orphan, Function.update_of_ne hwu] at hw
    exact .inr ⟨hwu, hw⟩

theorem Opens.of_op (h : v.Opens u op v') {w : ℕ} {op' : OpState} (hw : v'.op w = some op') :
    w = u ∧ op' = op ∨ w ≠ u ∧ v.op w = some op' := by
  rw [h.op] at hw
  by_cases hwu : w = u
  · subst hwu
    rw [Function.update_self] at hw
    exact .inl ⟨rfl, (Option.some.inj hw).symm⟩
  · rw [Function.update_of_ne hwu] at hw
    exact .inr ⟨hwu, hw⟩

theorem Opens.belongs_new (h : v.Opens u op v') (hfree : v.GroupFree g)
    (hpool : op.pool = some (size, g)) {a : Sqe} (hindex : a.bufIndex = g) (howner : a.owner = u)
    (hlen : a.opcode = .recv → a.len = size) (hremove : a.opcode ≠ .removeBuffers) :
    v'.Belongs a := by
  have huses : ∀ {w op' size' g'}, v'.held w = some op' → op'.pool = some (size', g') →
      a.uses g' = true → w = u ∧ op' = op.toOrphanedOp := by
    intro w op' size' g' hw hpool' huses
    simp only [Sqe.uses, Bool.and_eq_true, beq_iff_eq] at huses
    obtain rfl : g' = g := huses.2.symm.trans hindex
    rcases h.of_held hw with hself | ⟨-, hold⟩
    · exact hself
    · exact absurd hpool' (hfree.entries w op' size' hold)
  refine ⟨fun w op' size' g' hw hpool' ha => ?_, fun w op' size' g' hw hpool' ha hopcode => ?_,
    fun _ _ _ _ _ _ _ hopcode => absurd hopcode hremove⟩
  · exact howner.trans (huses hw hpool' ha).1.symm
  · obtain ⟨-, rfl⟩ := huses hw hpool' ha
    rw [hpool] at hpool'
    cases hpool'
    exact hlen hopcode

theorem Opens.belongs_old (h : v.Opens u op v') (hfree : v.GroupFree g)
    (hpool : op.pool = some (size, g)) {a : Sqe} (ha : a ∈ outstanding v.io)
    (hbelongs : v.Belongs a) : v'.Belongs a := by
  have hother : ∀ {size' g'}, op.pool = some (size', g') → a.uses g' ≠ true := by
    intro size' g' hsame huses
    rw [hpool, Option.some.injEq, Prod.mk.injEq] at hsame
    rw [← hsame.2, hfree.submissions a ha] at huses
    cases huses
  refine ⟨fun w op' size' g' hw hpool' huses => ?_, fun w op' size' g' hw hpool' huses => ?_,
    fun w op' size' g' hw hpool' huses => ?_⟩
  · rcases h.of_held hw with ⟨-, rfl⟩ | ⟨-, hold⟩
    · exact absurd huses (hother hpool')
    · exact hbelongs.owner w op' size' g' hold hpool' huses
  · rcases h.of_held hw with ⟨-, rfl⟩ | ⟨-, hold⟩
    · exact absurd huses (hother hpool')
    · exact hbelongs.length w op' size' g' hold hpool' huses
  · rcases h.of_op hw with ⟨-, rfl⟩ | ⟨-, hold⟩
    · exact absurd huses (hother hpool')
    · exact hbelongs.ended w op' size' g' hold hpool' huses

theorem Pooled.startRecv (h : v.Pooled) (control sqe : Sqe) (hfree : v.GroupFree g)
    (hpool : op.pool = some (size, g)) (hcontrol : control.opcode = .provideBuffers)
    (hgroup : control.bufIndex = g) (hids : ∀ id < op.buffers size, id ∈ control.ids)
    (howner : control.owner = u) (hrecv : sqe.opcode = .recv) (hgroup' : sqe.bufIndex = g)
    (hlength : sqe.len = size) (howner' : sqe.owner = u) (hopens : v.Opens u op v')
    (hio' : v'.io = (v.io.queue control).queue sqe) : v'.Pooled := by
  refine ⟨fun a ha => ?_, ?_, ?_, fun w op' size' g' hw hpool' hlive id hid => ?_⟩
  · rw [hio'] at ha
    rcases mem_outstanding_queue ha with ha | rfl
    · rcases mem_outstanding_queue ha with ha | rfl
      · exact hopens.belongs_old hfree hpool ha (h.belongs a ha)
      · refine hopens.belongs_new hfree hpool hgroup howner ?_ ?_ <;> rw [hcontrol] <;> nofun
    · refine hopens.belongs_new hfree hpool hgroup' howner' (fun _ => hlength) ?_
      rw [hrecv]
      decide
  · intro w w' a b sizeA sizeB g' ha hb hpa hpb
    rcases hopens.of_held ha with ⟨rfl, rfl⟩ | ⟨-, ha⟩
    · rcases hopens.of_held hb with ⟨rfl, rfl⟩ | ⟨-, hb⟩
      · rfl
      · rw [hpool] at hpa
        cases hpa
        exact absurd hpb (hfree.entries w' b sizeB hb)
    · rcases hopens.of_held hb with ⟨rfl, rfl⟩ | ⟨-, hb⟩
      · rw [hpool] at hpb
        cases hpb
        exact absurd hpa (hfree.entries w a sizeA ha)
      · exact h.apart w w' a b sizeA sizeB g' ha hb hpa hpb
  · rw [hio']
    exact h.data
  · have hsqe : sqe.carry g' id = 0 := Sqe.carry_of_opcode (by rw [hrecv]; decide) _ _
    rw [hio', places_queue, places_queue, hsqe]
    rcases hopens.of_op hw with ⟨rfl, rfl⟩ | ⟨-, hold⟩
    · rw [hpool] at hpool'
      cases hpool'
      rw [hfree.places_eq_zero, Sqe.carry, if_pos ⟨hcontrol, hgroup, hids id hid⟩]
    · have hother : control.bufIndex ≠ g' := by
        rintro rfl
        rw [hgroup] at hpool'
        exact hfree.entries w _ size' (held_of_op hold) hpool'
      rw [Sqe.carry_of_group hother]
      exact h.kept w op' size' g' hold hpool' hlive id hid

end Opens

end Table

end Eddy.Uring
