import Eddy.UringFutures

/-!
# Operations by their user data

What the tables of the ring mean: an operation is found by its `user_data`, whatever slot it is
in. The moves are everything that a section of the code or the kernel can do to the tables.
-/

namespace Eddy.Uring
open Function (update)

structure Table where
  /-- Where the slab has an operation that has a future. -/
  index : ℕ → Option ℕ
  op : ℕ → Option OpState
  orphan : ℕ → Option OrphanedOp
  cancel : ℕ → Option ℕ
  provide : ℕ → Option ℕ
  cleanup : ℕ → Bool
  io : Traffic Sqe Cqe
  allocated : ℕ
  released : List OrphanedOp
  dropped : List ℕ
  ended : List ℕ
  transferred : List (ℕ × ℕ)
  closed : List (ℕ × ℕ)

def Ring.table (r : Ring) : Table where
  index := r.opsByUserData
  op := r.ops.lookup r.opsByUserData
  orphan := r.orphaned.lookup r.orphanedByUserData
  cancel := r.cancelTargets
  provide := r.provideTargets
  cleanup := r.cleanupTargets
  io := r.io
  allocated := r.allocated
  released := r.released
  dropped := r.dropped
  ended := r.ended
  transferred := r.transferred
  closed := r.closed

def Sqe.Starts (sqe : Sqe) (op : OrphanedOp) : Prop :=
  sqe.userData = op.userData ∧ sqe.owner = op.userData ∧ sqe.opcode.control = false ∧
    match op.multishot with
    | none => sqe.multishot = false ∧ (sqe.opcode = .accept ↔ op.resource = .accept) ∧
        op.resource ≠ .multishotAccept ∧ ∀ n, op.resource ≠ .multishotRecv n
    | some m => sqe.multishot = true ∧
        match m.eventKind with
        | .accept => sqe.opcode = .accept ∧ op.resource = .multishotAccept
        | .recv _ bufferGroup => sqe.opcode = .recv ∧ sqe.bufIndex = bufferGroup ∧
            ∃ n, op.resource = .multishotRecv n

def OrphanedOp.receives (op : OrphanedOp) : Bool := op.multishot.any (·.eventKind != .accept)

/-- An operation that was just started. -/
def OpState.Fresh (op : OpState) : Prop :=
  op.result = none ∧ ∀ m, op.multishot = some m → m.events = [] ∧ m.terminal = false ∧
    m.cleanupUserData = none ∧ (m.cleanupComplete = true ↔ m.eventKind = .accept)

namespace Table

/-- The operation of this `user_data`, with a future or without one. -/
def held (v : Table) (u : ℕ) : Option OrphanedOp :=
  (v.op u).elim (v.orphan u) fun op => some op.toOrphanedOp

def setOp (v : Table) (u : ℕ) (op : OpState) : Table :=
  { v with op := update v.op u (some op) }

def setOrphan (v : Table) (u : ℕ) (op : OrphanedOp) : Table :=
  { v with orphan := update v.orphan u (some op) }

/-- The operation leaves the tables; its resource is dropped or returned. -/
def releaseOp (v : Table) (u : ℕ) (op : OpState) : Table :=
  { v with
    index := update v.index u none
    op := update v.op u none
    released := v.released ++ [op.toOrphanedOp] }

def releaseOrphan (v : Table) (u : ℕ) (op : OrphanedOp) : Table :=
  { v with
    orphan := update v.orphan u none
    released := v.released ++ [op] }

/-- A submission with the next `user_data` is queued. -/
def queue (v : Table) (sqe : Sqe) : Table :=
  { v with
    allocated := v.allocated + 1
    io := v.io.queue sqe }

def reapCancel (v : Table) (target : ℕ) (res : ℤ) : Table :=
  if res = 0 then
    match v.orphan target with
    | some op => if op.multishot.isNone then v.releaseOrphan target op else v
    | none =>
      match v.op target with
      | some op => if op.multishot.isNone then v.releaseOp target op else v
      | none => v
  else v

def reapCleanup (v : Table) (target : ℕ) (res : ℤ) : Table :=
  match v.op target with
  | some op => v.setOp target (op.cleaned res)
  | none =>
    match v.orphan target with
    | some op =>
      match op.cleaned res with
      | some op' => v.setOrphan target op'
      | none => v.releaseOrphan target op
    | none => v

def reapProvide (v : Table) (target : ℕ) (res : ℤ) : Table :=
  if res < 0 then
    match v.op target with
    | some op => v.setOp target (op.provideFailed res)
    | none => v
  else v

/-- A completion of an operation itself. -/
def reapAnswer (v : Table) (cqe : Cqe) : Table :=
  match v.op cqe.userData with
  | some op => v.setOp cqe.userData (op.answered cqe)
  | none =>
    match v.orphan cqe.userData with
    | some op =>
      let v := { v with
        closed := v.closed ++ (op.unclaimedFds cqe).map (cqe.userData, ·) }
      match op.answered cqe with
      | some op' => v.setOrphan cqe.userData op'
      | none => v.releaseOrphan cqe.userData op
    | none => v

def reapCqe (v : Table) (cqe : Cqe) : Table :=
  match v.cancel cqe.userData with
  | some target =>
    reapCancel { v with
      cancel := update v.cancel cqe.userData none } target cqe.res
  | none =>
    match v.provide cqe.userData with
    | some target =>
      let isCleanup := v.cleanup cqe.userData
      let v := { v with
        provide := update v.provide cqe.userData none
        cleanup := update v.cleanup cqe.userData false }
      if isCleanup then v.reapCleanup target cqe.res else v.reapProvide target cqe.res
    | none => v.reapAnswer cqe

/-- What a move does, as far as a run may be restricted. -/
inductive Kind where
  | quiet
  | reap (cqe : Cqe)
  | drop (userData : ℕ)

inductive Move : Table → Kind → Table → Prop where
  | stay {v : Table} : Move v .quiet v
  /-- A `user_data` is allocated and not used. -/
  | alloc {v : Table} : Move v .quiet { v with allocated := v.allocated + 1 }
  | start {v : Table} {key : ℕ} {op : OpState} {sqe : Sqe} :
      sqe.userData = v.allocated + 1 → sqe.Starts op.toOrphanedOp → op.Fresh →
      Move v .quiet { (v.queue sqe).setOp sqe.userData op with
        index := update v.index sqe.userData (some key) }
  | startRecv {v : Table} {key : ℕ} {op : OpState} {sqe control : Sqe} :
      sqe.userData = v.allocated + 1 → sqe.Starts op.toOrphanedOp → op.Fresh →
      op.toOrphanedOp.receives = true → control.userData = v.allocated + 2 →
      control.opcode = .provideBuffers → control.owner = sqe.userData →
      Move v .quiet { ((v.queue control).queue sqe).setOp sqe.userData op with
        index := update v.index sqe.userData (some key)
        provide := update v.provide control.userData (some sqe.userData) }
  | register {v : Table} {u waker : ℕ} {op : OpState} : v.op u = some op →
      Move v .quiet (v.setOp u { op with waker := some waker })
  | pop {v : Table} {u : ℕ} {op : OpState} {m : MultishotState} {event : MultishotEvent}
      {events : List MultishotEvent} : v.op u = some op → op.multishot = some m →
      m.events = event :: events →
      Move v .quiet { v.setOp u { op with multishot := some { m with events := events } } with
        transferred := v.transferred ++ event.fds.map (u, ·) }
  | take {v : Table} {u : ℕ} {op : OpState} {result : Except IoError ℕ} : v.op u = some op →
      op.multishot = none → op.result = some result →
      Move v .quiet { v.releaseOp u op with
        transferred := v.transferred ++ (acceptedFd (result, op.resource)).map (u, ·) }
  | check {v : Table} {u : ℕ} {op : OpState} {m : MultishotState} : v.op u = some op →
      op.multishot = some m → m.finished = true →
      Move v .quiet { v with ended := v.ended ++ [u] }
  | finish {v : Table} {u : ℕ} {op : OpState} : v.op u = some op → op.multishot.isSome = true →
      u ∈ v.ended → Move v .quiet (v.releaseOp u op)
  | dropComplete {v : Table} {u : ℕ} {op : OpState} : v.op u = some op → op.complete? = true →
      Move v (.drop u) { v.releaseOp u op with
        closed := v.closed ++ op.unclaimedFds.map (u, ·)
        dropped := v.dropped ++ [u] }
  | dropToOrphan {v : Table} {u : ℕ} {op : OpState} : v.op u = some op → op.complete? = false →
      Move v (.drop u) { v.setOrphan u op.toOrphanedOp with
        index := update v.index u none
        op := update v.op u none
        dropped := v.dropped ++ [u] }
  | cancel {v : Table} {sqe : Sqe} : sqe.userData = v.allocated + 1 →
      sqe.opcode = .asyncCancel → v.op sqe.owner = none →
      (∃ started ∈ v.io.queued, started.userData = sqe.owner ∧ started.opcode.control = false) →
      Move v .quiet { v.queue sqe with
        cancel := update v.cancel sqe.userData (some sqe.owner) }
  | uncancel {v : Table} {c : ℕ} :
      Move v .quiet { v with cancel := update v.cancel c none }
  | consume {v : Table} {n : ℕ} : Move v .quiet { v with io := v.io.consume n }
  | post {v : Table} {i : ℕ} {cqe : Cqe} : v.io.inFlight[i]? = some cqe.sqe →
      Move v .quiet { v with io := v.io.post Cqe.last i cqe }
  | reap {v : Table} {cqe : Cqe} {io : Traffic Sqe Cqe} : v.io.reap = some (cqe, io) →
      Move v (.reap cqe) (reapCqe { v with io := io } cqe)
  | refill {v : Table} {op : OpState} {sqe : Sqe} : sqe.userData = v.allocated + 1 →
      sqe.opcode = .provideBuffers → v.op sqe.owner = some op →
      op.toOrphanedOp.receives = true →
      Move v .quiet { v.queue sqe with
        provide := update v.provide sqe.userData (some sqe.owner) }
  | cleanup {v : Table} {op : OrphanedOp} {count : ℕ} {sqe : Sqe} :
      sqe.userData = v.allocated + 1 → sqe.opcode = .removeBuffers →
      v.held sqe.owner = some op → cleanupRequest op = some (sqe.owner, count, sqe.bufIndex) →
      Move v .quiet { v.queue sqe with
        provide := update v.provide sqe.userData (some sqe.owner)
        cleanup := update v.cleanup sqe.userData true
        op := (v.op sqe.owner).elim v.op fun op =>
          update v.op sqe.owner (some (op.setCleanup sqe.userData))
        orphan := (v.orphan sqe.owner).elim v.orphan fun op =>
          update v.orphan sqe.owner (some (op.setCleanup sqe.userData)) }

end Table

/-- The parts of an operation that its submission determines. -/
def OrphanedOp.shape (op : OrphanedOp) : OpResource × ℕ × Option MultishotEventKind :=
  (op.resource, op.userData, op.multishot.map MultishotState.eventKind)

theorem Sqe.Starts.of_shape {sqe : Sqe} {a b : OrphanedOp} (h : sqe.Starts a)
    (hshape : b.shape = a.shape) : sqe.Starts b := by
  obtain ⟨resource, userData, m⟩ := a
  obtain ⟨resource', userData', m'⟩ := b
  simp only [OrphanedOp.shape, Prod.mk.injEq] at hshape
  obtain ⟨rfl, rfl, hm⟩ := hshape
  cases m <;> cases m' <;> simp_all [Sqe.Starts]

theorem OrphanedOp.receives_of_shape {a b : OrphanedOp} (h : a.shape = b.shape) :
    a.receives = b.receives := by
  have hreceives : ∀ op : OrphanedOp, op.receives = op.shape.2.2.any (· != .accept) := by
    intro op
    cases hm : op.multishot <;> simp [OrphanedOp.receives, OrphanedOp.shape, hm]
  rw [hreceives, hreceives, h]

theorem OpState.answered_shape (op : OpState) (cqe : Cqe) :
    (op.answered cqe).toOrphanedOp.shape = op.toOrphanedOp.shape := by
  unfold OpState.answered
  split <;> simp_all [OrphanedOp.shape]

theorem OpState.cleaned_shape (op : OpState) (res : ℤ) :
    (op.cleaned res).toOrphanedOp.shape = op.toOrphanedOp.shape := by
  unfold OpState.cleaned
  split <;> simp_all [OrphanedOp.shape]

theorem OpState.provideFailed_shape (op : OpState) (res : ℤ) :
    (op.provideFailed res).toOrphanedOp.shape = op.toOrphanedOp.shape := by
  unfold OpState.provideFailed
  split <;> simp_all [OrphanedOp.shape]

theorem OrphanedOp.setCleanup_shape (op : OrphanedOp) (c : ℕ) :
    (op.setCleanup c).shape = op.shape := by
  simp [OrphanedOp.setCleanup, OrphanedOp.shape, Function.comp_def]

theorem OrphanedOp.answered_shape {op op' : OrphanedOp} {cqe : Cqe}
    (h : op.answered cqe = some op') : op'.shape = op.shape := by
  unfold OrphanedOp.answered at h
  split at h
  · split_ifs at h <;> cases h <;> simp_all [OrphanedOp.shape]
  · cases h

theorem OrphanedOp.cleaned_shape {op op' : OrphanedOp} {res : ℤ}
    (h : op.cleaned res = some op') : op'.shape = op.shape := by
  unfold OrphanedOp.cleaned at h
  split at h
  · split_ifs at h
    cases h
    simp_all [OrphanedOp.shape]
  · cases h
    rfl

/-- Submissions that hand buffers to the kernel or take them back. -/
def Opcode.buffers : Opcode → Bool
  | .provideBuffers | .removeBuffers => true
  | _ => false

namespace Table

structure Valid (v : Table) : Prop where
  index : ∀ u, v.index u = none ↔ v.op u = none
  apart : ∀ u, v.op u = none ∨ v.orphan u = none
  io : v.io.Sound Sqe.userData Cqe.sqe Cqe.last
  below : ∀ sqe ∈ v.io.queued, sqe.userData ≤ v.allocated
  own : ∀ sqe ∈ v.io.queued, sqe.opcode.control = false → sqe.owner = sqe.userData
  op : ∀ u op, v.op u = some op → op.userData = u ∧
    ∃ sqe ∈ v.io.queued, sqe.Starts op.toOrphanedOp
  orphan : ∀ u op, v.orphan u = some op → op.userData = u ∧ ∃ sqe ∈ v.io.queued, sqe.Starts op
  cancel : ∀ c t, v.cancel c = some t → v.op t = none ∧
    (∃ sqe ∈ v.io.queued, sqe.userData = c ∧ sqe.opcode = .asyncCancel ∧ sqe.owner = t) ∧
    ∃ sqe ∈ v.io.queued, sqe.userData = t ∧ sqe.opcode.control = false
  provide : ∀ c t, v.provide c = some t ↔ ∃ sqe ∈ v.io.queued, sqe.userData = c ∧
    sqe.owner = t ∧ sqe.opcode.buffers = true ∧ ∀ a ∈ v.io.reaped, a.sqe ≠ sqe
  cleanup : ∀ c, v.cleanup c = true ↔ ∃ sqe ∈ v.io.queued, sqe.userData = c ∧
    sqe.opcode = .removeBuffers ∧ ∀ a ∈ v.io.reaped, a.sqe ≠ sqe

variable {v v' : Table}

/-- The operations change but keep what their submissions determine, leave the tables or lose
their future. -/
theorem Valid.of_shape (h : v.Valid) (hio : v'.io = v.io) (hallocated : v'.allocated = v.allocated)
    (hcancel : v'.cancel = v.cancel) (hprovide : v'.provide = v.provide)
    (hcleanup : v'.cleanup = v.cleanup) (hindex : ∀ u, v'.index u = none ↔ v'.op u = none)
    (hop : ∀ u op, v'.op u = some op →
      ∃ old, v.op u = some old ∧ op.toOrphanedOp.shape = old.toOrphanedOp.shape)
    (horphan : ∀ u op, v'.orphan u = some op →
      (∃ old, v.orphan u = some old ∧ op.shape = old.shape) ∨
      ∃ old, v.op u = some old ∧ op.shape = old.toOrphanedOp.shape ∧ v'.op u = none) :
    v'.Valid := by
  have hnone : ∀ u, v.op u = none → v'.op u = none := by
    intro u hu
    by_contra hsome
    obtain ⟨op, hop'⟩ := Option.ne_none_iff_exists'.mp hsome
    obtain ⟨old, hold, -⟩ := hop u op hop'
    simp [hu] at hold
  refine ⟨hindex, fun u => ?_, hio ▸ h.io, ?_, hio ▸ h.own, fun u op hu => ?_, fun u op hu => ?_,
    fun c t hc => ?_, ?_, ?_⟩
  · cases hu : v'.orphan u with
    | none => exact .inr rfl
    | some op =>
      rcases horphan u op hu with ⟨old, hold, -⟩ | ⟨-, -, -, hop'⟩
      · have := (h.apart u).resolve_right (by simp [hold])
        exact .inl (hnone u this)
      · exact .inl hop'
  · rw [hio, hallocated]
    exact h.below
  · obtain ⟨old, hold, hshape⟩ := hop u op hu
    obtain ⟨huser, sqe, hsqe, hstarts⟩ := h.op u old hold
    refine ⟨?_, sqe, hio ▸ hsqe, hstarts.of_shape hshape⟩
    simp only [OrphanedOp.shape, Prod.mk.injEq] at hshape
    exact hshape.2.1.trans huser
  · have hstart : ∃ old : OrphanedOp, op.shape = old.shape ∧ old.userData = u ∧
        ∃ sqe ∈ v.io.queued, sqe.Starts old := by
      rcases horphan u op hu with ⟨old, hold, hshape⟩ | ⟨old, hold, hshape, -⟩
      · exact ⟨old, hshape, h.orphan u old hold⟩
      · exact ⟨old.toOrphanedOp, hshape, h.op u old hold⟩
    obtain ⟨old, hshape, huser, sqe, hsqe, hstarts⟩ := hstart
    refine ⟨?_, sqe, hio ▸ hsqe, hstarts.of_shape hshape⟩
    simp only [OrphanedOp.shape, Prod.mk.injEq] at hshape
    exact hshape.2.1.trans huser
  · rw [hcancel] at hc
    obtain ⟨hop', hrest⟩ := h.cancel c t hc
    rw [hio]
    exact ⟨hnone t hop', hrest⟩
  · rw [hprovide, hio]
    exact h.provide
  · rw [hcleanup, hio]
    exact h.cleanup

/-- A `user_data` that was not allocated is nowhere. -/
theorem Valid.fresh (h : v.Valid) {u : ℕ} (hu : ∀ sqe ∈ v.io.queued, sqe.userData ≠ u) :
    v.op u = none ∧ v.orphan u = none ∧ v.cancel u = none ∧ v.provide u = none ∧
      v.cleanup u = false ∧ ∀ c, v.cancel c ≠ some u := by
  refine ⟨?_, ?_, ?_, ?_, ?_, fun c hc => ?_⟩
  · by_contra hsome
    obtain ⟨op, hop⟩ := Option.ne_none_iff_exists'.mp hsome
    obtain ⟨huser, sqe, hsqe, hstarts⟩ := h.op u op hop
    exact hu sqe hsqe (hstarts.1.trans huser)
  · by_contra hsome
    obtain ⟨op, hop⟩ := Option.ne_none_iff_exists'.mp hsome
    obtain ⟨huser, sqe, hsqe, hstarts⟩ := h.orphan u op hop
    exact hu sqe hsqe (hstarts.1.trans huser)
  · by_contra hsome
    obtain ⟨t, ht⟩ := Option.ne_none_iff_exists'.mp hsome
    obtain ⟨-, ⟨sqe, hsqe, huser, -⟩, -⟩ := h.cancel u t ht
    exact hu sqe hsqe huser
  · by_contra hsome
    obtain ⟨t, ht⟩ := Option.ne_none_iff_exists'.mp hsome
    obtain ⟨sqe, hsqe, huser, -⟩ := (h.provide u t).mp ht
    exact hu sqe hsqe huser
  · by_contra htrue
    obtain ⟨sqe, hsqe, huser, -⟩ := (h.cleanup u).mp (by simpa using htrue)
    exact hu sqe hsqe huser
  · obtain ⟨-, -, sqe, hsqe, huser, -⟩ := h.cancel c u hc
    exact hu sqe hsqe huser

theorem Valid.ne_of_lt (h : v.Valid) {u : ℕ} (hu : v.allocated < u) :
    ∀ sqe ∈ v.io.queued, sqe.userData ≠ u := by
  intro sqe hsqe
  have := h.below sqe hsqe
  omega

/-- A submission is queued, and entered in the tables of the buffers if it is about them. -/
theorem Valid.queue (h : v.Valid) {sqe : Sqe} {n : ℕ}
    (hfresh : ∀ a ∈ v.io.queued, a.userData ≠ sqe.userData) (hn : v.allocated ≤ n)
    (hle : sqe.userData ≤ n) (hown : sqe.opcode.control = false → sqe.owner = sqe.userData) :
    Valid { v with
      allocated := n
      io := v.io.queue sqe
      provide := if sqe.opcode.buffers then
        update v.provide sqe.userData (some sqe.owner) else v.provide
      cleanup := if sqe.opcode = .removeBuffers then
        update v.cleanup sqe.userData true else v.cleanup } := by
  have hold : ∀ {P : Sqe → Prop}, (∃ a ∈ v.io.queued, P a) → ∃ a ∈ (v.io.queue sqe).queued, P a :=
    fun ⟨a, ha, hp⟩ => ⟨a, List.mem_append_left _ ha, hp⟩
  have hreaped : ∀ a ∈ v.io.reaped, a.sqe ≠ sqe := by
    rintro a ha rfl
    exact hfresh _ (h.io.known a (List.mem_append_left _ ha)) rfl
  obtain ⟨-, -, -, hprovide, hcleanup, -⟩ := h.fresh hfresh
  refine ⟨h.index, h.apart, h.io.queue hfresh, fun a ha => ?_, fun a ha => ?_,
    fun u op hu => (h.op u op hu).imp_right hold, fun u op hu => (h.orphan u op hu).imp_right hold,
    fun c t hc => (h.cancel c t hc).imp_right (And.imp hold hold), fun c t => ?_, fun c => ?_⟩
  · rcases List.mem_append.mp ha with ha | ha
    · exact (h.below a ha).trans hn
    · rwa [List.mem_singleton.mp ha]
  · rcases List.mem_append.mp ha with ha | ha
    · exact h.own a ha
    · rwa [List.mem_singleton.mp ha]
  · simp only [Traffic.queue, List.mem_append, List.mem_singleton, or_and_right, exists_or,
      exists_eq_left]
    rw [← h.provide c t]
    by_cases hc : c = sqe.userData
    · subst hc
      cases hbuffers : sqe.opcode.buffers with
      | false => simp [hprovide]
      | true => simpa [hprovide] using fun _ : sqe.owner = t => hreaped
    · have hne : sqe.userData ≠ c := Ne.symm hc
      cases hbuffers : sqe.opcode.buffers <;> simp [hc, hne]
  · simp only [Traffic.queue, List.mem_append, List.mem_singleton, or_and_right, exists_or,
      exists_eq_left]
    rw [← h.cleanup c]
    by_cases hc : c = sqe.userData
    · subst hc
      by_cases hremove : sqe.opcode = .removeBuffers
      · simpa [hremove, hcleanup] using hreaped
      · simp [hremove, hcleanup]
    · have hne : sqe.userData ≠ c := Ne.symm hc
      by_cases hremove : sqe.opcode = .removeBuffers <;> simp [hremove, hc, hne]

/-- The entry of an operation whose submission was just queued. -/
theorem Valid.insert (h : v.Valid) {u key : ℕ} {op : OpState} (huser : op.userData = u)
    (hstarts : ∃ sqe ∈ v.io.queued, sqe.Starts op.toOrphanedOp) (horphan : v.orphan u = none)
    (hcancel : ∀ c, v.cancel c ≠ some u) :
    Valid { v.setOp u op with index := update v.index u (some key) } := by
  refine ⟨fun j => ?_, fun j => ?_, h.io, h.below, h.own, fun j op' hj => ?_, h.orphan,
    fun c t hc => ⟨?_, (h.cancel c t hc).2⟩, h.provide, h.cleanup⟩
  · by_cases hj : j = u
    · subst hj
      simp [setOp]
    · simp [setOp, hj, h.index j]
  · by_cases hj : j = u
    · subst hj
      exact .inr horphan
    · simpa [setOp, hj] using h.apart j
  · by_cases hju : j = u
    · subst hju
      simp only [setOp, Function.update_self, Option.some.injEq] at hj
      exact hj ▸ ⟨huser, hstarts⟩
    · exact h.op j op' (by simpa [setOp, hju] using hj)
  · have htu : t ≠ u := fun htu => hcancel c (htu ▸ hc)
    simpa [setOp, htu] using (h.cancel c t hc).1

/-- The tables after a completion was read, without what it does to the operations. -/
def clear (v : Table) (io : Traffic Sqe Cqe) (c : ℕ) : Table :=
  { v with
    io := io
    cancel := update v.cancel c none
    provide := update v.provide c none
    cleanup := update v.cleanup c false }

variable {cqe : Cqe} {io : Traffic Sqe Cqe}

theorem Valid.sqe_mem (h : v.Valid) (hreap : v.io.reap = some (cqe, io)) :
    cqe.sqe ∈ v.io.queued := by
  obtain ⟨rest, hcq, -⟩ := Traffic.reap_eq_some.mp hreap
  exact h.io.known cqe (List.mem_append_right _ (by simp [hcq]))

theorem Valid.clear (h : v.Valid) (hreap : v.io.reap = some (cqe, io)) :
    (v.clear io cqe.userData).Valid := by
  have hio := h.io.reap hreap
  have hsqe := h.sqe_mem hreap
  obtain ⟨rest, -, rfl⟩ := Traffic.reap_eq_some.mp hreap
  have hunique : ∀ {c : ℕ} {sqe : Sqe}, sqe ∈ v.io.queued → sqe.userData = c →
      (cqe.sqe ≠ sqe ↔ c ≠ cqe.userData) := by
    rintro c sqe hmem rfl
    refine not_congr ⟨fun heq => heq ▸ rfl, fun huser => ?_⟩
    exact h.io.tag_injective hsqe hmem huser.symm
  refine ⟨h.index, h.apart, hio, h.below, h.own, h.op, h.orphan, fun c t hc => ?_, fun c t => ?_,
    fun c => ?_⟩
  · simp only [Table.clear] at hc
    by_cases hcu : c = cqe.userData
    · simp [hcu] at hc
    · exact h.cancel c t (by simpa [hcu] using hc)
  · simp only [Table.clear, List.mem_append, List.mem_singleton, or_imp, forall_and, forall_eq]
    by_cases hcu : c = cqe.userData
    · subst hcu
      simp only [Function.update_self, false_iff, reduceCtorEq]
      rintro ⟨sqe, hmem, huser, -, -, -, hne⟩
      exact (hunique hmem huser).mp hne rfl
    · rw [Function.update_of_ne hcu, h.provide]
      refine exists_congr fun sqe => and_congr_right fun hmem => and_congr_right fun huser => ?_
      simp only [hunique hmem huser, ne_eq, hcu, not_false_eq_true, and_true]
  · simp only [Table.clear, List.mem_append, List.mem_singleton, or_imp, forall_and, forall_eq]
    by_cases hcu : c = cqe.userData
    · subst hcu
      simp only [Function.update_self, false_iff, Bool.false_eq_true]
      rintro ⟨sqe, hmem, huser, -, -, hne⟩
      exact (hunique hmem huser).mp hne rfl
    · rw [Function.update_of_ne hcu, h.cleanup]
      refine exists_congr fun sqe => and_congr_right fun hmem => and_congr_right fun huser => ?_
      simp only [hunique hmem huser, ne_eq, hcu, not_false_eq_true, and_true]

/-- Only the completion of a cancellation is found among the cancellations. -/
theorem Valid.cancel_eq_none (h : v.Valid) (hreap : v.io.reap = some (cqe, io))
    (hopcode : cqe.sqe.opcode ≠ .asyncCancel) : v.cancel cqe.userData = none := by
  by_contra hsome
  obtain ⟨t, ht⟩ := Option.ne_none_iff_exists'.mp hsome
  obtain ⟨-, ⟨a, ha, huser, hop, -⟩, -⟩ := h.cancel _ t ht
  obtain rfl : a = cqe.sqe := h.io.tag_injective ha (h.sqe_mem hreap) huser
  exact hopcode hop

/-- Which submission a completion answers decides what it does. -/
theorem Valid.reap_cases (h : v.Valid) (hreap : v.io.reap = some (cqe, io)) :
    (cqe.sqe.opcode = .asyncCancel ∧ (v.cancel cqe.userData = some cqe.sqe.owner ∧
        reapCqe { v with io := io } cqe =
          (v.clear io cqe.userData).reapCancel cqe.sqe.owner cqe.res ∨
      v.cancel cqe.userData = none ∧
        reapCqe { v with io := io } cqe = v.clear io cqe.userData)) ∨
    (cqe.sqe.opcode = .removeBuffers ∧ v.provide cqe.userData = some cqe.sqe.owner ∧
      v.cleanup cqe.userData = true ∧ reapCqe { v with io := io } cqe =
        (v.clear io cqe.userData).reapCleanup cqe.sqe.owner cqe.res) ∨
    (cqe.sqe.opcode = .provideBuffers ∧ v.provide cqe.userData = some cqe.sqe.owner ∧
      v.cleanup cqe.userData = false ∧ reapCqe { v with io := io } cqe =
        (v.clear io cqe.userData).reapProvide cqe.sqe.owner cqe.res) ∨
    (cqe.sqe.opcode.control = false ∧ cqe.sqe.owner = cqe.userData ∧
      v.cancel cqe.userData = none ∧ v.provide cqe.userData = none ∧
      reapCqe { v with io := io } cqe = (v.clear io cqe.userData).reapAnswer cqe) := by
  have hsqe := h.sqe_mem hreap
  have hsame : ∀ {a : Sqe}, a ∈ v.io.queued → a.userData = cqe.userData → a = cqe.sqe :=
    fun ha huser => h.io.tag_injective ha hsqe huser
  have hcancel := h.cancel_eq_none hreap
  have hprovide : cqe.sqe.opcode.buffers = false → v.provide cqe.userData = none := by
    intro hne
    by_contra hsome
    obtain ⟨t, ht⟩ := Option.ne_none_iff_exists'.mp hsome
    obtain ⟨a, ha, huser, -, hbuffers, -⟩ := (h.provide _ t).mp ht
    rw [hsame ha huser, hne] at hbuffers
    cases hbuffers
  have hcleanup : cqe.sqe.opcode ≠ .removeBuffers → v.cleanup cqe.userData = false := by
    intro hne
    by_contra htrue
    obtain ⟨a, ha, huser, hop, -⟩ := (h.cleanup _).mp (by simpa using htrue)
    exact hne (hsame ha huser ▸ hop)
  have hfirst : cqe.sqe.opcode.buffers = true → ∀ a ∈ v.io.reaped, a.sqe ≠ cqe.sqe := by
    intro hbuffers a ha heq
    refine h.io.not_last_before hreap ha ?_ heq
    have hmultishot : a.sqe.multishot = false := by
      rw [heq, Sqe.multishot]
      cases hop : cqe.sqe.opcode <;> simp_all [Opcode.buffers]
    simp [Cqe.last, hmultishot]
  have hclear : ∀ {f : ℕ → Option ℕ} {c : ℕ}, f c = none → update f c none = f :=
    fun hc => Function.update_eq_self_iff.mpr hc.symm
  have hclear' : ∀ {f : ℕ → Bool} {c : ℕ}, f c = false → update f c false = f :=
    fun hc => Function.update_eq_self_iff.mpr hc.symm
  cases hop : cqe.sqe.opcode with
  | asyncCancel =>
    refine .inl ⟨rfl, ?_⟩
    have hp := hprovide (by simp [hop, Opcode.buffers])
    have hc := hcleanup (by simp [hop])
    cases ht : v.cancel cqe.userData with
    | some t =>
      obtain ⟨-, ⟨a, ha, huser, -, howner⟩, -⟩ := h.cancel _ t ht
      rw [hsame ha huser] at howner
      refine .inl ⟨by rw [howner], ?_⟩
      simp only [reapCqe, ht, Table.clear, howner]
      rw [hclear hp, hclear' hc]
    | none =>
      refine .inr ⟨rfl, ?_⟩
      have hnone : v.op cqe.userData = none ∧ v.orphan cqe.userData = none := by
        constructor
        all_goals
          by_contra hsome
          obtain ⟨op, hop'⟩ := Option.ne_none_iff_exists'.mp hsome
        · obtain ⟨huser, a, ha, hstarts⟩ := h.op _ op hop'
          have := hstarts.2.2.1
          rw [hsame ha (hstarts.1.trans huser), hop] at this
          cases this
        · obtain ⟨huser, a, ha, hstarts⟩ := h.orphan _ op hop'
          have := hstarts.2.2.1
          rw [hsame ha (hstarts.1.trans huser), hop] at this
          cases this
      simp only [reapCqe, ht, hp, reapAnswer, hnone.1, hnone.2, Table.clear]
      rw [hclear hp, hclear' hc, hclear ht]
  | removeBuffers =>
    have hbuffers : cqe.sqe.opcode.buffers = true := by simp [hop, Opcode.buffers]
    have hc := hcancel (by simp [hop])
    have hp := (h.provide cqe.userData cqe.sqe.owner).mpr
      ⟨cqe.sqe, hsqe, rfl, rfl, hbuffers, hfirst hbuffers⟩
    have hclean := (h.cleanup cqe.userData).mpr ⟨cqe.sqe, hsqe, rfl, hop, hfirst hbuffers⟩
    refine .inr (.inl ⟨rfl, hp, hclean, ?_⟩)
    simp only [reapCqe, hc, hp, hclean, Table.clear, ↓reduceIte]
    rw [hclear hc]
  | provideBuffers =>
    have hbuffers : cqe.sqe.opcode.buffers = true := by simp [hop, Opcode.buffers]
    have hc := hcancel (by simp [hop])
    have hp := (h.provide cqe.userData cqe.sqe.owner).mpr
      ⟨cqe.sqe, hsqe, rfl, rfl, hbuffers, hfirst hbuffers⟩
    have hclean := hcleanup (by simp [hop])
    refine .inr (.inr (.inl ⟨rfl, hp, hclean, ?_⟩))
    simp only [reapCqe, hc, hp, hclean, Table.clear, Bool.false_eq_true, ↓reduceIte]
    rw [hclear hc]
  | _ =>
    have hcontrol : cqe.sqe.opcode.control = false := by simp [hop, Opcode.control]
    have hc := hcancel (by simp [hop])
    have hp := hprovide (by simp [hop, Opcode.buffers])
    have hclean := hcleanup (by simp [hop])
    refine .inr (.inr (.inr ⟨by simp [Opcode.control], h.own _ hsqe hcontrol, hc, hp, ?_⟩))
    simp only [reapCqe, hc, hp, Table.clear]
    rw [hclear hp, hclear' hclean, hclear hc]

/-- The history is no part of the tables. -/
theorem Valid.history (h : v.Valid) (released : List OrphanedOp) (dropped ended : List ℕ)
    (transferred closed : List (ℕ × ℕ)) :
    Valid { v with
      released := released
      dropped := dropped
      ended := ended
      transferred := transferred
      closed := closed } :=
  ⟨h.index, h.apart, h.io, h.below, h.own, h.op, h.orphan, h.cancel, h.provide, h.cleanup⟩

theorem Valid.setOp (h : v.Valid) {u : ℕ} {old op : OpState} (hu : v.op u = some old)
    (hshape : op.toOrphanedOp.shape = old.toOrphanedOp.shape) : (v.setOp u op).Valid := by
  refine h.of_shape rfl rfl rfl rfl rfl (fun j => ?_) (fun j op' hj => ?_) fun j op' hj =>
    .inl ⟨op', hj, rfl⟩
  · by_cases hju : j = u
    · subst hju
      simp [Table.setOp, h.index, hu]
    · simp [Table.setOp, hju, h.index]
  · by_cases hju : j = u
    · subst hju
      simp only [Table.setOp, Function.update_self, Option.some.injEq] at hj
      exact ⟨old, hu, hj ▸ hshape⟩
    · exact ⟨op', by simpa [Table.setOp, hju] using hj, rfl⟩

theorem Valid.setOrphan (h : v.Valid) {u : ℕ} {old op : OrphanedOp} (hu : v.orphan u = some old)
    (hshape : op.shape = old.shape) : (v.setOrphan u op).Valid := by
  refine h.of_shape rfl rfl rfl rfl rfl h.index (fun j op' hj => ⟨op', hj, rfl⟩) fun j op' hj => ?_
  by_cases hju : j = u
  · subst hju
    simp only [Table.setOrphan, Function.update_self, Option.some.injEq] at hj
    exact .inl ⟨old, hu, hj ▸ hshape⟩
  · exact .inl ⟨op', by simpa [Table.setOrphan, hju] using hj, rfl⟩

theorem Valid.releaseOp (h : v.Valid) (u : ℕ) (op : OpState) : (v.releaseOp u op).Valid := by
  refine h.of_shape rfl rfl rfl rfl rfl (fun j => ?_) (fun j op' hj => ?_) fun j op' hj =>
    .inl ⟨op', hj, rfl⟩
  all_goals by_cases hju : j = u
  · simp [Table.releaseOp, hju]
  · simp [Table.releaseOp, hju, h.index]
  · simp [Table.releaseOp, hju] at hj
  · exact ⟨op', by simpa [Table.releaseOp, hju] using hj, rfl⟩

theorem Valid.releaseOrphan (h : v.Valid) (u : ℕ) (op : OrphanedOp) :
    (v.releaseOrphan u op).Valid := by
  refine h.of_shape rfl rfl rfl rfl rfl h.index (fun j op' hj => ⟨op', hj, rfl⟩) fun j op' hj => ?_
  by_cases hju : j = u
  · simp [Table.releaseOrphan, hju] at hj
  · exact .inl ⟨op', by simpa [Table.releaseOrphan, hju] using hj, rfl⟩

theorem Valid.reapCancel (h : v.Valid) (target : ℕ) (res : ℤ) :
    (v.reapCancel target res).Valid := by
  unfold Table.reapCancel
  split_ifs
  · split
    · split_ifs
      · exact h.releaseOrphan _ _
      · exact h
    · split
      · split_ifs
        · exact h.releaseOp _ _
        · exact h
      · exact h
  · exact h

theorem Valid.reapCleanup (h : v.Valid) (target : ℕ) (res : ℤ) :
    (v.reapCleanup target res).Valid := by
  unfold Table.reapCleanup
  split
  · rename_i op hop
    exact h.setOp hop (op.cleaned_shape res)
  · split
    · rename_i op hop
      split
      · rename_i hcleaned
        exact h.setOrphan hop (OrphanedOp.cleaned_shape hcleaned)
      · exact h.releaseOrphan _ _
    · exact h

theorem Valid.reapProvide (h : v.Valid) (target : ℕ) (res : ℤ) :
    (v.reapProvide target res).Valid := by
  unfold Table.reapProvide
  split_ifs
  · split
    · rename_i op hop
      exact h.setOp hop (op.provideFailed_shape res)
    · exact h
  · exact h

theorem Valid.reapAnswer (h : v.Valid) (cqe : Cqe) : (v.reapAnswer cqe).Valid := by
  unfold Table.reapAnswer
  split
  · rename_i op hop
    exact h.setOp hop (op.answered_shape cqe)
  · split
    · rename_i op hop
      have hclosed : Valid { v with
          closed := v.closed ++ (op.unclaimedFds cqe).map (cqe.userData, ·) } :=
        h.history _ _ _ _ _
      dsimp only
      split
      · rename_i hanswered
        exact hclosed.setOrphan hop (OrphanedOp.answered_shape hanswered)
      · exact hclosed.releaseOrphan _ _
    · exact h

theorem Valid.reapCqe (h : v.Valid) (hreap : v.io.reap = some (cqe, io)) :
    (Table.reapCqe { v with io := io } cqe).Valid := by
  have hclear := h.clear hreap
  rcases h.reap_cases hreap with ⟨-, ⟨-, heq⟩ | ⟨-, heq⟩⟩ | ⟨-, -, -, heq⟩ | ⟨-, -, -, heq⟩ |
    ⟨-, -, -, -, heq⟩
  · exact heq ▸ hclear.reapCancel _ _
  · exact heq ▸ hclear
  · exact heq ▸ hclear.reapCleanup _ _
  · exact heq ▸ hclear.reapProvide _ _
  · exact heq ▸ hclear.reapAnswer _

theorem Valid.dropToOrphan (h : v.Valid) {u : ℕ} {op : OpState} (hu : v.op u = some op) :
    Valid { v.setOrphan u op.toOrphanedOp with
      index := update v.index u none
      op := update v.op u none } := by
  refine h.of_shape rfl rfl rfl rfl rfl (fun j => ?_) (fun j op' hj => ?_) fun j op' hj => ?_
  all_goals by_cases hju : j = u
  · simp [hju]
  · simp [hju, h.index]
  · simp [hju] at hj
  · exact ⟨op', by simpa [hju] using hj, rfl⟩
  · subst hju
    simp only [Table.setOrphan, Function.update_self, Option.some.injEq] at hj
    exact .inr ⟨op, hu, hj ▸ rfl, by simp⟩
  · exact .inl ⟨op', by simpa [Table.setOrphan, hju] using hj, rfl⟩

theorem Valid.setCleanup (h : v.Valid) (u c : ℕ) :
    Valid { v with
      op := (v.op u).elim v.op fun op => update v.op u (some (op.setCleanup c))
      orphan := (v.orphan u).elim v.orphan fun op =>
        update v.orphan u (some (op.setCleanup c)) } := by
  refine h.of_shape rfl rfl rfl rfl rfl (fun j => ?_) (fun j op' hj => ?_) fun j op' hj => ?_
  · cases hop : v.op u with
    | none => exact h.index j
    | some op =>
      by_cases hju : j = u
      · subst hju
        simp [h.index, hop]
      · simp [hju, h.index]
  · cases hop : v.op u with
    | none => exact ⟨op', by simpa [hop] using hj, rfl⟩
    | some op =>
      by_cases hju : j = u
      · subst hju
        simp only [hop, Option.elim_some, Function.update_self, Option.some.injEq] at hj
        exact ⟨op, hop, hj ▸ op.toOrphanedOp.setCleanup_shape c⟩
      · exact ⟨op', by simpa [hop, hju] using hj, rfl⟩
  · left
    cases hop : v.orphan u with
    | none => exact ⟨op', by simpa [hop] using hj, rfl⟩
    | some op =>
      by_cases hju : j = u
      · subst hju
        simp only [hop, Option.elim_some, Function.update_self, Option.some.injEq] at hj
        exact ⟨op, hop, hj ▸ op.setCleanup_shape c⟩
      · exact ⟨op', by simpa [hop, hju] using hj, rfl⟩

/-- The submission of an operation and its entry. -/
theorem Valid.start (h : v.Valid) {n key : ℕ} {op : OpState} {sqe : Sqe}
    (hfresh : ∀ a ∈ v.io.queued, a.userData ≠ sqe.userData) (hn : v.allocated ≤ n)
    (hle : sqe.userData ≤ n) (hstarts : sqe.Starts op.toOrphanedOp) :
    Valid { v with
      allocated := n
      io := v.io.queue sqe
      op := update v.op sqe.userData (some op)
      index := update v.index sqe.userData (some key) } := by
  have hbuffers : sqe.opcode.buffers = false := by
    have := hstarts.2.2.1
    cases hop : sqe.opcode <;> simp_all [Opcode.control, Opcode.buffers]
  have hremove : sqe.opcode ≠ .removeBuffers := by
    rintro heq
    simp [heq, Opcode.buffers] at hbuffers
  have hqueue := h.queue hfresh hn hle fun _ => hstarts.2.1.trans hstarts.1.symm
  rw [hbuffers, if_neg hremove, if_neg (by simp)] at hqueue
  obtain ⟨-, horphan, -, -, -, hcancel⟩ := h.fresh hfresh
  exact hqueue.insert hstarts.1.symm ⟨sqe, by simp [Traffic.queue], hstarts⟩ horphan hcancel

theorem Valid.move {k : Kind} (h : v.Valid) (hmove : Move v k v') : v'.Valid := by
  have hfresh := h.ne_of_lt (Nat.lt_succ_self v.allocated)
  induction hmove with
  | stay => exact h
  | alloc =>
    exact ⟨h.index, h.apart, h.io, fun sqe hsqe => (h.below sqe hsqe).trans (Nat.le_succ _), h.own,
      h.op, h.orphan, h.cancel, h.provide, h.cleanup⟩
  | start hu hstarts _ =>
    exact h.start (hu ▸ hfresh) (Nat.le_succ _) hu.le hstarts
  | @startRecv key op sqe control hu hstarts _ _ hcontrol hop howner =>
    have hfresh' := h.ne_of_lt (show v.allocated < control.userData by omega)
    have hqueue := h.queue hfresh' (show v.allocated ≤ v.allocated + 2 by omega) hcontrol.le
      (by simp [hop, Opcode.control])
    rw [hop, howner] at hqueue
    refine hqueue.start (fun a ha => ?_) (Nat.le_refl _) (hu.le.trans (Nat.le_succ _)) hstarts
    rcases List.mem_append.mp ha with ha | ha
    · exact hu ▸ hfresh a ha
    · rw [List.mem_singleton.mp ha]
      omega
  | register hu => exact h.setOp hu rfl
  | @pop u op m event events hu hm _ =>
    refine (h.setOp hu ?_).history _ _ _ _ _
    simp [OrphanedOp.shape, hm]
  | take => exact (h.releaseOp _ _).history _ _ _ _ _
  | check => exact h.history _ _ _ _ _
  | finish => exact h.releaseOp _ _
  | dropComplete => exact (h.releaseOp _ _).history _ _ _ _ _
  | dropToOrphan hu => exact (h.dropToOrphan hu).history _ _ _ _ _
  | @cancel sqe hu hop hnone hstarted =>
    have hqueue := h.queue (hu ▸ hfresh) (Nat.le_succ _) hu.le (by simp [hop, Opcode.control])
    rw [hop] at hqueue
    refine ⟨hqueue.index, hqueue.apart, hqueue.io, hqueue.below, hqueue.own, hqueue.op,
      hqueue.orphan, fun c t hc => ?_, hqueue.provide, hqueue.cleanup⟩
    by_cases hcu : c = sqe.userData
    · subst hcu
      simp only [Function.update_self, Option.some.injEq] at hc
      obtain ⟨started, hmem, hstarted⟩ := hstarted
      exact ⟨hc ▸ hnone, ⟨sqe, by simp [Table.queue, Traffic.queue], rfl, hop, hc⟩, started,
        List.mem_append_left _ hmem, hc ▸ hstarted⟩
    · exact hqueue.cancel c t (by simpa [hcu] using hc)
  | @uncancel c =>
    refine ⟨h.index, h.apart, h.io, h.below, h.own, h.op, h.orphan, fun c' t hc => ?_, h.provide,
      h.cleanup⟩
    by_cases hcu : c' = c
    · simp [hcu] at hc
    · exact h.cancel c' t (by simpa [hcu] using hc)
  | consume =>
    exact ⟨h.index, h.apart, h.io.consume _, h.below, h.own, h.op, h.orphan, h.cancel, h.provide,
      h.cleanup⟩
  | post hi =>
    exact ⟨h.index, h.apart, h.io.post hi, h.below, h.own, h.op, h.orphan, h.cancel, h.provide,
      h.cleanup⟩
  | reap hreap => exact h.reapCqe hreap
  | refill hu hop _ _ =>
    have hqueue := h.queue (hu ▸ hfresh) (Nat.le_succ _) hu.le (by simp [hop, Opcode.control])
    rw [hop] at hqueue
    exact hqueue
  | cleanup hu hop =>
    have hqueue := h.queue (hu ▸ hfresh) (Nat.le_succ _) hu.le (by simp [hop, Opcode.control])
    rw [hop] at hqueue
    exact hqueue.setCleanup _ _

theorem Valid.new (sqEntries : ℕ) (sqpoll : Bool) : (Ring.new sqEntries sqpoll).table.Valid := by
  constructor <;> simp [Ring.new, Ring.table, Slab.lookup, Traffic.Sound.empty] <;>
    simp [Traffic.empty]

end Table

end Eddy.Uring
