import Eddy.UringRuns

/-!
# The life of one operation

What the tables and their history say about one operation. A move changes the life of an
operation by at most one of the steps below, so that a property of operations is proved by
looking at these steps alone.
-/

namespace Eddy.Uring
open Table

structure Life where
  op : Option OpState
  orphan : Option OrphanedOp
  /-- Its submission. -/
  started : Option Sqe
  /-- The submissions that hand its buffers to the kernel. -/
  provides : List Sqe
  /-- The submissions that take its buffers back from the kernel. -/
  requests : List Sqe
  /-- Its completions that were reaped. -/
  answers : List Cqe
  cleanups : List Cqe
  released : List OrphanedOp
  dropped : Bool
  ended : Bool
  transferred : List ℕ
  closed : List ℕ

namespace Life

def new : Life := ⟨none, none, none, [], [], [], [], [], false, false, [], []⟩

/-- Its entry, with a future or without one. -/
def held (l : Life) : Option OrphanedOp :=
  l.op.elim l.orphan fun op => some op.toOrphanedOp

end Life

/-- The submission of the operation `u`. -/
def Sqe.startsAs (u : ℕ) (sqe : Sqe) : Bool := sqe.userData == u && !sqe.opcode.control

/-- A submission that hands over buffers of the operation `u`. -/
def Sqe.provides (u : ℕ) (sqe : Sqe) : Bool := sqe.opcode == .provideBuffers && sqe.owner == u

/-- A submission that takes back the buffers of the operation `u`. -/
def Sqe.cleansUp (u : ℕ) (sqe : Sqe) : Bool := sqe.opcode == .removeBuffers && sqe.owner == u

/-- The descriptors of the operation `u`. -/
def fdsOf (u : ℕ) (fds : List (ℕ × ℕ)) : List ℕ := (fds.filter (·.1 == u)).map Prod.snd

/-- Whether something that is logged by operation happened to the operation `u`. -/
def happened (u : ℕ) (log : List ℕ) : Bool := log.contains u

def Table.life (v : Table) (u : ℕ) : Life where
  op := v.op u
  orphan := v.orphan u
  started := v.io.queued.find? (Sqe.startsAs u)
  provides := v.io.queued.filter (Sqe.provides u)
  requests := v.io.queued.filter (Sqe.cleansUp u)
  answers := v.io.reaped.filter fun cqe => cqe.sqe.startsAs u
  cleanups := v.io.reaped.filter fun cqe => cqe.sqe.cleansUp u
  released := v.released.filter (·.userData == u)
  dropped := happened u v.dropped
  ended := happened u v.ended
  transferred := fdsOf u v.transferred
  closed := fdsOf u v.closed

/-- The operation that a move is about, if it is a restricted one. -/
def Table.Kind.operation : Kind → ℕ
  | .quiet => 0
  | .reap cqe => cqe.sqe.owner
  | .drop u => u

namespace Life

inductive Step : Life → Kind → Life → Prop where
  | start {op : OpState} {sqe : Sqe} {provides : List Sqe} : sqe.Starts op.toOrphanedOp →
      op.Fresh → (provides ≠ [] → op.toOrphanedOp.receives = true) →
      Step .new .quiet { Life.new with
        op := some op
        started := some sqe
        provides := provides }
  | register {l : Life} {op : OpState} {waker : ℕ} : l.op = some op →
      Step l .quiet { l with op := some { op with waker := some waker } }
  | pop {l : Life} {op : OpState} {m : MultishotState} {event : MultishotEvent}
      {events : List MultishotEvent} : l.op = some op → op.multishot = some m →
      m.events = event :: events →
      Step l .quiet { l with
        op := some { op with multishot := some { m with events := events } }
        transferred := l.transferred ++ event.fds }
  | take {l : Life} {op : OpState} {result : Except IoError ℕ} : l.op = some op →
      op.multishot = none → op.result = some result →
      Step l .quiet { l with
        op := none
        released := l.released ++ [op.toOrphanedOp]
        transferred := l.transferred ++ acceptedFd (result, op.resource) }
  | check {l : Life} {op : OpState} {m : MultishotState} : l.op = some op →
      op.multishot = some m → m.finished = true → Step l .quiet { l with ended := true }
  | finish {l : Life} {op : OpState} : l.op = some op → op.multishot.isSome = true →
      l.ended = true →
      Step l .quiet { l with
        op := none
        released := l.released ++ [op.toOrphanedOp] }
  | dropComplete {l : Life} {op : OpState} {u : ℕ} : l.op = some op → op.complete? = true →
      Step l (.drop u) { l with
        op := none
        released := l.released ++ [op.toOrphanedOp]
        closed := l.closed ++ op.unclaimedFds
        dropped := true }
  | dropToOrphan {l : Life} {op : OpState} {u : ℕ} : l.op = some op → op.complete? = false →
      Step l (.drop u) { l with
        op := none
        orphan := some op.toOrphanedOp
        dropped := true }
  | refill {l : Life} {op : OpState} {sqe : Sqe} : l.op = some op →
      op.toOrphanedOp.receives = true → Step l .quiet { l with provides := l.provides ++ [sqe] }
  | request {l : Life} {op : OrphanedOp} {sqe : Sqe} {target count : ℕ} : l.held = some op →
      cleanupRequest op = some (target, count, sqe.bufIndex) →
      (∀ a ∈ l.requests, a.userData ≠ sqe.userData) →
      Step l .quiet { l with
        requests := l.requests ++ [sqe]
        op := l.op.map (OpState.setCleanup · sqe.userData)
        orphan := l.orphan.map (OrphanedOp.setCleanup · sqe.userData) }
  | answer {l : Life} {op : OpState} {cqe : Cqe} : l.op = some op → l.started = some cqe.sqe →
      (∀ a ∈ l.answers, a.last = false) →
      Step l (.reap cqe) { l with
        answers := l.answers ++ [cqe]
        op := some (op.answered cqe) }
  | answerOrphan {l : Life} {op : OrphanedOp} {cqe : Cqe} : l.op = none → l.orphan = some op →
      l.started = some cqe.sqe → (∀ a ∈ l.answers, a.last = false) →
      Step l (.reap cqe) { l with
        answers := l.answers ++ [cqe]
        closed := l.closed ++ op.unclaimedFds cqe
        orphan := op.answered cqe
        released := l.released ++ if (op.answered cqe).isNone then [op] else [] }
  | answerNone {l : Life} {cqe : Cqe} : l.op = none → l.orphan = none →
      l.started = some cqe.sqe → (∀ a ∈ l.answers, a.last = false) →
      Step l (.reap cqe) { l with answers := l.answers ++ [cqe] }
  | cancelled {l : Life} {op : OrphanedOp} {cqe : Cqe} : cqe.sqe.opcode = .asyncCancel →
      cqe.res = 0 → l.orphan = some op → op.multishot = none →
      Step l (.reap cqe) { l with
        orphan := none
        released := l.released ++ [op] }
  | provideFailed {l : Life} {op : OpState} {cqe : Cqe} : cqe.sqe.opcode = .provideBuffers →
      cqe.sqe ∈ l.provides → cqe.res < 0 → l.op = some op →
      Step l (.reap cqe) { l with op := some (op.provideFailed cqe.res) }
  | cleanup {l : Life} {op : OpState} {cqe : Cqe} : cqe.sqe ∈ l.requests →
      (∀ a ∈ l.cleanups, a.sqe ≠ cqe.sqe) → l.op = some op →
      Step l (.reap cqe) { l with
        cleanups := l.cleanups ++ [cqe]
        op := some (op.cleaned cqe.res) }
  | cleanupOrphan {l : Life} {op : OrphanedOp} {cqe : Cqe} : cqe.sqe ∈ l.requests →
      (∀ a ∈ l.cleanups, a.sqe ≠ cqe.sqe) → l.op = none → l.orphan = some op →
      Step l (.reap cqe) { l with
        cleanups := l.cleanups ++ [cqe]
        orphan := op.cleaned cqe.res
        released := l.released ++ if (op.cleaned cqe.res).isNone then [op] else [] }
  | cleanupNone {l : Life} {cqe : Cqe} : cqe.sqe ∈ l.requests →
      (∀ a ∈ l.cleanups, a.sqe ≠ cqe.sqe) → l.op = none → l.orphan = none →
      Step l (.reap cqe) { l with cleanups := l.cleanups ++ [cqe] }

def Owns (l : Life) (op : OrphanedOp) : Prop := ∃ sqe, l.started = some sqe ∧ sqe.Starts op

structure Sound (l : Life) : Prop where
  fresh : l.started = none → l = .new
  apart : l.op = none ∨ l.orphan = none
  op : ∀ op, l.op = some op → l.Owns op.toOrphanedOp
  /-- A multishot operation has events and no result. -/
  result : ∀ op, l.op = some op → op.multishot.isSome = true → op.result = none
  orphan : ∀ op, l.orphan = some op → l.Owns op
  released : ∀ op ∈ l.released, l.Owns op
  answers : ∀ a ∈ l.answers, l.started = some a.sqe
  provides : ∀ c ∈ l.provides, ∃ sqe, l.started = some sqe ∧ sqe.opcode = .recv
  /-- Buffers are taken back from the group from which the operation receives. -/
  requests : ∀ c ∈ l.requests, ∃ sqe, l.started = some sqe ∧ sqe.opcode = .recv ∧
    sqe.multishot = true ∧ sqe.bufIndex = c.bufIndex
  cleanups : ∀ c ∈ l.cleanups, c.sqe ∈ l.requests
  dropped : l.dropped = true → l.op = none

variable {l l' : Life}

theorem Owns.of_shape {a b : OrphanedOp} (h : l.Owns a) (hshape : b.shape = a.shape) :
    l.Owns b := by
  obtain ⟨sqe, hstarted, hstarts⟩ := h
  exact ⟨sqe, hstarted, hstarts.of_shape hshape⟩

theorem Owns.started_ne {a : OrphanedOp} (h : l.Owns a) : l.started ≠ none := by
  obtain ⟨sqe, hstarted, -⟩ := h
  simp [hstarted]

theorem none_ne_some {α : Type} {P : α → Prop} : ∀ a, (none : Option α) = some a → P a := by
  intro a ha
  cases ha

theorem Sound.new : Sound .new := by
  constructor <;> simp [Life.new]

theorem Sound.setOp (h : l.Sound) {old op : OpState} (hop : l.op = some old)
    (hshape : op.toOrphanedOp.shape = old.toOrphanedOp.shape)
    (hresult : op.result = old.result ∨ op.multishot = none) :
    Sound { l with op := some op } := by
  have howns := h.op old hop
  refine ⟨fun hnone => absurd hnone howns.started_ne, ?_, fun op' hop' => ?_, fun op' hop' hm => ?_,
    h.orphan, h.released, h.answers, h.provides, h.requests, h.cleanups, fun hdropped => ?_⟩
  · exact .inr (h.apart.resolve_left (by simp [hop]))
  · cases hop'
    exact howns.of_shape hshape
  · cases hop'
    rcases hresult with hresult | hnone
    · rw [isSome_of_shape hshape] at hm
      exact hresult.trans (h.result old hop hm)
    · simp [hnone] at hm
  · simp [h.dropped hdropped] at hop

variable {op : OrphanedOp} {sqe : Sqe}

theorem Sound.setOrphan (h : l.Sound) {old : OrphanedOp} (hop : l.orphan = some old)
    (hshape : op.shape = old.shape) : Sound { l with orphan := some op } := by
  have howns := h.orphan old hop
  refine ⟨fun hnone => absurd hnone howns.started_ne, ?_, h.op, h.result, fun op' hop' => ?_,
    h.released, h.answers, h.provides, h.requests, h.cleanups, h.dropped⟩
  · exact .inl (h.apart.resolve_right (by simp [hop]))
  · cases hop'
    exact howns.of_shape hshape

theorem Sound.releaseOp (h : l.Sound) {op : OpState} (hop : l.op = some op) :
    Sound { l with op := none, released := l.released ++ [op.toOrphanedOp] } := by
  have howns := h.op op hop
  refine ⟨fun hnone => absurd hnone howns.started_ne, .inl rfl, none_ne_some, none_ne_some, h.orphan,
    fun op' hop' => ?_, h.answers, h.provides, h.requests, h.cleanups, fun _ => rfl⟩
  rcases List.mem_append.mp hop' with hop' | hop'
  · exact h.released op' hop'
  · rw [List.mem_singleton.mp hop']
    exact howns

theorem Sound.releaseOrphan (h : l.Sound) (hop : l.orphan = some op) :
    Sound { l with orphan := none, released := l.released ++ [op] } := by
  have howns := h.orphan op hop
  refine ⟨fun hnone => absurd hnone howns.started_ne, .inr rfl, h.op, h.result, none_ne_some,
    fun op' hop' => ?_, h.answers, h.provides, h.requests, h.cleanups, h.dropped⟩
  rcases List.mem_append.mp hop' with hop' | hop'
  · exact h.released op' hop'
  · rw [List.mem_singleton.mp hop']
    exact howns

theorem Sound.toOrphan (h : l.Sound) {op : OpState} (hop : l.op = some op) :
    Sound { l with op := none, orphan := some op.toOrphanedOp } := by
  have howns := h.op op hop
  refine ⟨fun hnone => absurd hnone howns.started_ne, .inl rfl, none_ne_some, none_ne_some,
    fun op' hop' => ?_,
    h.released, h.answers, h.provides, h.requests, h.cleanups, fun _ => rfl⟩
  cases hop'
  exact howns

theorem Sound.history (h : l.Sound) (hstarted : l.started ≠ none) (ended : Bool)
    (transferred closed : List ℕ) :
    Sound { l with ended := ended, transferred := transferred, closed := closed } :=
  ⟨fun hnone => absurd hnone hstarted, h.apart, h.op, h.result, h.orphan, h.released, h.answers, h.provides,
    h.requests, h.cleanups, h.dropped⟩

theorem Sound.drop (h : l.Sound) (hstarted : l.started ≠ none) (hop : l.op = none) :
    Sound { l with dropped := true } :=
  ⟨fun hnone => absurd hnone hstarted, h.apart, h.op, h.result, h.orphan, h.released, h.answers, h.provides,
    h.requests, h.cleanups, fun _ => hop⟩

theorem Sound.answered (h : l.Sound) {cqe : Cqe} (hstarted : l.started = some cqe.sqe) :
    Sound { l with answers := l.answers ++ [cqe] } := by
  refine ⟨fun hnone => ?_, h.apart, h.op, h.result, h.orphan, h.released, fun a ha => ?_, h.provides,
    h.requests, h.cleanups, h.dropped⟩
  · simp [hstarted] at hnone
  · rcases List.mem_append.mp ha with ha | ha
    · exact h.answers a ha
    · rw [List.mem_singleton.mp ha]
      exact hstarted

theorem Sound.cleaned (h : l.Sound) {cqe : Cqe} (hsqe : cqe.sqe ∈ l.requests) :
    Sound { l with cleanups := l.cleanups ++ [cqe] } := by
  obtain ⟨sqe, hstarted, -⟩ := h.requests _ hsqe
  refine ⟨fun hnone => ?_, h.apart, h.op, h.result, h.orphan, h.released, h.answers, h.provides,
    h.requests, fun a ha => ?_, h.dropped⟩
  · simp [hstarted] at hnone
  · rcases List.mem_append.mp ha with ha | ha
    · exact h.cleanups a ha
    · rw [List.mem_singleton.mp ha]
      exact hsqe

/-- What a request to take buffers back is made for. -/
theorem cleanupRequest_eq_some {target count group : ℕ}
    (h : cleanupRequest op = some (target, count, group)) :
    ∃ m bufferSize, op.multishot = some m ∧ m.eventKind = .recv bufferSize group ∧
      m.terminal = true ∧ m.cleanupComplete = false ∧ m.cleanupUserData = none := by
  obtain ⟨m, hm, h⟩ := Option.bind_eq_some_iff.mp h
  refine ⟨m, ?_⟩
  split_ifs at h with hflags
  simp only [Bool.or_eq_true, Bool.not_eq_eq_eq_not, Bool.not_true, not_or, Bool.not_eq_false,
    Bool.not_eq_true, Option.isSome_eq_false_iff, Option.isNone_iff_eq_none] at hflags
  cases hkind : m.eventKind with
  | accept => simp [hkind] at h
  | recv bufferSize bufferGroup =>
    simp only [hkind] at h
    split_ifs at h
    simp only [Option.some.injEq, Prod.mk.injEq] at h
    exact ⟨bufferSize, hm, by rw [h.2.2], hflags.1.1, hflags.1.2, hflags.2⟩

theorem Sound.held (h : l.Sound) (hop : l.held = some op) : l.Owns op := by
  cases hl : l.op with
  | none => exact h.orphan op (by simpa [Life.held, hl] using hop)
  | some op' =>
    obtain rfl : op'.toOrphanedOp = op := by simpa [Life.held, hl] using hop
    exact h.op op' hl

theorem Sound.requested (h : l.Sound) {target count : ℕ}
    (hop : l.held = some op) (hrequest : cleanupRequest op = some (target, count, sqe.bufIndex)) :
    Sound { l with requests := l.requests ++ [sqe] } := by
  obtain ⟨a, hstarted, hstarts⟩ := h.held hop
  refine ⟨fun hnone => ?_, h.apart, h.op, h.result, h.orphan, h.released, h.answers, h.provides,
    fun c hc => ?_, fun c hc => List.mem_append_left _ (h.cleanups c hc), h.dropped⟩
  · simp [hstarted] at hnone
  · rcases List.mem_append.mp hc with hc | hc
    · exact h.requests c hc
    · obtain ⟨m, bufferSize, hm, hkind, -⟩ := cleanupRequest_eq_some hrequest
      obtain ⟨-, -, -, hrest⟩ := hstarts
      rw [hm] at hrest
      simp only [hkind] at hrest
      rw [List.mem_singleton.mp hc]
      exact ⟨a, hstarted, hrest.2.1, hrest.1, hrest.2.2.1⟩

theorem Sound.setCleanup (h : l.Sound) (c : ℕ) :
    Sound { l with
      op := l.op.map (OpState.setCleanup · c)
      orphan := l.orphan.map (OrphanedOp.setCleanup · c) } := by
  refine ⟨fun hnone => ?_, ?_, fun op hop => ?_, fun op hop hm => ?_, fun op hop => ?_, h.released,
    h.answers, h.provides, h.requests, h.cleanups, fun hdropped => ?_⟩
  · rw [h.fresh hnone]
    rfl
  · apply h.apart.imp
    all_goals
      intro hnone
      simp [hnone]
  · obtain ⟨old, hold, rfl⟩ := Option.map_eq_some_iff.mp hop
    exact (h.op old hold).of_shape (OrphanedOp.setCleanup_shape _ c)
  · obtain ⟨old, hold, rfl⟩ := Option.map_eq_some_iff.mp hop
    apply h.result old hold
    simpa [OpState.setCleanup, OrphanedOp.setCleanup] using hm
  · obtain ⟨old, hold, rfl⟩ := Option.map_eq_some_iff.mp hop
    exact (h.orphan old hold).of_shape (old.setCleanup_shape c)
  · simp [h.dropped hdropped]

theorem opcode_of_receives (h : sqe.Starts op)
    (hreceives : op.receives = true) : sqe.opcode = .recv := by
  obtain ⟨-, -, -, h⟩ := h
  obtain ⟨m, hm, hkind⟩ := (Option.any_eq_true ..).mp hreceives
  rw [hm] at h
  cases heq : m.eventKind with
  | accept => simp [heq] at hkind
  | recv bufferSize bufferGroup =>
    simp only [heq] at h
    exact h.2.1

theorem Sound.start {op : OpState} {provides : List Sqe}
    (hstarts : sqe.Starts op.toOrphanedOp) (hfresh : op.Fresh)
    (hprovides : provides ≠ [] → op.toOrphanedOp.receives = true) :
    Sound { Life.new with op := some op, started := some sqe, provides := provides } := by
  refine ⟨?_, .inr rfl, fun op' hop => ?_, fun op' hop _ => ?_, none_ne_some, ?_, ?_, fun c hc => ?_,
    ?_, ?_, ?_⟩
  case refine_2 =>
    cases hop
    exact ⟨sqe, rfl, hstarts⟩
  case refine_3 =>
    cases hop
    exact hfresh.1
  case refine_6 =>
    exact ⟨sqe, rfl, opcode_of_receives hstarts (hprovides (List.ne_nil_of_mem hc))⟩
  all_goals simp [Life.new]

theorem Sound.refill (h : l.Sound) {op : OpState} (hop : l.op = some op)
    (hreceives : op.toOrphanedOp.receives = true) (sqe : Sqe) :
    Sound { l with provides := l.provides ++ [sqe] } := by
  obtain ⟨a, hstarted, hstarts⟩ := h.op op hop
  refine ⟨fun hnone => ?_, h.apart, h.op, h.result, h.orphan, h.released, h.answers, fun c hc => ?_,
    h.requests, h.cleanups, h.dropped⟩
  · simp [hstarted] at hnone
  · rcases List.mem_append.mp hc with hc | hc
    · exact h.provides c hc
    · exact ⟨a, hstarted, opcode_of_receives hstarts hreceives⟩

theorem Sound.step {k : Kind} (h : l.Sound) (hstep : Step l k l') : l'.Sound := by
  cases hstep with
  | start hstarts hfresh hprovides => exact .start hstarts hfresh hprovides
  | refill hop hreceives => exact h.refill hop hreceives _
  | register hop => exact h.setOp hop rfl (.inl rfl)
  | @pop _ op m event events hop hm =>
    have hset : Sound { l with
        op := some { op with multishot := some { m with events := events } } } := by
      apply h.setOp hop
      · simp [OrphanedOp.shape, hm]
      · exact .inl rfl
    exact hset.history (h.op _ hop).started_ne _ _ _
  | take hop | finish hop =>
    apply (h.releaseOp hop).history
    exact (h.op _ hop).started_ne
  | check hop =>
    apply h.history
    exact (h.op _ hop).started_ne
  | dropComplete hop =>
    have hstarted := (h.op _ hop).started_ne
    exact ((h.releaseOp hop).drop hstarted rfl).history hstarted _ _ _
  | dropToOrphan hop => exact (h.toOrphan hop).drop (h.op _ hop).started_ne rfl
  | request hop hrequest => exact (h.requested hop hrequest).setCleanup _
  | @answer _ op cqe hop hstarted =>
    apply (h.setOp hop (op.answered_shape cqe) _).answered hstarted
    cases hm : op.multishot <;> simp [OpState.answered, hm]
  | @answerOrphan _ op cqe _ hop hstarted =>
    have hanswered := h.answered hstarted
    have hne : l.started ≠ none := by simp [hstarted]
    cases hnext : op.answered cqe with
    | none => exact (hanswered.releaseOrphan hop).history hne _ _ _
    | some op' =>
      have hset := hanswered.setOrphan hop (OrphanedOp.answered_shape hnext)
      simpa using hset.history hne _ _ _
  | answerNone _ _ hstarted => exact h.answered hstarted
  | cancelled _ _ hop => exact h.releaseOrphan hop
  | @provideFailed _ op cqe _ _ _ hop =>
    apply h.setOp hop (op.provideFailed_shape cqe.res)
    cases hm : op.multishot <;> simp [OpState.provideFailed, hm]
  | @cleanup _ op cqe hsqe _ hop =>
    apply (h.setOp hop (op.cleaned_shape cqe.res) _).cleaned hsqe
    cases hm : op.multishot <;> simp [OpState.cleaned, hm]
  | @cleanupOrphan _ op cqe hsqe _ _ hop =>
    have hcleaned := h.cleaned hsqe
    cases hnext : op.cleaned cqe.res with
    | none => exact hcleaned.releaseOrphan hop
    | some op' => simpa using hcleaned.setOrphan hop (OrphanedOp.cleaned_shape hnext)
  | cleanupNone hsqe => exact h.cleaned hsqe

end Life

namespace Table
variable {v v' : Table} {u w : ℕ}

theorem happened_append (u w : ℕ) (log : List ℕ) :
    happened u (log ++ [w]) = (happened u log || decide (u = w)) := by
  simp [happened]

theorem happened_iff {u : ℕ} {log : List ℕ} : happened u log = true ↔ u ∈ log := by
  simp [happened]

theorem fdsOf_append (u w : ℕ) (fds : List (ℕ × ℕ)) (more : List ℕ) :
    fdsOf u (fds ++ more.map (w, ·)) = fdsOf u fds ++ if w = u then more else [] := by
  simp only [fdsOf, List.filter_append, List.map_append, List.filter_map]
  by_cases hw : w = u
  · simp [hw, Function.comp_def]
  · simp [hw, Function.comp_def]

theorem life_setOp_self (op : OpState) :
    (v.setOp u op).life u = { v.life u with op := some op } := by
  simp [life, setOp]

theorem life_setOp_ne (h : u ≠ w) (op : OpState) : (v.setOp w op).life u = v.life u := by
  simp [life, setOp, h]

theorem life_setOrphan_self (op : OrphanedOp) :
    (v.setOrphan u op).life u = { v.life u with orphan := some op } := by
  simp [life, setOrphan]

theorem life_setOrphan_ne (h : u ≠ w) (op : OrphanedOp) : (v.setOrphan w op).life u = v.life u := by
  simp [life, setOrphan, h]

variable {sqe : Sqe} {op : OpState}

theorem life_releaseOp_self (hop : op.userData = u) :
    (v.releaseOp u op).life u =
      { v.life u with op := none, released := (v.life u).released ++ [op.toOrphanedOp] } := by
  simp [life, releaseOp, hop]

theorem life_releaseOp_ne (h : u ≠ w) (hop : op.userData = w) :
    (v.releaseOp w op).life u = v.life u := by
  simp [life, releaseOp, hop, h, Ne.symm h]

theorem life_releaseOrphan_self {op : OrphanedOp} (hop : op.userData = u) :
    (v.releaseOrphan u op).life u =
      { v.life u with orphan := none, released := (v.life u).released ++ [op] } := by
  simp [life, releaseOrphan, hop]

theorem life_releaseOrphan_ne (h : u ≠ w) {op : OrphanedOp} (hop : op.userData = w) :
    (v.releaseOrphan w op).life u = v.life u := by
  simp [life, releaseOrphan, hop, h, Ne.symm h]

theorem life_queue (v : Table) (u : ℕ) (sqe : Sqe) :
    (v.queue sqe).life u = { v.life u with
      started := (v.life u).started.or (if sqe.startsAs u then some sqe else none)
      provides := (v.life u).provides ++ if sqe.provides u then [sqe] else []
      requests := (v.life u).requests ++ if sqe.cleansUp u then [sqe] else [] } := by
  simp only [life, queue, Traffic.queue, List.find?_append, List.filter_append]
  cases hstarts : sqe.startsAs u <;> cases hprovides : sqe.provides u <;>
    cases hcleans : sqe.cleansUp u <;> simp [hstarts, hprovides, hcleans]

theorem life_queue_cancel (hcancel : sqe.opcode = .asyncCancel) :
    (v.queue sqe).life u = v.life u := by
  rw [life_queue]
  simp [Sqe.startsAs, Sqe.provides, Sqe.cleansUp, hcancel, Opcode.control]

theorem life_queue_provide (hprovide : sqe.opcode = .provideBuffers) :
    (v.queue sqe).life u = { v.life u with
      provides := (v.life u).provides ++ if sqe.owner = u then [sqe] else [] } := by
  rw [life_queue]
  simp [Sqe.startsAs, Sqe.provides, Sqe.cleansUp, hprovide, Opcode.control]

theorem life_queue_remove (hremove : sqe.opcode = .removeBuffers) :
    (v.queue sqe).life u = { v.life u with
      requests := (v.life u).requests ++ if sqe.owner = u then [sqe] else [] } := by
  rw [life_queue]
  simp [Sqe.startsAs, Sqe.provides, Sqe.cleansUp, hremove, Opcode.control]

theorem life_queue_start (hcontrol : sqe.opcode.control = false) :
    (v.queue sqe).life u = { v.life u with
      started := (v.life u).started.or (if sqe.userData = u then some sqe else none) } := by
  have hprovides : sqe.provides u = false := by
    cases hop : sqe.opcode <;> simp_all [Sqe.provides, Opcode.control]
  have hcleans : sqe.cleansUp u = false := by
    cases hop : sqe.opcode <;> simp_all [Sqe.cleansUp, Opcode.control]
  rw [life_queue, hprovides, hcleans]
  simp [Sqe.startsAs, hcontrol]

theorem Valid.life_fresh (hfresh : ∀ sqe ∈ v.io.queued, sqe.userData ≠ u) (hl : (v.life u).Sound) :
    v.life u = .new := by
  apply hl.fresh
  rw [life, List.find?_eq_none]
  intro sqe hsqe
  simp [Sqe.startsAs, hfresh sqe hsqe]

theorem life_start_self (op : OpState) (hcontrol : sqe.opcode.control = false)
    (hnone : (v.life sqe.userData).started = none) :
    ((v.queue sqe).setOp sqe.userData op).life sqe.userData =
      { v.life sqe.userData with op := some op, started := some sqe } := by
  rw [life_setOp_self, life_queue_start hcontrol, hnone]
  simp

theorem life_start_ne (hcontrol : sqe.opcode.control = false)
    (hu : u ≠ sqe.userData) : ((v.queue sqe).setOp sqe.userData op).life u = v.life u := by
  rw [life_setOp_ne hu, life_queue_start hcontrol]
  simp [Ne.symm hu]

theorem Valid.userData_of_op (h : v.Valid) (hop : v.op u = some op) :
    op.userData = u := (h.op u op hop).1

theorem Valid.userData_of_orphan (h : v.Valid) {op : OrphanedOp} (hop : v.orphan u = some op) :
    op.userData = u := (h.orphan u op hop).1

/-- The completion of a cancellation whose entry was withdrawn. -/
def Stale (v : Table) : Kind → Prop
  | .reap cqe => cqe.sqe.opcode = .asyncCancel ∧ v.cancel cqe.userData = none
  | _ => False

theorem Valid.life_cleanup (h : v.Valid) {op : OrphanedOp} {count : ℕ}
    (hu : sqe.userData = v.allocated + 1) (hopcode : sqe.opcode = .removeBuffers)
    (hheld : v.held sqe.owner = some op)
    (hrequest : cleanupRequest op = some (sqe.owner, count, sqe.bufIndex)) :
    let v' := { v.queue sqe with
      op := (v.op sqe.owner).elim v.op fun op =>
        Function.update v.op sqe.owner (some (op.setCleanup sqe.userData))
      orphan := (v.orphan sqe.owner).elim v.orphan fun op =>
        Function.update v.orphan sqe.owner (some (op.setCleanup sqe.userData)) }
    v'.life u = v.life u ∨ Life.Step (v.life u) .quiet (v'.life u) := by
  by_cases hw : u = sqe.owner
  · subst hw
    have hqueue : (v.queue sqe).life sqe.owner = { v.life sqe.owner with
        requests := (v.life sqe.owner).requests ++ [sqe] } := by
      simpa using life_queue_remove (v := v) (u := sqe.owner) hopcode
    have hlife : Table.life { v.queue sqe with
        op := (v.op sqe.owner).elim v.op fun op =>
          Function.update v.op sqe.owner (some (op.setCleanup sqe.userData))
        orphan := (v.orphan sqe.owner).elim v.orphan fun op =>
          Function.update v.orphan sqe.owner (some (op.setCleanup sqe.userData)) } sqe.owner =
        { (v.queue sqe).life sqe.owner with
          op := (v.op sqe.owner).map (OpState.setCleanup · sqe.userData)
          orphan := (v.orphan sqe.owner).map (OrphanedOp.setCleanup · sqe.userData) } := by
      cases hop : v.op sqe.owner <;> cases horphan : v.orphan sqe.owner <;>
        simp [life, hop, horphan]
    refine .inr ?_
    simp only [hlife, hqueue]
    refine Life.Step.request (l := v.life sqe.owner) hheld hrequest fun a ha => ?_
    have := h.below a (List.mem_of_mem_filter ha)
    omega
  · have hqueue : (v.queue sqe).life u = v.life u := by
      rw [life_queue_remove hopcode]
      simp [Ne.symm hw]
    refine .inl (Eq.trans ?_ hqueue)
    cases hop : v.op sqe.owner <;> cases horphan : v.orphan sqe.owner <;>
      simp [life, Table.queue, hw]

section Reap
variable {cqe : Cqe} {io : Traffic Sqe Cqe}

theorem life_clear (hreap : v.io.reap = some (cqe, io)) (u c : ℕ) :
    (v.clear io c).life u = { v.life u with
      answers := (v.life u).answers ++ if cqe.sqe.startsAs u then [cqe] else []
      cleanups := (v.life u).cleanups ++ if cqe.sqe.cleansUp u then [cqe] else [] } := by
  obtain ⟨rest, -, rfl⟩ := Traffic.reap_eq_some.mp hreap
  simp only [life, clear, List.filter_append]
  cases hstarts : cqe.sqe.startsAs u <;> cases hcleans : cqe.sqe.cleansUp u <;>
    simp [hstarts, hcleans]

theorem life_clear_of_other (hreap : v.io.reap = some (cqe, io)) {c : ℕ}
    (hstarts : cqe.sqe.startsAs u = false) (hcleans : cqe.sqe.cleansUp u = false) :
    (v.clear io c).life u = v.life u := by
  rw [life_clear hreap, hstarts, hcleans]
  simp

/-- What a completion did to the life of `u`. -/
def Lived (v : Table) (u : ℕ) (cqe : Cqe) (v' : Table) : Prop :=
  v'.life u = v.life u ∨
    Life.Step (v.life u) (.reap cqe) (v'.life u) ∧ u = cqe.sqe.owner ∧ ¬ v.Stale (.reap cqe)

theorem Valid.lived_cancel (h : v.Valid) (hreap : v.io.reap = some (cqe, io))
    (hopcode : cqe.sqe.opcode = .asyncCancel)
    (hcancel : v.cancel cqe.userData = some cqe.sqe.owner) :
    Lived v u cqe ((v.clear io cqe.userData).reapCancel cqe.sqe.owner cqe.res) := by
  have hclear : (v.clear io cqe.userData).life u = v.life u := by
    apply life_clear_of_other hreap
    · simp [Sqe.startsAs, hopcode, Opcode.control]
    · simp [Sqe.cleansUp, hopcode]
  have hnone := (h.cancel _ _ hcancel).1
  unfold Table.reapCancel
  split_ifs with hres
  · split
    · rename_i op horphan
      have horphan : v.orphan cqe.sqe.owner = some op := horphan
      have huser := h.userData_of_orphan horphan
      split_ifs with hm
      · by_cases hu : u = cqe.sqe.owner
        · subst hu
          rw [Lived, life_releaseOrphan_self huser, hclear]
          exact .inr ⟨.cancelled hopcode hres horphan (by simpa using hm), rfl,
            by simp [Stale, hcancel]⟩
        · exact .inl ((life_releaseOrphan_ne hu huser).trans hclear)
      · exact .inl hclear
    · split
      · rename_i hop
        simp [Table.clear, hnone] at hop
      · exact .inl hclear
  · exact .inl hclear

theorem Valid.lived_provide (h : v.Valid) (hreap : v.io.reap = some (cqe, io))
    (hopcode : cqe.sqe.opcode = .provideBuffers) :
    Lived v u cqe ((v.clear io cqe.userData).reapProvide cqe.sqe.owner cqe.res) := by
  have hclear : (v.clear io cqe.userData).life u = v.life u := by
    apply life_clear_of_other hreap
    · simp [Sqe.startsAs, hopcode, Opcode.control]
    · simp [Sqe.cleansUp, hopcode]
  unfold Table.reapProvide
  split_ifs with hres
  · split
    · rename_i op hop
      by_cases hu : u = cqe.sqe.owner
      · subst hu
        have hmem : cqe.sqe ∈ (v.life cqe.sqe.owner).provides :=
          List.mem_filter.mpr ⟨h.sqe_mem hreap, by simp [Sqe.provides, hopcode]⟩
        rw [Lived, life_setOp_self, hclear]
        exact .inr ⟨.provideFailed hopcode hmem hres hop, rfl, by simp [Stale, hopcode]⟩
      · exact .inl ((life_setOp_ne hu _).trans hclear)
    · exact .inl hclear
  · exact .inl hclear

theorem Valid.lived_cleanup (h : v.Valid) (hreap : v.io.reap = some (cqe, io))
    (hopcode : cqe.sqe.opcode = .removeBuffers)
    (hprovide : v.provide cqe.userData = some cqe.sqe.owner) :
    Lived v u cqe ((v.clear io cqe.userData).reapCleanup cqe.sqe.owner cqe.res) := by
  have hstarts : cqe.sqe.startsAs u = false := by simp [Sqe.startsAs, hopcode, Opcode.control]
  by_cases hu : u = cqe.sqe.owner
  · subst hu
    have hcleans : cqe.sqe.cleansUp cqe.sqe.owner = true := by simp [Sqe.cleansUp, hopcode]
    have hclear := life_clear hreap cqe.sqe.owner cqe.userData
    rw [hstarts, hcleans] at hclear
    simp only [Bool.false_eq_true, ↓reduceIte, List.append_nil] at hclear
    have hmem : cqe.sqe ∈ (v.life cqe.sqe.owner).requests :=
      List.mem_filter.mpr ⟨h.sqe_mem hreap, hcleans⟩
    have hfirst : ∀ a ∈ (v.life cqe.sqe.owner).cleanups, a.sqe ≠ cqe.sqe := by
      intro a ha
      obtain ⟨sqe, hsqe, huser, -, -, hne⟩ := (h.provide _ _).mp hprovide
      have heq := h.io.tag_injective hsqe (h.sqe_mem hreap) huser
      exact heq ▸ hne a (List.mem_of_mem_filter ha)
    refine .inr ⟨?_, rfl, by simp [Stale, hopcode]⟩
    unfold Table.reapCleanup
    split
    · rename_i op hop
      rw [life_setOp_self, hclear]
      exact .cleanup hmem hfirst hop
    · rename_i hop
      split
      · rename_i op horphan
        have hstep := Life.Step.cleanupOrphan hmem hfirst hop horphan
        split
        · rename_i op' hcleaned
          rw [life_setOrphan_self, hclear]
          simpa [hcleaned] using hstep
        · rename_i hcleaned
          rw [life_releaseOrphan_self (h.userData_of_orphan horphan), hclear]
          simpa [hcleaned] using hstep
      · rename_i horphan
        rw [hclear]
        exact .cleanupNone hmem hfirst hop horphan
  · have hclear : (v.clear io cqe.userData).life u = v.life u := by
      apply life_clear_of_other hreap hstarts
      simp [Sqe.cleansUp, Ne.symm hu]
    refine .inl ?_
    unfold Table.reapCleanup
    split
    · exact (life_setOp_ne hu _).trans hclear
    · split
      · rename_i op horphan
        split
        · exact (life_setOrphan_ne hu _).trans hclear
        · exact (life_releaseOrphan_ne hu (h.userData_of_orphan horphan)).trans hclear
      · exact hclear

theorem Valid.started_eq (h : v.Valid) {sqe : Sqe} (hsqe : sqe ∈ v.io.queued)
    (hstarts : sqe.startsAs u = true) : (v.life u).started = some sqe := by
  cases hfind : v.io.queued.find? (Sqe.startsAs u) with
  | none => exact absurd hstarts (List.find?_eq_none.mp hfind sqe hsqe)
  | some a =>
    have ha := List.find?_some hfind
    simp only [Sqe.startsAs, Bool.and_eq_true, beq_iff_eq] at ha hstarts
    have heq : a = sqe := h.io.tag_injective (List.mem_of_find?_eq_some hfind) hsqe
      (ha.1.trans hstarts.1.symm)
    exact hfind.trans (congrArg some heq)

theorem Valid.lived_answer (h : v.Valid) (hreap : v.io.reap = some (cqe, io))
    (hcontrol : cqe.sqe.opcode.control = false) (howner : cqe.sqe.owner = cqe.userData) :
    Lived v u cqe ((v.clear io cqe.userData).reapAnswer cqe) := by
  have hcleans : cqe.sqe.cleansUp u = false := by
    cases hop : cqe.sqe.opcode <;> simp_all [Sqe.cleansUp, Opcode.control]
  by_cases hu : u = cqe.userData
  · subst hu
    have hstarts : cqe.sqe.startsAs cqe.userData = true := by
      simp [Sqe.startsAs, hcontrol, Cqe.userData]
    have hclear := life_clear hreap cqe.userData cqe.userData
    rw [hstarts, hcleans] at hclear
    simp only [Bool.false_eq_true, ↓reduceIte, List.append_nil] at hclear
    have hstarted := h.started_eq (h.sqe_mem hreap) hstarts
    have hfirst : ∀ a ∈ (v.life cqe.userData).answers, a.last = false := by
      intro a ha
      obtain ⟨hmem, ha⟩ := List.mem_filter.mp ha
      by_contra hlast
      apply h.io.not_last_before hreap hmem (by simpa using hlast)
      simp only [Sqe.startsAs, Bool.and_eq_true, beq_iff_eq] at ha
      exact h.io.tag_injective (h.io.known a (List.mem_append_left _ hmem)) (h.sqe_mem hreap) ha.1
    have hstale : ¬ v.Stale (.reap cqe) := by
      rintro ⟨hopcode, -⟩
      simp [hopcode, Opcode.control] at hcontrol
    refine .inr ⟨?_, howner.symm, hstale⟩
    unfold Table.reapAnswer
    split
    · rename_i op hop
      rw [life_setOp_self, hclear]
      exact .answer hop hstarted hfirst
    · rename_i hop
      split
      · rename_i op horphan
        have hstep := Life.Step.answerOrphan hop horphan hstarted hfirst
        have hclosed : Table.life { v.clear io cqe.userData with
            closed := (v.clear io cqe.userData).closed ++
              (op.unclaimedFds cqe).map (cqe.userData, ·) } cqe.userData =
            { (v.clear io cqe.userData).life cqe.userData with
              closed := (v.life cqe.userData).closed ++ op.unclaimedFds cqe } := by
          simp only [life, fdsOf_append, ↓reduceIte]
          rfl
        dsimp only
        split
        · rename_i op' hanswered
          rw [life_setOrphan_self, hclosed, hclear]
          simpa [hanswered] using hstep
        · rename_i hanswered
          rw [life_releaseOrphan_self (h.userData_of_orphan horphan), hclosed, hclear]
          simpa [hanswered] using hstep
      · rename_i horphan
        rw [hclear]
        exact .answerNone hop horphan hstarted hfirst
  · have hstarts : cqe.sqe.startsAs u = false := by
      simpa [Sqe.startsAs, hcontrol, Cqe.userData] using Ne.symm hu
    have hclear : (v.clear io cqe.userData).life u = v.life u :=
      life_clear_of_other hreap hstarts hcleans
    refine .inl ?_
    unfold Table.reapAnswer
    split
    · exact (life_setOp_ne hu _).trans hclear
    · split
      · rename_i op horphan
        have hclosed : Table.life { v.clear io cqe.userData with
            closed := (v.clear io cqe.userData).closed ++
              (op.unclaimedFds cqe).map (cqe.userData, ·) } u = v.life u := by
          rw [← hclear]
          simp [life, fdsOf_append, Ne.symm hu]
        dsimp only
        split
        · exact (life_setOrphan_ne hu _).trans hclosed
        · exact (life_releaseOrphan_ne hu (h.userData_of_orphan horphan)).trans hclosed
      · exact hclear

theorem Valid.lived (h : v.Valid) (hreap : v.io.reap = some (cqe, io)) (u : ℕ) :
    Lived v u cqe (Table.reapCqe { v with io := io } cqe) := by
  rcases h.reap_cases hreap with ⟨hopcode, ⟨hcancel, heq⟩ | ⟨-, heq⟩⟩ |
    ⟨hopcode, hprovide, -, heq⟩ | ⟨hopcode, -, -, heq⟩ | ⟨hcontrol, howner, -, -, heq⟩ <;> rw [heq]
  · exact h.lived_cancel hreap hopcode hcancel
  · refine .inl (life_clear_of_other hreap ?_ ?_)
    · simp [Sqe.startsAs, hopcode, Opcode.control]
    · simp [Sqe.cleansUp, hopcode]
  · exact h.lived_cleanup hreap hopcode hprovide
  · exact h.lived_provide hreap hopcode
  · exact h.lived_answer hreap hcontrol howner

end Reap

theorem Move.life {k : Kind} (h : v.Valid) (hl : (v.life u).Sound) (hmove : Move v k v') :
    v'.life u = v.life u ∨
      Life.Step (v.life u) k (v'.life u) ∧ (k = .quiet ∨ u = k.operation ∧ ¬ v.Stale k) := by
  have hquiet : ∀ {l' : Life}, l' = v.life u ∨ Life.Step (v.life u) .quiet l' →
      l' = v.life u ∨ Life.Step (v.life u) .quiet l' ∧
        (Kind.quiet = .quiet ∨ u = Kind.quiet.operation ∧ ¬ v.Stale .quiet) :=
    fun hstep => hstep.imp_right fun hstep => ⟨hstep, .inl rfl⟩
  have hfresh := h.ne_of_lt (Nat.lt_succ_self v.allocated)
  induction hmove with
  | stay | alloc | uncancel | consume | post => exact .inl rfl
  | @start key op sqe hsqe hstarts hop =>
    have hcontrol := hstarts.2.2.1
    by_cases hu : u = sqe.userData
    · subst hu
      have hnew := Valid.life_fresh (hsqe.symm ▸ hfresh) hl
      have hlife := life_start_self op hcontrol (congrArg Life.started hnew)
      have hstep : Life.Step .new .quiet { Life.new with
          op := some op
          started := some sqe
          provides := [] } := .start hstarts hop (absurd rfl)
      have hlived : Life.Step (v.life sqe.userData) .quiet
          (((v.queue sqe).setOp sqe.userData op).life sqe.userData) := by
        rw [hlife, hnew]
        exact hstep
      exact hquiet (.inr hlived)
    · exact .inl (life_start_ne hcontrol hu)
  | @startRecv key op sqe control hsqe hstarts hop hreceives _ hprovide howner =>
    have hcontrol := hstarts.2.2.1
    by_cases hu : u = sqe.userData
    · subst hu
      have hnew := Valid.life_fresh (hsqe.symm ▸ hfresh) hl
      have hlife₁ : (v.queue control).life sqe.userData = { Life.new with provides := [control] } := by
        rw [life_queue_provide hprovide, hnew, howner]
        simp [Life.new]
      have hlife := life_start_self op hcontrol (congrArg Life.started hlife₁)
      have hstep : Life.Step .new .quiet { Life.new with
          op := some op
          started := some sqe
          provides := [control] } := .start hstarts hop fun _ => hreceives
      have hlived : Life.Step (v.life sqe.userData) .quiet
          ((((v.queue control).queue sqe).setOp sqe.userData op).life sqe.userData) := by
        rw [hlife, hlife₁, hnew]
        exact hstep
      exact hquiet (.inr hlived)
    · have hlife₁ : (v.queue control).life u = v.life u := by
        rw [life_queue_provide hprovide, howner]
        simp [Ne.symm hu]
      exact .inl ((life_start_ne hcontrol hu).trans hlife₁)
  | @register w waker op hop =>
    by_cases hw : u = w
    · subst hw
      rw [life_setOp_self]
      exact hquiet (.inr (.register hop))
    · exact .inl (life_setOp_ne hw _)
  | @pop w op m event events hop hm hevents =>
    by_cases hw : u = w
    · subst hw
      apply hquiet
      refine .inr ?_
      have hstep := Life.Step.pop (l := v.life u) hop hm hevents
      simpa [Table.life, setOp, fdsOf_append] using hstep
    · refine .inl ?_
      simp [Table.life, setOp, fdsOf_append, hw, Ne.symm hw]
  | @take w op result hop hm hresult =>
    have huser := h.userData_of_op hop
    by_cases hw : u = w
    · subst hw
      apply hquiet
      refine .inr ?_
      have hstep := Life.Step.take (l := v.life u) hop hm hresult
      simpa [Table.life, releaseOp, fdsOf_append, huser] using hstep
    · refine .inl ?_
      simp [Table.life, releaseOp, fdsOf_append, hw, Ne.symm hw, huser]
  | @check w op m hop hm hfinished =>
    by_cases hw : u = w
    · subst hw
      apply hquiet
      refine .inr ?_
      have hstep := Life.Step.check (l := v.life u) hop hm hfinished
      simpa [Table.life, happened_append] using hstep
    · refine .inl ?_
      simp [Table.life, happened_append, hw]
  | @finish w op hop hm hended =>
    have huser := h.userData_of_op hop
    by_cases hw : u = w
    · subst hw
      rw [life_releaseOp_self huser]
      exact hquiet (.inr (.finish hop hm (happened_iff.mpr hended)))
    · exact .inl (life_releaseOp_ne hw huser)
  | @dropComplete w op hop hcomplete =>
    have huser := h.userData_of_op hop
    by_cases hw : u = w
    · subst hw
      refine .inr ⟨?_, .inr ⟨rfl, id⟩⟩
      have hstep := Life.Step.dropComplete (l := v.life u) (u := u) hop hcomplete
      simpa [Table.life, releaseOp, fdsOf_append, happened_append, huser] using hstep
    · refine .inl ?_
      simp [Table.life, releaseOp, fdsOf_append, happened_append, hw, Ne.symm hw, huser]
  | @dropToOrphan w op hop hcomplete =>
    by_cases hw : u = w
    · subst hw
      refine .inr ⟨?_, .inr ⟨rfl, id⟩⟩
      have hstep := Life.Step.dropToOrphan (l := v.life u) (u := u) hop hcomplete
      simpa [Table.life, setOrphan, happened_append] using hstep
    · refine .inl ?_
      simp [Table.life, setOrphan, happened_append, hw]
  | @cancel sqe _ hcancel => exact .inl (life_queue_cancel (v := v) hcancel)
  | @refill op sqe _ hprovide hop hreceives =>
    by_cases hu : u = sqe.owner
    · subst hu
      have hlife : (v.queue sqe).life sqe.owner = { v.life sqe.owner with
          provides := (v.life sqe.owner).provides ++ [sqe] } := by
        rw [life_queue_provide hprovide]
        simp
      refine hquiet (.inr ?_)
      exact hlife ▸ Life.Step.refill (l := v.life sqe.owner) hop hreceives
    · have hlife : (v.queue sqe).life u = v.life u := by
        rw [life_queue_provide hprovide]
        simp [Ne.symm hu]
      exact .inl hlife
  | reap hreap => exact (h.lived hreap u).imp_right fun hlived => hlived.imp_right .inr
  | cleanup hsqe hopcode hheld hrequest => exact hquiet (h.life_cleanup hsqe hopcode hheld hrequest)

instance (v : Table) : (k : Kind) → Decidable (v.Stale k)
  | .quiet => inferInstanceAs (Decidable False)
  | .reap cqe => inferInstanceAs (Decidable
      (cqe.sqe.opcode = .asyncCancel ∧ v.cancel cqe.userData = none))
  | .drop _ => inferInstanceAs (Decidable False)

/-- A restriction of the lives is one of the tables. -/
def guards (guard : Life → Kind → Prop) (v : Table) (k : Kind) : Prop :=
  v.Stale k ∨ guard (v.life k.operation) k

instance {guard : Life → Kind → Prop} [∀ l k, Decidable (guard l k)] (v : Table) (k : Kind) :
    Decidable (guards guard v k) := instDecidableOr

end Table

theorem System.lives_of_reachable {guard : Life → Kind → Prop} {I : Life → Prop}
    {sqEntries futures : ℕ} {sqpoll : Bool} {s : System} (hquiet : ∀ l, guard l .quiet)
    (hnew : I .new) (hstep : ∀ l k l', l.Sound → I l → guard l k → Life.Step l k l' → I l')
    (h : Interleaving.Reachable System.step (System.allows (Table.guards guard))
      (.new sqEntries sqpoll futures) s)
    (hb : s.ring.allocated < 2 ^ 64) :
    s.Routed ∧ ∀ u, (s.ring.table.life u).Sound ∧ I (s.ring.table.life u) := by
  have hguard : ∀ v, Table.guards guard v .quiet := fun v => .inr (hquiet _)
  refine System.routed_of_reachable (J := fun v => ∀ u, (v.life u).Sound ∧ I (v.life u))
    hguard (fun u => ⟨.new, hnew⟩) ?_ h hb
  intro v k v' hvalid hlives hguard hmove u
  obtain ⟨hsound, hI⟩ := hlives u
  rcases Table.Move.life hvalid hsound hmove with heq | ⟨hlived, hu⟩
  · rw [heq]
    exact ⟨hsound, hI⟩
  · refine ⟨hsound.step hlived, hstep _ _ _ hsound hI ?_ hlived⟩
    rcases hu with rfl | ⟨rfl, hstale⟩
    · exact hquiet _
    · exact hguard.resolve_left hstale

end Eddy.Uring
