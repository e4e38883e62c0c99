import Eddy.UringLife

/-!
# Memory that the kernel may still use

When the resource of an operation may leave the tables: after its completion for an operation
that has one, and for a pool of buffers after the stream has ended and the kernel has given the
buffers back.
-/

namespace Eddy.Uring
open Table Interleaving

namespace Life

/-- The last completion of the operation was reaped. -/
def finished (l : Life) : Bool := l.answers.any Cqe.last

/-- The kernel has given the buffers of the pool back. -/
def cleaned (l : Life) : Bool := l.cleanups.any fun cqe => decide (0 ≤ cqe.res)

/-- A cancellation that succeeded is reaped after the completion of its target, unless the target
is a stream or is gone. -/
def CancelsLate (l : Life) : Kind → Prop
  | .reap cqe => cqe.sqe.opcode = .asyncCancel → cqe.res = 0 →
      l.orphan.any (·.multishot.isNone) = true → l.answers ≠ []
  | _ => True

/-- The kernel refuses buffers only after the last completion of a stream that has a future. -/
def RefusesLate (l : Life) : Kind → Prop
  | .reap cqe => cqe.sqe.opcode = .provideBuffers → cqe.res < 0 → l.op.isSome = true →
      l.finished = true
  | _ => True

/-- A receiving stream that has ended is not dropped before its buffers are back. -/
def DropsClean (l : Life) : Kind → Prop
  | .drop _ => l.op.any (fun op => op.toOrphanedOp.receives &&
      op.multishot.any fun m => m.terminal && !m.cleanupComplete) = false
  | _ => True

instance (l : Life) : (k : Kind) → Decidable (l.CancelsLate k)
  | .quiet => .isTrue trivial
  | .reap cqe => inferInstanceAs (Decidable (cqe.sqe.opcode = .asyncCancel → cqe.res = 0 →
      l.orphan.any (·.multishot.isNone) = true → l.answers ≠ []))
  | .drop _ => .isTrue trivial

instance (l : Life) : (k : Kind) → Decidable (l.RefusesLate k)
  | .quiet => .isTrue trivial
  | .reap cqe => inferInstanceAs (Decidable (cqe.sqe.opcode = .provideBuffers → cqe.res < 0 →
      l.op.isSome = true → l.finished = true))
  | .drop _ => .isTrue trivial

instance (l : Life) : (k : Kind) → Decidable (l.DropsClean k)
  | .quiet => .isTrue trivial
  | .reap _ => .isTrue trivial
  | .drop _ => inferInstanceAs (Decidable (_ = false))

variable {l l' : Life} {k : Kind}

theorem finished_of_append {cqe : Cqe} (h : l'.answers = l.answers ++ [cqe])
    (hfinished : l.finished = true) : l'.finished = true := by
  simp_all [finished]

theorem finished_of_last {cqe : Cqe} (h : l'.answers = l.answers ++ [cqe])
    (hmore : cqe.more = false) : l'.finished = true := by
  simp [finished, h, Cqe.last, hmore]

theorem cleaned_of_append {cqe : Cqe} (h : l'.cleanups = l.cleanups ++ [cqe])
    (hcleaned : l.cleaned = true) : l'.cleaned = true := by
  simp_all [cleaned]

theorem cleaned_of_success {cqe : Cqe} (h : l'.cleanups = l.cleanups ++ [cqe])
    (hres : 0 ≤ cqe.res) : l'.cleaned = true := by
  simp [cleaned, h, hres]

theorem finished_eq_false (h : ∀ a ∈ l.answers, a.last = false) : l.finished = false := by
  simpa [finished] using h

structure SingleShot (l : Life) : Prop where
  op : ∀ op, l.op = some op → op.multishot = none → op.result.isSome = true → l.answers ≠ []
  released : ∀ op ∈ l.released, op.multishot = none → l.answers ≠ []

theorem SingleShot.new : SingleShot .new := by
  constructor <;> simp [Life.new]

theorem SingleShot.setOp (h : l.SingleShot) {old op : OpState} (hop : l.op = some old)
    (heq : op.multishot = none → old.multishot = none ∧ op.result = old.result) :
    SingleShot { l with op := some op } := by
  refine ⟨fun op' hop' hm hresult => ?_, h.released⟩
  cases hop'
  obtain ⟨hold, hsame⟩ := heq hm
  exact h.op old hop hold (hsame ▸ hresult)

theorem SingleShot.release (h : l.SingleShot) {op : OrphanedOp}
    (hop : op.multishot = none → l.answers ≠ []) :
    ∀ op' ∈ l.released ++ [op], op'.multishot = none → l.answers ≠ [] := by
  intro op' hop' hm
  rcases List.mem_append.mp hop' with hop' | hop'
  · exact h.released op' hop' hm
  · rw [List.mem_singleton.mp hop'] at hm
    exact hop hm

theorem SingleShot.step (h : l.SingleShot) (hguard : l.CancelsLate k) (hstep : Step l k l') :
    l'.SingleShot := by
  cases hstep with
  | start _ hfresh =>
    refine ⟨fun op hop _ hresult => ?_, by simp [Life.new]⟩
    cases hop
    simp [hfresh.1] at hresult
  | register hop => exact h.setOp hop fun hm => ⟨hm, rfl⟩
  | pop =>
    refine ⟨fun op hop hm => ?_, h.released⟩
    cases hop
    cases hm
  | take hop hm hresult =>
    exact ⟨none_ne_some, h.release fun _ => h.op _ hop hm (by simp [hresult])⟩
  | check | refill => exact ⟨h.op, h.released⟩
  | finish hop hm =>
    refine ⟨none_ne_some, h.release fun hnone => ?_⟩
    simp [hnone] at hm
  | dropComplete hop hcomplete =>
    refine ⟨none_ne_some, h.release fun hm => h.op _ hop hm ?_⟩
    simpa [OpState.complete?, hm] using hcomplete
  | dropToOrphan => exact ⟨none_ne_some, h.released⟩
  | request =>
    refine ⟨fun op hop hm hresult => ?_, h.released⟩
    obtain ⟨old, hold, rfl⟩ := Option.map_eq_some_iff.mp hop
    exact h.op old hold (by simpa [OpState.setCleanup, OrphanedOp.setCleanup] using hm) hresult
  | answer | answerOrphan | answerNone => constructor <;> simp
  | cancelled hopcode hres hop hm =>
    refine ⟨h.op, h.release fun _ => hguard hopcode hres ?_⟩
    simp [hop, hm]
  | @provideFailed _ op cqe _ _ _ hop =>
    apply h.setOp hop
    cases hm : op.multishot <;> simp [OpState.provideFailed, hm]
  | @cleanup _ op cqe _ _ hop =>
    have hset : SingleShot { l with op := some (op.cleaned cqe.res) } := by
      apply h.setOp hop
      cases hm : op.multishot <;> simp [OpState.cleaned, hm]
    exact ⟨hset.op, hset.released⟩
  | @cleanupOrphan _ op cqe _ _ _ hop =>
    refine ⟨h.op, ?_⟩
    cases hcleaned : op.cleaned cqe.res with
    | none =>
      refine h.release fun hm => ?_
      simp [OrphanedOp.cleaned, hm] at hcleaned
    | some op' => simpa using h.released
  | cleanupNone => exact ⟨h.op, h.released⟩

end Life

/-- A stream that will have no more events. -/
def OrphanedOp.terminal (op : OrphanedOp) : Bool := op.multishot.any MultishotState.terminal

/-- The kernel has no buffers of the stream. -/
def OrphanedOp.restored (op : OrphanedOp) : Bool := op.multishot.any MultishotState.cleanupComplete

section Terminal
variable {op op' : OpState} {o o' : OrphanedOp} {cqe : Cqe} {res : ℤ} {c : ℕ}

theorem OrphanedOp.terminal_setCleanup : (o.setCleanup c).terminal = o.terminal := by
  cases hm : o.multishot <;> simp [OrphanedOp.terminal, OrphanedOp.setCleanup, hm]

theorem OpState.terminal_cleaned : (op.cleaned res).terminal = op.terminal := by
  cases hm : op.multishot <;> simp [OrphanedOp.terminal, OpState.cleaned, hm]

theorem OpState.more_of_terminal_answered (h : (op.answered cqe).terminal = true) :
    op.multishot.isSome = true ∧ cqe.more = false := by
  cases hm : op.multishot <;> simp_all [OrphanedOp.terminal, OpState.answered]

theorem OrphanedOp.terminal_of_cleaned (h : o.cleaned res = some o') :
    o'.terminal = o.terminal := by
  unfold OrphanedOp.cleaned at h
  split at h
  · rename_i m hm
    split_ifs at h
    cases h
    simp [OrphanedOp.terminal, hm]
  · cases h
    rfl

theorem OrphanedOp.terminal_of_removed (h : o.cleaned res = none) :
    o.terminal = true ∧ 0 ≤ res := by
  unfold OrphanedOp.cleaned at h
  split at h
  · rename_i m hm
    split_ifs at h with hremove
    simp [OrphanedOp.terminal, hm, hremove]
  · cases h

theorem OrphanedOp.terminal_of_answered (h : o.answered cqe = some o') :
    o' = o ∨ o.multishot.isSome = true ∧ cqe.more = false := by
  unfold OrphanedOp.answered at h
  split at h
  · rename_i m hm
    split_ifs at h with hmore
    · cases h
      exact .inl rfl
    · exact .inr ⟨by simp [hm], by simpa using hmore⟩
  · cases h

theorem OrphanedOp.more_of_removed (h : o.answered cqe = none) (hm : o.multishot.isSome = true) :
    cqe.more = false := by
  unfold OrphanedOp.answered at h
  split at h
  · split_ifs at h with hmore
    simpa using hmore
  · simp_all

theorem OrphanedOp.restored_setCleanup : (o.setCleanup c).restored = o.restored := by
  cases hm : o.multishot <;> simp [OrphanedOp.restored, OrphanedOp.setCleanup, hm]

theorem OpState.restored_answered : (op.answered cqe).restored = op.restored := by
  cases hm : op.multishot <;> simp [OrphanedOp.restored, OpState.answered, hm]

theorem OpState.restored_provideFailed : (op.provideFailed res).restored = op.restored := by
  cases hm : op.multishot <;> simp [OrphanedOp.restored, OpState.provideFailed, hm]

theorem OpState.restored_cleaned (h : (op.cleaned res).restored = true) :
    op.restored = true ∨ 0 ≤ res := by
  cases hm : op.multishot <;> simp_all [OrphanedOp.restored, OpState.cleaned]

theorem OpState.restored_of_cleaned (h : op.restored = true) :
    (op.cleaned res).restored = true := by
  cases hm : op.multishot <;> simp_all [OrphanedOp.restored, OpState.cleaned]

theorem OrphanedOp.restored_of_answered (h : o.answered cqe = some o') :
    o'.restored = o.restored := by
  unfold OrphanedOp.answered at h
  split at h
  · rename_i m hm
    split_ifs at h
    · cases h
      rfl
    · cases h
      simp [OrphanedOp.restored, hm]
  · cases h

theorem OrphanedOp.restored_of_removed (h : o.answered cqe = none)
    (hm : o.multishot.isSome = true) :
    o.restored = true := by
  unfold OrphanedOp.answered at h
  split at h
  · rename_i m hm
    split_ifs at h with _ hcomplete
    simpa [OrphanedOp.restored, hm] using hcomplete
  · simp_all

theorem OrphanedOp.restored_of_cleaned (h : o.cleaned res = some o')
    (hrestored : o'.restored = true) :
    0 ≤ res := by
  unfold OrphanedOp.cleaned at h
  split at h
  · rename_i m hm
    split_ifs at h
    cases h
    simpa [OrphanedOp.restored] using hrestored
  · cases h
    simp_all [OrphanedOp.restored]

end Terminal

namespace Life
variable {l l' : Life} {k : Kind}

/-- What a flag of a stream stands for: where it is set, and when a stream of this kind is
released, the fact is there. -/
structure Backed (stream flag : OrphanedOp → Bool) (fact : Life → Bool) (l : Life) : Prop where
  op : ∀ op, l.op = some op → stream op.toOrphanedOp = true → flag op.toOrphanedOp = true →
    fact l = true
  orphan : ∀ op, l.orphan = some op → stream op = true → flag op = true → fact l = true
  ended : l.ended = true → ∀ op, l.op = some op → stream op.toOrphanedOp = true →
    flag op.toOrphanedOp = true
  released : ∀ op ∈ l.released, stream op = true → fact l = true

section Backed
variable {stream flag : OrphanedOp → Bool} {fact : Life → Bool}

theorem Backed.new : Backed stream flag fact .new := by
  constructor <;> simp [Life.new]

theorem Backed.start {op : OpState} {sqe : Sqe} {provides : List Sqe}
    (hop : stream op.toOrphanedOp = true → flag op.toOrphanedOp = false) :
    Backed stream flag fact { Life.new with
      op := some op
      started := some sqe
      provides := provides } := by
  refine ⟨fun op' hop' hstream hflag => ?_, none_ne_some, by simp [Life.new], by simp [Life.new]⟩
  cases hop'
  rw [hop hstream] at hflag
  cases hflag

theorem Backed.release (h : Backed stream flag fact l) {op : OrphanedOp}
    (hop : stream op = true → fact l = true) :
    ∀ op' ∈ l.released ++ [op], stream op' = true → fact l = true := by
  intro op' hop' hstream
  rcases List.mem_append.mp hop' with hop' | hop'
  · exact h.released op' hop' hstream
  · rw [List.mem_singleton.mp hop'] at hstream
    exact hop hstream

theorem Backed.setOp (h : Backed stream flag fact l) {old op : OpState} (hop : l.op = some old)
    (hstream : stream op.toOrphanedOp = stream old.toOrphanedOp)
    (hflag : flag op.toOrphanedOp = flag old.toOrphanedOp)
    (hfact : fact l = true → fact { l with op := some op } = true) :
    Backed stream flag fact { l with op := some op } := by
  refine ⟨fun op' hop' hstream' hflag' => ?_, fun op' hop' hstream' hflag' => ?_,
    fun hended op' hop' hstream' => ?_,
    fun op' hop' hstream' => hfact (h.released op' hop' hstream')⟩
  · cases hop'
    exact hfact (h.op old hop (hstream ▸ hstream') (hflag ▸ hflag'))
  · exact hfact (h.orphan op' hop' hstream' hflag')
  · cases hop'
    exact hflag.trans (h.ended hended old hop (hstream ▸ hstream'))

/-- The operations stay as they are. -/
theorem Backed.grow (h : Backed stream flag fact l) (hfact : fact l = true → fact l' = true)
    (hop : l'.op = l.op) (horphan : l'.orphan = l.orphan) (hended : l'.ended = l.ended)
    (hreleased : l'.released = l.released) : Backed stream flag fact l' := by
  refine ⟨?_, ?_, ?_, ?_⟩
  · intro op hop' hstream hflag
    exact hfact (h.op op (hop ▸ hop') hstream hflag)
  · intro op hop' hstream hflag
    exact hfact (h.orphan op (horphan ▸ hop') hstream hflag)
  · rw [hop, hended]
    exact h.ended
  · intro op hop' hstream
    exact hfact (h.released op (hreleased ▸ hop') hstream)

end Backed

/-- A stream of this kind is terminal, and leaves the tables, only after its last completion. -/
def Streams (kind : OrphanedOp → Bool) : Life → Prop := Backed kind OrphanedOp.terminal finished

theorem Streams.step {kind : OrphanedOp → Bool} (h : l.Streams kind) (hsound : l.Sound)
    (hshape : ∀ {a b : OrphanedOp}, a.shape = b.shape → kind a = kind b)
    (hsome : ∀ {op : OrphanedOp}, kind op = true → op.multishot.isSome = true)
    (hrefused : ∀ cqe op, k = .reap cqe → cqe.sqe.opcode = .provideBuffers →
      cqe.sqe ∈ l.provides → cqe.res < 0 → l.op = some op → kind op.toOrphanedOp = true →
      l.finished = true)
    (hstep : Step l k l') : l'.Streams kind := by
  cases hstep with
  | @start op _ _ _ hfresh =>
    have hterminal : op.terminal = false := by
      cases hm : op.multishot with
      | none => simp [OrphanedOp.terminal, hm]
      | some m => simp [OrphanedOp.terminal, hm, (hfresh.2 m hm).2.1]
    exact .start fun _ => hterminal
  | register hop => exact h.setOp hop rfl rfl id
  | @pop _ op m event events hop hm =>
    have hset : Streams kind { l with
        op := some { op with multishot := some { m with events := events } } } := by
      apply h.setOp hop _ _ id
      · apply hshape
        simp [OrphanedOp.shape, hm]
      · simp [OrphanedOp.terminal, hm]
    exact hset.grow id rfl rfl rfl rfl
  | take _ hm =>
    refine ⟨none_ne_some, h.orphan, fun _ => none_ne_some, h.release fun hkind => ?_⟩
    have := hsome hkind
    simp [hm] at this
  | @check _ op m hop hm hfinished =>
    refine ⟨h.op, h.orphan, fun _ op' hop' _ => ?_, h.released⟩
    obtain rfl : op = op' := Option.some.inj (hop.symm.trans hop')
    simp only [MultishotState.finished, Bool.and_eq_true] at hfinished
    simp [OrphanedOp.terminal, hm, hfinished]
  | finish hop _ hended =>
    exact ⟨none_ne_some, h.orphan, fun _ => none_ne_some,
      h.release fun hkind => h.op _ hop hkind (h.ended hended _ hop hkind)⟩
  | dropComplete hop hcomplete =>
    refine ⟨none_ne_some, h.orphan, fun _ => none_ne_some, h.release fun hkind =>
      h.op _ hop hkind ?_⟩
    simpa [OpState.complete?, OrphanedOp.terminal, hsound.result _ hop (hsome hkind)] using hcomplete
  | dropToOrphan hop =>
    refine ⟨none_ne_some, fun op' hop' => ?_, fun _ => none_ne_some, h.released⟩
    cases hop'
    exact h.op _ hop
  | refill => exact h.grow id rfl rfl rfl rfl
  | request =>
    have hkind : ∀ {o : OrphanedOp} {c : ℕ}, kind (o.setCleanup c) = kind o :=
      hshape (OrphanedOp.setCleanup_shape _ _)
    refine ⟨fun op hop => ?_, fun op hop => ?_, fun hended op hop => ?_, h.released⟩
    all_goals
      obtain ⟨old, hold, rfl⟩ := Option.map_eq_some_iff.mp hop
      intro hkind'
    · intro hterminal
      exact h.op old hold (hkind ▸ hkind') (OrphanedOp.terminal_setCleanup ▸ hterminal)
    · intro hterminal
      exact h.orphan old hold (hkind ▸ hkind') (OrphanedOp.terminal_setCleanup ▸ hterminal)
    · exact OrphanedOp.terminal_setCleanup.trans (h.ended hended old hold (hkind ▸ hkind'))
  | @answer _ op cqe hop _ hfirst =>
    refine ⟨fun op' hop' _ hterminal => ?_, fun op' hop' hkind hterminal => ?_,
      fun hended op' hop' hkind => ?_, fun op' hop' hkind => ?_⟩
    · cases hop'
      exact finished_of_last rfl (OpState.more_of_terminal_answered hterminal).2
    · exact finished_of_append rfl (h.orphan op' hop' hkind hterminal)
    · cases hop'
      rw [hshape (op.answered_shape cqe)] at hkind
      have := h.op op hop hkind (h.ended hended op hop hkind)
      simp [finished_eq_false hfirst] at this
    · exact finished_of_append rfl (h.released op' hop' hkind)
  | @answerOrphan _ op cqe _ horphan =>
    refine ⟨fun op' hop' hkind hterminal => ?_, fun op' hop' hkind hterminal => ?_, h.ended,
      fun op' hop' hkind => ?_⟩
    · exact finished_of_append rfl (h.op op' hop' hkind hterminal)
    · rcases OrphanedOp.terminal_of_answered hop' with rfl | ⟨-, hmore⟩
      · exact finished_of_append rfl (h.orphan op' horphan hkind hterminal)
      · exact finished_of_last rfl hmore
    · rcases List.mem_append.mp hop' with hop' | hop'
      · exact finished_of_append rfl (h.released op' hop' hkind)
      · split_ifs at hop' with hnone
        · rw [List.mem_singleton.mp hop'] at hkind
          apply finished_of_last rfl
          exact OrphanedOp.more_of_removed (by simpa using hnone) (hsome hkind)
        · cases hop'
  | answerNone => exact h.grow (finished_of_append rfl) rfl rfl rfl rfl
  | cancelled _ _ _ hm =>
    refine ⟨h.op, none_ne_some, h.ended, h.release fun hkind => ?_⟩
    have := hsome hkind
    simp [hm] at this
  | @provideFailed _ op cqe hopcode hmem hres hop =>
    have hkind := hshape (op.provideFailed_shape cqe.res)
    refine ⟨fun op' hop' hkind' _ => ?_, h.orphan, fun hended op' hop' hkind' => ?_, h.released⟩
    · cases hop'
      exact hrefused cqe op rfl hopcode hmem hres hop (hkind ▸ hkind')
    · cases hop'
      have := hsome hkind'
      cases hm : op.multishot <;> simp_all [OrphanedOp.terminal, OpState.provideFailed]
  | @cleanup _ op cqe _ _ hop =>
    have hset : Streams kind { l with op := some (op.cleaned cqe.res) } :=
      h.setOp hop (hshape (op.cleaned_shape cqe.res)) OpState.terminal_cleaned id
    exact hset.grow id rfl rfl rfl rfl
  | @cleanupOrphan _ op cqe _ _ _ horphan =>
    refine ⟨h.op, fun op' hop' hkind hterminal => ?_, h.ended, fun op' hop' hkind => ?_⟩
    · exact h.orphan op horphan (hshape (OrphanedOp.cleaned_shape hop') ▸ hkind)
        (OrphanedOp.terminal_of_cleaned hop' ▸ hterminal)
    · rcases List.mem_append.mp hop' with hop' | hop'
      · exact h.released op' hop' hkind
      · split_ifs at hop' with hnone
        · rw [List.mem_singleton.mp hop'] at hkind
          exact h.orphan op horphan hkind (OrphanedOp.terminal_of_removed (by simpa using hnone)).1
        · cases hop'
  | cleanupNone => exact h.grow id rfl rfl rfl rfl

theorem Streams.step_all (h : l.Streams (·.multishot.isSome)) (hsound : l.Sound)
    (hguard : l.RefusesLate k) (hstep : Step l k l') : l'.Streams (·.multishot.isSome) := by
  refine Streams.step h hsound isSome_of_shape id ?_ hstep
  rintro cqe op rfl hopcode - hres hop -
  exact hguard hopcode hres (by simp [hop])

/-- A pool is marked as returned, and is freed, only after the kernel has given it back. -/
def Pools : Life → Prop := Backed OrphanedOp.receives OrphanedOp.restored cleaned

theorem isSome_of_receives {op : OrphanedOp} (h : op.receives = true) :
    op.multishot.isSome = true := by
  cases hm : op.multishot <;> simp_all [OrphanedOp.receives]

theorem not_restored_of_fresh {op : OpState} (hop : op.Fresh)
    (hreceives : op.toOrphanedOp.receives = true) : op.toOrphanedOp.restored = false := by
  obtain ⟨m, hm, hkind⟩ := (Option.any_eq_true ..).mp hreceives
  have hcomplete := (hop.2 m hm).2.2.2
  have hne : m.eventKind ≠ .accept := by simpa using hkind
  have hfalse : m.cleanupComplete = false := by simpa [hne] using hcomplete
  simp [OrphanedOp.restored, hm, hfalse]

theorem Pools.step (h : l.Pools) (hsound : l.Sound) (hguard : l.DropsClean k)
    (hstep : Step l k l') : l'.Pools := by
  cases hstep with
  | start _ hfresh => exact .start (not_restored_of_fresh hfresh)
  | register hop => exact h.setOp hop rfl rfl id
  | @pop _ op m event events hop hm =>
    have hset : Pools { l with
        op := some { op with multishot := some { m with events := events } } } := by
      apply h.setOp hop _ _ id
      · simp [OrphanedOp.receives, hm]
      · simp [OrphanedOp.restored, hm]
    exact hset.grow id rfl rfl rfl rfl
  | take _ hm =>
    refine ⟨none_ne_some, h.orphan, fun _ => none_ne_some, h.release fun hreceives => ?_⟩
    simp [OrphanedOp.receives, hm] at hreceives
  | @check _ op m hop hm hfinished =>
    refine ⟨h.op, h.orphan, fun _ op' hop' _ => ?_, h.released⟩
    obtain rfl : op = op' := Option.some.inj (hop.symm.trans hop')
    simp only [MultishotState.finished, Bool.and_eq_true] at hfinished
    simp [OrphanedOp.restored, hm, hfinished]
  | finish hop _ hended =>
    exact ⟨none_ne_some, h.orphan, fun _ => none_ne_some,
      h.release fun hreceives => h.op _ hop hreceives (h.ended hended _ hop hreceives)⟩
  | @dropComplete _ op _ hop hcomplete =>
    refine ⟨none_ne_some, h.orphan, fun _ => none_ne_some, h.release fun hreceives =>
      h.op _ hop hreceives ?_⟩
    have hnone := hsound.result _ hop (isSome_of_receives hreceives)
    obtain ⟨m, hm, hterminal⟩ : ∃ m, op.multishot = some m ∧ m.terminal = true := by
      simpa [OpState.complete?, hnone, Option.any_eq_true] using hcomplete
    simpa [DropsClean, hop, hreceives, hm, hterminal, OrphanedOp.restored] using hguard
  | dropToOrphan hop =>
    refine ⟨none_ne_some, fun op' hop' => ?_, fun _ => none_ne_some, h.released⟩
    cases hop'
    exact h.op _ hop
  | refill => exact h.grow id rfl rfl rfl rfl
  | request =>
    have hreceives : ∀ {o : OrphanedOp} {c : ℕ}, (o.setCleanup c).receives = o.receives :=
      OrphanedOp.receives_of_shape (OrphanedOp.setCleanup_shape _ _)
    refine ⟨fun op hop => ?_, fun op hop => ?_, fun hended op hop => ?_, h.released⟩
    all_goals
      obtain ⟨old, hold, rfl⟩ := Option.map_eq_some_iff.mp hop
      intro hreceives'
    · intro hrestored
      exact h.op old hold (hreceives ▸ hreceives') (OrphanedOp.restored_setCleanup ▸ hrestored)
    · intro hrestored
      exact h.orphan old hold (hreceives ▸ hreceives') (OrphanedOp.restored_setCleanup ▸ hrestored)
    · apply OrphanedOp.restored_setCleanup.trans
      exact h.ended hended old hold (hreceives ▸ hreceives')
  | @answer _ op cqe hop =>
    have hset : Pools { l with op := some (op.answered cqe) } :=
      h.setOp hop (OrphanedOp.receives_of_shape (op.answered_shape cqe)) OpState.restored_answered id
    exact hset.grow id rfl rfl rfl rfl
  | @answerOrphan _ op cqe _ horphan =>
    refine ⟨h.op, fun op' hop' hreceives hrestored => ?_, h.ended, fun op' hop' hreceives => ?_⟩
    · exact h.orphan op horphan
        (OrphanedOp.receives_of_shape (OrphanedOp.answered_shape hop') ▸ hreceives)
        (OrphanedOp.restored_of_answered hop' ▸ hrestored)
    · rcases List.mem_append.mp hop' with hop' | hop'
      · exact h.released op' hop' hreceives
      · split_ifs at hop' with hnone
        · rw [List.mem_singleton.mp hop'] at hreceives
          exact h.orphan op horphan hreceives
            (OrphanedOp.restored_of_removed (by simpa using hnone) (isSome_of_receives hreceives))
        · cases hop'
  | answerNone => exact h.grow id rfl rfl rfl rfl
  | cancelled _ _ _ hm =>
    refine ⟨h.op, none_ne_some, h.ended, h.release fun hreceives => ?_⟩
    simp [OrphanedOp.receives, hm] at hreceives
  | @provideFailed _ op cqe _ _ _ hop =>
    exact h.setOp hop (OrphanedOp.receives_of_shape (op.provideFailed_shape cqe.res))
      OpState.restored_provideFailed id
  | @cleanup _ op cqe _ _ hop =>
    have hreceives := OrphanedOp.receives_of_shape (op.cleaned_shape cqe.res)
    refine ⟨fun op' hop' hreceives' hrestored => ?_, fun op' hop' hreceives' hrestored => ?_,
      fun hended op' hop' hreceives' => ?_, fun op' hop' hreceives' => ?_⟩
    · cases hop'
      rcases OpState.restored_cleaned hrestored with hold | hres
      · exact cleaned_of_append rfl (h.op op hop (hreceives ▸ hreceives') hold)
      · exact cleaned_of_success rfl hres
    · exact cleaned_of_append rfl (h.orphan op' hop' hreceives' hrestored)
    · cases hop'
      exact OpState.restored_of_cleaned (h.ended hended op hop (hreceives ▸ hreceives'))
    · exact cleaned_of_append rfl (h.released op' hop' hreceives')
  | @cleanupOrphan _ op cqe _ _ _ horphan =>
    refine ⟨fun op' hop' hreceives hrestored => ?_, fun op' hop' _ hrestored => ?_, h.ended,
      fun op' hop' hreceives => ?_⟩
    · exact cleaned_of_append rfl (h.op op' hop' hreceives hrestored)
    · exact cleaned_of_success rfl (OrphanedOp.restored_of_cleaned hop' hrestored)
    · rcases List.mem_append.mp hop' with hop' | hop'
      · exact cleaned_of_append rfl (h.released op' hop' hreceives)
      · split_ifs at hop' with hnone
        · exact cleaned_of_success rfl (OrphanedOp.terminal_of_removed (by simpa using hnone)).2
        · cases hop'
  | cleanupNone => exact h.grow (cleaned_of_append rfl) rfl rfl rfl rfl

/-- An operation that was started and has no entry was released. -/
def Accounted (l : Life) : Prop := l.started ≠ none → l.held = none → l.released ≠ []

theorem Accounted.step (h : l.Accounted) (hstep : Step l k l') :
    l'.Accounted := by
  intro hstarted hheld
  cases hstep with
  | take | finish | dropComplete | cancelled => simp
  | start | register | pop | answer | provideFailed | cleanup | dropToOrphan =>
    simp [Life.held] at hheld
  | check hop | refill hop => simp [Life.held, hop] at hheld
  | request hop =>
    refine h hstarted ?_
    cases hl : l.op <;> cases ho : l.orphan <;> simp_all [Life.held]
  | @answerOrphan _ op cqe hop horphan =>
    cases hanswered : op.answered cqe <;> simp_all [Life.held]
  | @cleanupOrphan _ op cqe _ _ hop horphan =>
    cases hcleaned : op.cleaned cqe.res <;> simp_all [Life.held]
  | answerNone | cleanupNone => exact h hstarted hheld

end Life

/-- The resource of an operation with one completion is dropped or returned only after that
completion was reaped. -/
def Ring.KeepsResources (r : Ring) : Prop :=
  ∀ op ∈ r.released, op.multishot = none → ∃ cqe ∈ r.io.reaped, cqe.sqe.Starts op

/-- The pool of a receiving stream is freed only after the last completion of the stream and
after a completion by which the kernel has given its buffer group back. -/
def Ring.KeepsPools (r : Ring) : Prop :=
  ∀ op ∈ r.released, ∀ m bufferSize group, op.multishot = some m →
    m.eventKind = .recv bufferSize group →
    (∃ cqe ∈ r.io.reaped, cqe.sqe.Starts op ∧ cqe.last = true) ∧
    ∃ cqe ∈ r.io.reaped, cqe.sqe.opcode = .removeBuffers ∧ cqe.sqe.owner = op.userData ∧
      cqe.sqe.bufIndex = group ∧ 0 ≤ cqe.res

namespace System
variable {sqEntries futures : ℕ} {sqpoll : Bool} {s : System}

theorem exists_answer {v : Table} {op : OrphanedOp} (hop : op ∈ v.released)
    (hsound : (v.life op.userData).Sound) {p : Cqe → Prop}
    (hanswer : ∃ cqe ∈ (v.life op.userData).answers, p cqe) :
    ∃ cqe ∈ v.io.reaped, cqe.sqe.Starts op ∧ p cqe := by
  obtain ⟨cqe, hcqe, hp⟩ := hanswer
  have hmem : op ∈ (v.life op.userData).released := List.mem_filter.mpr ⟨hop, by simp⟩
  obtain ⟨sqe, hstarted, hstarts⟩ := hsound.released op hmem
  have heq := hstarted.symm.trans (hsound.answers cqe hcqe)
  rw [Option.some.inj heq] at hstarts
  exact ⟨cqe, List.mem_of_mem_filter hcqe, hstarts, hp⟩

theorem resources_kept_until_completion
    (h : Reachable System.step (allows (guards Life.CancelsLate)) (.new sqEntries sqpoll futures) s)
    (hb : s.ring.allocated < 2 ^ 64) : s.ring.KeepsResources := by
  obtain ⟨-, hlives⟩ := lives_of_reachable (fun _ => trivial) .new
    (fun l k l' _ hI hguard hstep => Life.SingleShot.step hI hguard hstep) h hb
  intro op hop hm
  obtain ⟨hsound, hsingle⟩ := hlives op.userData
  have hmem : op ∈ (s.ring.table.life op.userData).released := List.mem_filter.mpr ⟨hop, by simp⟩
  obtain ⟨cqe, hcqe⟩ := List.exists_mem_of_ne_nil _ (hsingle.released op hmem hm)
  obtain ⟨cqe, hreaped, hstarts, -⟩ := exists_answer hop hsound (p := fun _ => True)
    ⟨cqe, hcqe, trivial⟩
  exact ⟨cqe, hreaped, hstarts⟩

/-- A read that is dropped, and whose completion is reaped before that of its cancellation. -/
theorem cancelled_read_kept :
    ∃ s, Reachable System.step (allows (guards Life.CancelsLate)) (.new 8 false 1) s ∧
      s.ring.released.length = 1 ∧ s.ring.KeepsResources := by
  have hrun : (run (guarded System.step (allows (guards Life.CancelsLate))) (.new 8 false 1)
      [.client 0 (.start 0 (.op (.read 3 16 0)) 7), .client 0 (.submit (some 1)),
        .client 0 (.drop 0), .client 0 .cancel, .client 0 (.submit (some 1)), .post 0 (-125) 0,
        .post 0 0 0, .reapBegin, .reapCqe, .reapCqe, .reapEnd]).any (fun s =>
          decide (s.ring.allocated < 2 ^ 64) && s.ring.released.length == 1) = true := by
    decide +kernel
  obtain ⟨s, hreach, hs⟩ := exists_reachable_of_run hrun
  simp only [Bool.and_eq_true, decide_eq_true_eq, beq_iff_eq] at hs
  exact ⟨s, hreach, hs.2, resources_kept_until_completion hreach hs.1⟩

/-- The cancellation of a dropped read is reported before the read: its buffer is freed while the
kernel may still write to it. -/
theorem cancelled_read_freed :
    ¬ ∀ s, Reachable System.step anyStep (.new 8 false 1) s → s.ring.allocated < 2 ^ 64 →
      s.ring.KeepsResources := by
  intro h
  have hrun : (run (guarded System.step anyStep) (.new 8 false 1)
      [.client 0 (.start 0 (.op (.read 3 16 0)) 7), .client 0 (.submit (some 1)),
        .client 0 (.drop 0), .client 0 .cancel, .client 0 (.submit (some 1)), .post 1 0 0,
        .reapBegin, .reapCqe]).any (fun s =>
          decide (s.ring.allocated < 2 ^ 64) && s.ring.released.any fun op =>
            op.multishot.isNone && s.ring.io.reaped.all fun cqe =>
              cqe.userData != op.userData) = true := by
    decide +kernel
  obtain ⟨s, hreach, hs⟩ := exists_reachable_of_run hrun
  simp only [Bool.and_eq_true, decide_eq_true_eq, List.any_eq_true, List.all_eq_true,
    Option.isNone_iff_eq_none, bne_iff_ne] at hs
  obtain ⟨hb, op, hop, hm, hnone⟩ := hs
  obtain ⟨cqe, hcqe, hstarts⟩ := h s hreach hb op hop hm
  exact hnone cqe hcqe hstarts.1

theorem exists_cleanup {v : Table} {op : OrphanedOp} {m : MultishotState} {bufferSize group : ℕ}
    (hop : op ∈ v.released) (hsound : (v.life op.userData).Sound) (hm : op.multishot = some m)
    (hkind : m.eventKind = .recv bufferSize group)
    (hcleaned : (v.life op.userData).cleaned = true) :
    ∃ cqe ∈ v.io.reaped, cqe.sqe.opcode = .removeBuffers ∧ cqe.sqe.owner = op.userData ∧
      cqe.sqe.bufIndex = group ∧ 0 ≤ cqe.res := by
  obtain ⟨cqe, hcqe, hres⟩ := List.any_eq_true.mp hcleaned
  have hmem : op ∈ (v.life op.userData).released := List.mem_filter.mpr ⟨hop, by simp⟩
  obtain ⟨sqe, hstarted, -, -, -, hstarts⟩ := hsound.released op hmem
  obtain ⟨sqe', hstarted', -, -, hgroup⟩ := hsound.requests _ (hsound.cleanups cqe hcqe)
  obtain rfl : sqe = sqe' := Option.some.inj (hstarted.symm.trans hstarted')
  simp only [hm, hkind] at hstarts
  obtain ⟨hreaped, hcleans⟩ := List.mem_filter.mp hcqe
  simp only [Sqe.cleansUp, Bool.and_eq_true, beq_iff_eq] at hcleans
  exact ⟨cqe, hreaped, hcleans.1, hcleans.2, hgroup.symm.trans hstarts.2.2.1, by simpa using hres⟩

theorem pools_kept_until_returned
    (h : Reachable System.step (allows (guards fun l k => l.RefusesLate k ∧ l.DropsClean k))
      (.new sqEntries sqpoll futures) s)
    (hb : s.ring.allocated < 2 ^ 64) : s.ring.KeepsPools := by
  obtain ⟨-, hlives⟩ := lives_of_reachable (I := fun l => l.Streams (·.multishot.isSome) ∧ l.Pools)
    (fun _ => ⟨trivial, trivial⟩) ⟨.new, .new⟩ (fun l k l' hsound hI hguard hstep =>
      ⟨hI.1.step_all hsound hguard.1 hstep, hI.2.step hsound hguard.2 hstep⟩) h hb
  intro op hop m bufferSize group hm hkind
  obtain ⟨hsound, hstreams, hpools⟩ := hlives op.userData
  have hmem : op ∈ (s.ring.table.life op.userData).released := List.mem_filter.mpr ⟨hop, by simp⟩
  have hreceives : op.receives = true := by simp [OrphanedOp.receives, hm, hkind]
  constructor
  · apply exists_answer hop hsound
    exact List.any_eq_true.mp (hstreams.released op hmem (by simp [hm]))
  · exact exists_cleanup hop hsound hm hkind (hpools.released op hmem hreceives)

/-- A receiving stream that fails and is dropped after its buffers came back. -/
theorem dropped_stream_kept :
    ∃ s, Reachable System.step (allows (guards fun l k => l.RefusesLate k ∧ l.DropsClean k))
        (.new 8 false 1) s ∧
      s.ring.released.any OrphanedOp.receives = true ∧ s.ring.KeepsPools := by
  have hrun : (run (guarded System.step
      (allows (guards fun l k => l.RefusesLate k ∧ l.DropsClean k))) (.new 8 false 1)
      [.client 0 (.start 0 (.recvMultishot 5 16 2) 7), .client 0 (.submit (some 2)), .post 0 0 0,
        .post 0 (-104) 0, .reapBegin, .reapCqe, .reapCqe, .reapEnd, .reaperSubmit 0 (some 1),
        .post 0 2 0, .reapBegin, .reapCqe, .reapEnd, .client 0 (.drop 0)]).any (fun s =>
          decide (s.ring.allocated < 2 ^ 64) && s.ring.released.any OrphanedOp.receives) =
      true := by
    decide +kernel
  obtain ⟨s, hreach, hs⟩ := exists_reachable_of_run hrun
  simp only [Bool.and_eq_true, decide_eq_true_eq] at hs
  exact ⟨s, hreach, hs.2, pools_kept_until_returned hreach hs.1⟩

/-- A receiving stream fails and is dropped while the kernel still has its buffers: `orphan` asks
only whether the stream is terminal. -/
theorem dropped_stream_freed :
    ¬ ∀ s, Reachable System.step anyStep (.new 8 false 1) s → s.ring.allocated < 2 ^ 64 →
      s.ring.KeepsPools := by
  intro h
  have hrun : (run (guarded System.step anyStep) (.new 8 false 1)
      [.client 0 (.start 0 (.recvMultishot 5 16 2) 7), .client 0 (.submit (some 2)), .post 0 0 0,
        .post 0 (-104) 0, .reapBegin, .reapCqe, .reapCqe, .reapEnd, .client 0 (.drop 0)]).any
        (fun s => decide (s.ring.allocated < 2 ^ 64) && s.ring.released.any (fun op =>
          op.multishot.any fun m => m.eventKind == .recv 16 1) &&
            s.ring.io.reaped.all fun cqe => cqe.sqe.opcode != .removeBuffers) = true := by
    decide +kernel
  obtain ⟨s, hreach, hs⟩ := exists_reachable_of_run hrun
  simp only [Bool.and_eq_true, decide_eq_true_eq, List.any_eq_true, List.all_eq_true,
    Option.any_eq_true, bne_iff_ne, beq_iff_eq] at hs
  obtain ⟨⟨hb, op, hop, m, hm, hkind⟩, hnone⟩ := hs
  obtain ⟨-, cqe, hcqe, hopcode, -⟩ := h s hreach hb op hop m 16 1 hm hkind
  exact hnone cqe hcqe hopcode

structure RoutesCompletions (s : System) : Prop where
  ops : Slab.Indexes (fun op => op.userData) s.ring.ops s.ring.opsByUserData
  orphaned : Slab.Indexes OrphanedOp.userData s.ring.orphaned s.ring.orphanedByUserData
  disjoint : List.Pairwise (fun a b : ℕ → Option ℕ => ∀ u, a u = none ∨ b u = none)
    [s.ring.opsByUserData, s.ring.orphanedByUserData, s.ring.cancelTargets, s.ring.provideTargets]
  /-- An operation whose last completion was not reaped has exactly one entry. -/
  inFlight : ∀ sqe ∈ s.ring.io.queued, sqe.opcode.control = false →
    (∀ cqe ∈ s.ring.io.reaped, cqe.sqe = sqe → cqe.last = false) →
    Xor ((s.ring.opsByUserData sqe.userData).isSome = true)
      ((s.ring.orphanedByUserData sqe.userData).isSome = true)
  /-- The key of a future is the slot of the operation that it started. -/
  futures : ∀ i f, s.future i = some f →
    ∃ op, s.ring.ops.get f.key = some op ∧ op.userData = f.userData
  apart : ∀ i j f g, s.future i = some f → s.future j = some g → f.key = g.key → i = j

/-- The operation `u` was queued with an opcode of this kind. -/
def Queued (v : Table) (kind : Opcode → Bool) (u : ℕ) : Prop :=
  ∃ sqe ∈ v.io.queued, sqe.userData = u ∧ kind sqe.opcode = true

/-- A `user_data` has one submission, which decides in which table it may be. -/
theorem eq_none_or_eq_none {v : Table} (h : v.Valid) {a b : ℕ → Option ℕ}
    {kind kind' : Opcode → Bool}
    (ha : ∀ u, a u ≠ none → Queued v kind u) (hb : ∀ u, b u ≠ none → Queued v kind' u)
    (hkind : ∀ opcode, (kind opcode && kind' opcode) = false) (u : ℕ) : a u = none ∨ b u = none := by
  by_contra hsome
  rw [not_or] at hsome
  obtain ⟨sqe, hsqe, huser, hopcode⟩ := ha u hsome.1
  obtain ⟨sqe', hsqe', huser', hopcode'⟩ := hb u hsome.2
  obtain rfl := h.io.tag_injective hsqe hsqe' (huser.trans huser'.symm)
  simpa [hopcode, hopcode'] using hkind sqe.opcode

theorem disjoint_of_routed {r : Ring} (h : r.Routed) :
    List.Pairwise (fun a b : ℕ → Option ℕ => ∀ u, a u = none ∨ b u = none)
      [r.opsByUserData, r.orphanedByUserData, r.cancelTargets, r.provideTargets] := by
  have hop : ∀ u, r.opsByUserData u ≠ none → Queued r.table (!·.control) u := by
    intro u hu
    obtain ⟨key, hkey⟩ := Option.ne_none_iff_exists'.mp hu
    obtain ⟨op, -, -, hop⟩ := h.get_of_index hkey
    obtain ⟨huser, sqe, hsqe, hstarts⟩ := h.valid.op u op hop
    exact ⟨sqe, hsqe, hstarts.1.trans huser, by simp [hstarts.2.2.1]⟩
  have horphan : ∀ u, r.orphanedByUserData u ≠ none → Queued r.table (!·.control) u := by
    intro u hu
    obtain ⟨key, hkey⟩ := Option.ne_none_iff_exists'.mp hu
    obtain ⟨op, -, -, hop⟩ := h.orphaned.get_of_index hkey
    obtain ⟨huser, sqe, hsqe, hstarts⟩ := h.valid.orphan u op hop
    exact ⟨sqe, hsqe, hstarts.1.trans huser, by simp [hstarts.2.2.1]⟩
  have hcancel : ∀ u, r.cancelTargets u ≠ none → Queued r.table (· == .asyncCancel) u := by
    intro u hu
    obtain ⟨t, ht⟩ := Option.ne_none_iff_exists'.mp hu
    obtain ⟨-, ⟨sqe, hsqe, huser, hopcode, -⟩, -⟩ := h.valid.cancel u t ht
    exact ⟨sqe, hsqe, huser, by simp [hopcode]⟩
  have hprovide : ∀ u, r.provideTargets u ≠ none → Queued r.table Opcode.buffers u := by
    intro u hu
    obtain ⟨t, ht⟩ := Option.ne_none_iff_exists'.mp hu
    obtain ⟨sqe, hsqe, huser, -, hopcode, -⟩ := (h.valid.provide u t).mp ht
    exact ⟨sqe, hsqe, huser, hopcode⟩
  have hapart : ∀ u, r.opsByUserData u = none ∨ r.orphanedByUserData u = none := by
    intro u
    apply (h.valid.apart u).imp
    · exact h.ops.lookup_eq_none.mp
    · exact h.orphaned.lookup_eq_none.mp
  have hcontrol : ∀ opcode : Opcode, (!opcode.control && opcode == .asyncCancel) = false := by
    intro opcode
    cases opcode <;> rfl
  have hbuffers : ∀ opcode : Opcode, (!opcode.control && opcode.buffers) = false := by
    intro opcode
    cases opcode <;> rfl
  have hboth : ∀ opcode : Opcode, (opcode == .asyncCancel && opcode.buffers) = false := by
    intro opcode
    cases opcode <;> rfl
  simp only [List.pairwise_cons, List.mem_cons, List.not_mem_nil, or_false, forall_eq_or_imp,
    forall_eq, IsEmpty.forall_iff, implies_true, List.Pairwise.nil, and_true]
  refine ⟨⟨hapart, ?_, ?_⟩, ⟨?_, ?_⟩, ?_⟩
  · exact eq_none_or_eq_none h.valid hop hcancel hcontrol
  · exact eq_none_or_eq_none h.valid hop hprovide hbuffers
  · exact eq_none_or_eq_none h.valid horphan hcancel hcontrol
  · exact eq_none_or_eq_none h.valid horphan hprovide hbuffers
  · exact eq_none_or_eq_none h.valid hcancel hprovide hboth

/-- An operation that has left the tables has had its last completion. -/
theorem finished_of_released {v : Table} {u : ℕ} (hsound : (v.life u).Sound)
    (hsingle : (v.life u).SingleShot) (hstreams : (v.life u).Streams (·.multishot.isSome))
    {op : OrphanedOp}
    (hop : op ∈ (v.life u).released) : (v.life u).finished = true := by
  cases hm : op.multishot with
  | some m => exact hstreams.released op hop (by simp [hm])
  | none =>
    obtain ⟨cqe, hcqe⟩ := List.exists_mem_of_ne_nil _ (hsingle.released op hop hm)
    obtain ⟨sqe, hstarted, -, -, -, hstarts⟩ := hsound.released op hop
    have heq := Option.some.inj (hstarted.symm.trans (hsound.answers cqe hcqe))
    simp only [hm] at hstarts
    rw [heq] at hstarts
    refine List.any_eq_true.mpr ⟨cqe, hcqe, ?_⟩
    simp [Cqe.last, hstarts.1]

theorem completions_routed
    (h : Reachable System.step (allows (guards fun l k => l.CancelsLate k ∧ l.RefusesLate k))
      (.new sqEntries sqpoll futures) s)
    (hb : s.ring.allocated < 2 ^ 64) : s.RoutesCompletions := by
  obtain ⟨hrouted, hlives⟩ := lives_of_reachable
    (I := fun l => l.SingleShot ∧ l.Streams (·.multishot.isSome) ∧ l.Accounted)
    (fun _ => ⟨trivial, trivial⟩)
    ⟨.new, .new, fun hstarted => absurd rfl hstarted⟩ (fun l k l' hsound hI hguard hstep =>
      ⟨hI.1.step hguard.1 hstep, hI.2.1.step_all hsound hguard.2 hstep, hI.2.2.step hstep⟩) h hb
  refine ⟨hrouted.ring.ops, hrouted.ring.orphaned, disjoint_of_routed hrouted.ring, ?_, ?_, ?_⟩
  · intro sqe hsqe hcontrol hnotLast
    obtain ⟨hsound, hsingle, hstreams, haccounted⟩ := hlives sqe.userData
    have hstarted := hrouted.ring.valid.started_eq (u := sqe.userData) hsqe
      (by simp [Sqe.startsAs, hcontrol])
    have hunfinished : (s.ring.table.life sqe.userData).finished = false := by
      apply Life.finished_eq_false
      intro cqe hcqe
      have heq := Option.some.inj ((hsound.answers cqe hcqe).symm.trans hstarted)
      exact hnotLast cqe (List.mem_of_mem_filter hcqe) heq
    have hheld : (s.ring.table.life sqe.userData).held ≠ none := by
      intro hnone
      obtain ⟨op, hop⟩ := List.exists_mem_of_ne_nil _ (haccounted (by simp [hstarted]) hnone)
      rw [finished_of_released hsound hsingle hstreams hop] at hunfinished
      cases hunfinished
    have hops : s.ring.table.op sqe.userData = none ↔ _ := hrouted.ring.ops.lookup_eq_none
    have horphaned : s.ring.table.orphan sqe.userData = none ↔ _ :=
      hrouted.ring.orphaned.lookup_eq_none
    rcases hrouted.ring.valid.apart sqe.userData with hnone | hnone
    · have hsome : s.ring.table.orphan sqe.userData ≠ none := by
        simpa [Life.held, Table.life, hnone] using hheld
      refine .inr ⟨?_, by simp [hops.mp hnone]⟩
      exact Option.isSome_iff_ne_none.mpr fun heq => hsome (horphaned.mpr heq)
    · have hsome : s.ring.table.op sqe.userData ≠ none := by
        intro heq
        exact hheld (by simp [Life.held, Table.life, heq, hnone])
      refine .inl ⟨?_, by simp [horphaned.mp hnone]⟩
      exact Option.isSome_iff_ne_none.mpr fun heq => hsome (hops.mpr heq)
  · intro i f hf
    obtain ⟨op, hget, huser, -⟩ := hrouted.ring.get_of_index (hrouted.holds hf).1
    exact ⟨op, hget, huser⟩
  · intro i j f g hf hg hkey
    obtain ⟨op, hget, huser, -⟩ := hrouted.ring.get_of_index (hrouted.holds hf).1
    obtain ⟨op', hget', huser', -⟩ := hrouted.ring.get_of_index (hrouted.holds hg).1
    rw [hkey, hget', Option.some.injEq] at hget
    exact hrouted.apart i j f g hf hg (huser.symm.trans (hget ▸ huser'))

/-- Two reads of which one is dropped: the slot that it leaves is used by a third. -/
theorem reused_slot_routed :
    ∃ s, Reachable System.step (allows (guards fun l k => l.CancelsLate k ∧ l.RefusesLate k))
        (.new 8 false 3) s ∧
      (s.future 2).map Future.key = some 0 ∧ s.ring.orphanedByUserData 1 = some 0 ∧
      s.RoutesCompletions := by
  have hrun : (run (guarded System.step
      (allows (guards fun l k => l.CancelsLate k ∧ l.RefusesLate k))) (.new 8 false 3)
      [.client 0 (.start 0 (.op (.read 3 16 0)) 7), .client 0 (.submit (some 1)),
        .client 1 (.start 1 (.op (.read 4 16 0)) 8), .client 1 (.submit (some 1)),
        .client 0 (.drop 0), .client 2 (.start 0 (.op (.read 5 16 0)) 9), .post 1 16 0, .reapBegin,
        .reapCqe, .reapEnd]).any (fun s => decide (s.ring.allocated < 2 ^ 64) &&
          decide ((s.future 2).map Future.key = some 0) &&
          decide (s.ring.orphanedByUserData 1 = some 0)) = true := by
    decide +kernel
  obtain ⟨s, hreach, hs⟩ := exists_reachable_of_run hrun
  simp only [Bool.and_eq_true, decide_eq_true_eq] at hs
  exact ⟨s, hreach, hs.1.2, hs.2, completions_routed hreach hs.1.1⟩

/-- The read that the kernel is still working on has no entry once the completion of its
cancellation was reaped. -/
theorem cancelled_read_lost :
    ¬ ∀ s, Reachable System.step anyStep (.new 8 false 1) s → s.ring.allocated < 2 ^ 64 →
      s.RoutesCompletions := by
  intro h
  have hrun : (run (guarded System.step anyStep) (.new 8 false 1)
      [.client 0 (.start 0 (.op (.read 3 16 0)) 7), .client 0 (.submit (some 1)),
        .client 0 (.drop 0), .client 0 .cancel, .client 0 (.submit (some 1)), .post 1 0 0,
        .reapBegin, .reapCqe]).any (fun s => decide (s.ring.allocated < 2 ^ 64) &&
          s.ring.io.queued.any (fun sqe => !sqe.opcode.control &&
            s.ring.io.reaped.all (fun cqe => decide (cqe.sqe ≠ sqe)) &&
            decide (s.ring.opsByUserData sqe.userData = none) &&
            decide (s.ring.orphanedByUserData sqe.userData = none))) = true := by
    decide +kernel
  obtain ⟨s, hreach, hs⟩ := exists_reachable_of_run hrun
  simp only [Bool.and_eq_true, decide_eq_true_eq, List.any_eq_true, List.all_eq_true,
    Bool.not_eq_true'] at hs
  obtain ⟨hb, sqe, hsqe, ⟨⟨hcontrol, hreaped⟩, hop⟩, horphan⟩ := hs
  have hxor := (h s hreach hb).inFlight sqe hsqe hcontrol fun cqe hcqe heq =>
    absurd heq (hreaped cqe hcqe)
  simp [Xor, hop, horphan] at hxor

end System

end Eddy.Uring
