import Eddy.UringPools

/-!
# Orphans leave the tables

An operation that lost its future keeps its entry until its last completion was reaped, and a
receiving stream until the kernel has given its buffers back as well. The entry then goes, unless
the stream was dropped while it had events that nobody had taken.
-/

namespace Eddy.Uring
open Table Interleaving

/-- What is known of a stream's buffers. -/
def MultishotState.cleanup (m : MultishotState) : MultishotEventKind × Bool × Option ℕ :=
  (m.eventKind, m.cleanupComplete, m.cleanupUserData)

namespace Life
variable {l l' : Life} {k : Kind}

/-- At most one request for the buffers of a stream is out, and the stream knows it. -/
structure Booked (l : Life) (m : MultishotState) : Prop where
  accept : m.eventKind = .accept → m.cleanupComplete = true
  free : m.cleanupComplete = true → m.cleanupUserData = none
  waits : ∀ sqe ∈ l.requests, (∀ a ∈ l.cleanups, a.sqe ≠ sqe) →
    m.cleanupUserData = some sqe.userData
  asked : ∀ c, m.cleanupUserData = some c →
    ∃ sqe ∈ l.requests, sqe.userData = c ∧ ∀ a ∈ l.cleanups, a.sqe ≠ sqe
  done : l.cleaned = true → m.cleanupComplete = true

structure Books (l : Life) : Prop where
  nodup : (l.requests.map Sqe.userData).Nodup
  stream : ∀ op m, l.held = some op → op.multishot = some m → l.Booked m

theorem Booked.of_cleanup {m m' : MultishotState} (h : l.Booked m) (hm : m'.cleanup = m.cleanup)
    (hrequests : l'.requests = l.requests) (hcleanups : l'.cleanups = l.cleanups) :
    l'.Booked m' := by
  simp only [MultishotState.cleanup, Prod.mk.injEq] at hm
  obtain ⟨hkind, hcomplete, huser⟩ := hm
  have hcleaned : l'.cleaned = l.cleaned := by rw [cleaned, cleaned, hcleanups]
  constructor
  · rw [hkind, hcomplete]
    exact h.accept
  · rw [hcomplete, huser]
    exact h.free
  · rw [hrequests, hcleanups, huser]
    exact h.waits
  · rw [hrequests, hcleanups, huser]
    exact h.asked
  · rw [hcleaned, hcomplete]
    exact h.done

theorem Books.new : Books .new := by
  refine ⟨List.nodup_nil, ?_⟩
  intro op m hop
  cases hop

/-- The entry is gone. -/
theorem Books.of_none (h : l.Books) (hrequests : l'.requests = l.requests)
    (hop : l'.op = none) (horphan : l'.orphan = none) : l'.Books := by
  refine ⟨hrequests ▸ h.nodup, ?_⟩
  intro op m hheld
  simp [held, hop, horphan] at hheld

/-- The entry changes, but not what is known of its buffers. -/
theorem Books.of_held (h : l.Books) (hrequests : l'.requests = l.requests)
    (hcleanups : l'.cleanups = l.cleanups) {old : OrphanedOp} (hold : l.held = some old)
    (hsame : ∀ op m', l'.held = some op → op.multishot = some m' →
      ∃ m, old.multishot = some m ∧ m'.cleanup = m.cleanup) : l'.Books := by
  refine ⟨hrequests ▸ h.nodup, ?_⟩
  intro op m' hop hm'
  obtain ⟨m, hm, hcleanup⟩ := hsame op m' hop hm'
  exact (h.stream old m hold hm).of_cleanup hcleanup hrequests hcleanups

theorem Books.same (h : l.Books) (hrequests : l'.requests = l.requests)
    (hcleanups : l'.cleanups = l.cleanups) (hheld : l'.held = l.held) : l'.Books := by
  refine ⟨hrequests ▸ h.nodup, ?_⟩
  intro op m hop hm
  exact (h.stream op m (hheld ▸ hop) hm).of_cleanup rfl hrequests hcleanups

theorem held_of_op {op : OpState} (h : l.op = some op) : l.held = some op.toOrphanedOp := by
  simp [held, h]

variable {op : OrphanedOp} {cqe : Cqe}

theorem held_of_orphan (hop : l.op = none) (h : l.orphan = some op) :
    l.held = some op := by
  simp [held, hop, h]

theorem held_of_some {op : OpState} {o : OrphanedOp} (h : l.op = some op) (ho : l.held = some o) :
    o = op.toOrphanedOp := by
  rw [held_of_op h] at ho
  exact (Option.some.inj ho).symm

/-- The request that is out is answered. -/
theorem Booked.cleaned {m : MultishotState} (h : l.Booked m)
    (hnodup : (l.requests.map Sqe.userData).Nodup) (hsqe : cqe.sqe ∈ l.requests)
    (hfirst : ∀ a ∈ l.cleanups, a.sqe ≠ cqe.sqe) :
    m.cleanupComplete = false ∧ l.cleaned = false ∧
      Booked { l with cleanups := l.cleanups ++ [cqe] }
        { m with cleanupUserData := none, cleanupComplete := decide (0 ≤ cqe.res) } := by
  have huser := h.waits cqe.sqe hsqe hfirst
  have hcomplete : m.cleanupComplete = false := by
    by_contra hne
    rw [h.free (by simpa using hne)] at huser
    cases huser
  have hcleaned : l.cleaned = false := by
    by_contra hne
    rw [h.done (by simpa using hne)] at hcomplete
    cases hcomplete
  refine ⟨hcomplete, hcleaned, ?_⟩
  constructor
  · intro hkind
    rw [h.accept hkind] at hcomplete
    cases hcomplete
  · intro _
    rfl
  · intro sqe hmem hout
    have hother : sqe.userData = cqe.sqe.userData := by
      have hsome := h.waits sqe hmem fun a ha => hout a (List.mem_append_left _ ha)
      exact Option.some.inj (hsome.symm.trans huser)
    have heq := List.inj_on_of_nodup_map hnodup hmem hsqe hother
    exact absurd heq.symm (hout cqe (List.mem_append_right _ (List.mem_singleton_self _)))
  · intro c hc
    cases hc
  · intro hdone
    simpa [Life.cleaned, List.any_append, show l.cleanups.any (fun a => decide (0 ≤ a.res)) = false
      from hcleaned] using hdone

theorem Books.start {op : OpState} {sqe : Sqe} {provides : List Sqe} (hfresh : op.Fresh) :
    Books { Life.new with op := some op, started := some sqe, provides := provides } := by
  refine ⟨List.nodup_nil, ?_⟩
  intro o m ho hm
  obtain rfl := held_of_some rfl ho
  obtain ⟨-, -, hnone, hcomplete⟩ := hfresh.2 m hm
  constructor
  · exact hcomplete.mpr
  · intro _
    exact hnone
  · intro r hr
    cases hr
  · intro c hc
    rw [hnone] at hc
    cases hc
  · intro hcleaned
    cases hcleaned

theorem Books.request (h : l.Books) (hsound : l.Sound) {sqe : Sqe}
    {target count : ℕ} (hop : l.held = some op)
    (hrequest : cleanupRequest op = some (target, count, sqe.bufIndex))
    (hnew : ∀ a ∈ l.requests, a.userData ≠ sqe.userData) :
    Books { l with
      requests := l.requests ++ [sqe]
      op := l.op.map (OpState.setCleanup · sqe.userData)
      orphan := l.orphan.map (OrphanedOp.setCleanup · sqe.userData) } := by
  obtain ⟨m, bufferSize, hm, hkind, -, hcomplete, hnone⟩ := cleanupRequest_eq_some hrequest
  have hbooked := h.stream op m hop hm
  constructor
  · rw [List.map_append, List.nodup_append]
    refine ⟨h.nodup, List.nodup_singleton _, ?_⟩
    simpa using hnew
  · intro o m' ho hm'
    have hset : o = op.setCleanup sqe.userData := by
      cases hl : l.op <;> cases hl' : l.orphan <;> simp_all [held, OpState.setCleanup]
    rw [hset, OrphanedOp.setCleanup, hm] at hm'
    cases hm'
    constructor
    · intro haccept
      rw [hkind] at haccept
      cases haccept
    · intro htrue
      rw [hcomplete] at htrue
      cases htrue
    · intro r hr hout
      rcases List.mem_append.mp hr with hold | hnew
      · rw [hbooked.waits r hold hout] at hnone
        cases hnone
      · rw [List.mem_singleton.mp hnew]
    · intro c hc
      cases hc
      refine ⟨sqe, List.mem_append_right _ (List.mem_singleton_self _), rfl, ?_⟩
      intro a ha heq
      exact hnew a.sqe (hsound.cleanups a ha) (congrArg Sqe.userData heq)
    · exact hbooked.done

theorem Books.step (h : l.Books) (hsound : l.Sound) (hstep : Step l k l') : l'.Books := by
  induction hstep with
  | start _ hfresh => exact .start hfresh
  | register hop =>
    refine h.of_held rfl rfl (held_of_op hop) ?_
    intro o m ho hm
    obtain rfl := held_of_some rfl ho
    exact ⟨m, hm, rfl⟩
  | @pop _ op m event events hop hm =>
    refine h.of_held rfl rfl (held_of_op hop) ?_
    intro o m' ho hm'
    obtain rfl := held_of_some rfl ho
    cases hm'
    exact ⟨m, hm, rfl⟩
  | take hop | finish hop | dropComplete hop =>
    refine h.of_none rfl rfl ?_
    exact hsound.apart.resolve_left (by simp [hop])
  | check | refill => exact h.same rfl rfl rfl
  | dropToOrphan hop => exact h.same rfl rfl (held_of_op hop).symm
  | request hop hrequest hnew => exact h.request hsound hop hrequest hnew
  | @answer _ op cqe hop =>
    refine h.of_held rfl rfl (held_of_op hop) ?_
    intro o m' ho hm'
    obtain rfl := held_of_some rfl ho
    cases hm : op.multishot with
    | none => simp [OpState.answered, hm] at hm'
    | some m =>
      simp only [OpState.answered, hm, Option.some.injEq] at hm'
      subst hm'
      exact ⟨m, rfl, rfl⟩
  | @answerOrphan _ op cqe hop horphan =>
    refine h.of_held rfl rfl (held_of_orphan hop horphan) ?_
    intro o m' ho hm'
    have ho : op.answered cqe = some o := by simpa [held, hop] using ho
    cases hm : op.multishot with
    | none => simp [OrphanedOp.answered, hm] at ho
    | some m =>
      refine ⟨m, rfl, ?_⟩
      simp only [OrphanedOp.answered, hm] at ho
      split_ifs at ho
      · cases ho
        cases hm.symm.trans hm'
        rfl
      · cases ho
        cases hm'
        rfl
  | answerNone hop horphan | cleanupNone _ _ hop horphan => exact h.of_none rfl hop horphan
  | cancelled _ _ horphan =>
    refine h.of_none rfl ?_ rfl
    exact hsound.apart.resolve_right (by simp [horphan])
  | @provideFailed _ op cqe _ _ _ hop =>
    refine h.of_held rfl rfl (held_of_op hop) ?_
    intro o m' ho hm'
    obtain rfl := held_of_some rfl ho
    cases hm : op.multishot with
    | none => simp [OpState.provideFailed, hm] at hm'
    | some m =>
      simp only [OpState.provideFailed, hm, Option.some.injEq] at hm'
      subst hm'
      exact ⟨m, rfl, rfl⟩
  | @cleanup _ op cqe hsqe hfirst hop =>
    refine ⟨h.nodup, ?_⟩
    intro o m' ho hm'
    obtain rfl := held_of_some rfl ho
    cases hm : op.multishot with
    | none => simp [OpState.cleaned, hm] at hm'
    | some m =>
      obtain ⟨hcomplete, -, hbooked⟩ := (h.stream _ m (held_of_op hop) hm).cleaned h.nodup hsqe hfirst
      simp only [OpState.cleaned, hm, Option.some.injEq] at hm'
      subst hm'
      rw [hcomplete]
      exact hbooked.of_cleanup rfl rfl rfl
  | @cleanupOrphan _ op cqe hsqe hfirst hop horphan =>
    refine ⟨h.nodup, ?_⟩
    intro o m' ho hm'
    have ho : op.cleaned cqe.res = some o := by simpa [held, hop] using ho
    cases hm : op.multishot with
    | none =>
      simp only [OrphanedOp.cleaned, hm, Option.some.injEq] at ho
      rw [← ho, hm] at hm'
      cases hm'
    | some m =>
      obtain ⟨-, -, hbooked⟩ :=
        (h.stream _ m (held_of_orphan hop horphan) hm).cleaned h.nodup hsqe hfirst
      simp only [OrphanedOp.cleaned, hm] at ho
      split_ifs at ho
      cases ho
      cases hm'
      exact hbooked.of_cleanup rfl rfl rfl

/-- An operation that has not had its last completion has its entry in a state that waits for it. -/
structure Awaits (l : Life) : Prop where
  op : ∀ op, l.op = some op → op.multishot = none → op.result = none → l.answers = []
  orphan : ∀ op, l.orphan = some op → op.multishot = none → l.answers = []
  stream : ∀ op m, l.held = some op → op.multishot = some m → m.terminal = false →
    l.finished = false

theorem Awaits.new : Awaits .new := by
  constructor <;> simp [Life.new, held]

theorem Awaits.of_none (hop : l'.op = none) (horphan : l'.orphan = none) : l'.Awaits := by
  constructor <;> simp [held, hop, horphan]

/-- No completion of the operation is reaped. -/
theorem Awaits.setOp (h : l.Awaits) (hsound : l.Sound) {old op : OpState} (hold : l.op = some old)
    (hop : l'.op = some op) (horphan : l'.orphan = l.orphan) (hanswers : l'.answers = l.answers)
    (hsingle : op.multishot = none → op.result = none → old.multishot = none ∧ old.result = none)
    (hstream : ∀ m', op.multishot = some m' → m'.terminal = false →
      ∃ m, old.multishot = some m ∧ m.terminal = false) : l'.Awaits := by
  have hnone := hsound.apart.resolve_left (by simp [hold])
  constructor
  · intro op' hop' hm hresult
    rw [hop] at hop'
    cases hop'
    obtain ⟨hm, hresult⟩ := hsingle hm hresult
    rw [hanswers]
    exact h.op old hold hm hresult
  · intro op' hop'
    rw [horphan, hnone] at hop'
    cases hop'
  · intro o m' ho hm' hlive
    obtain rfl := held_of_some hop ho
    obtain ⟨m, hm, hlive⟩ := hstream m' hm' hlive
    rw [finished, hanswers]
    exact h.stream _ m (held_of_op hold) hm hlive

theorem Awaits.setOrphan (h : l.Awaits) {old : OrphanedOp} (hnone : l.op = none)
    (hold : l.orphan = some old) (hop : l'.op = none) (horphan : l'.orphan = some op)
    (hanswers : l'.answers = l.answers)
    (hsingle : op.multishot = none → old.multishot = none)
    (hstream : ∀ m', op.multishot = some m' → m'.terminal = false →
      ∃ m, old.multishot = some m ∧ m.terminal = false) : l'.Awaits := by
  constructor
  · intro op' hop'
    rw [hop] at hop'
    cases hop'
  · intro op' hop' hm
    rw [horphan] at hop'
    cases hop'
    rw [hanswers]
    exact h.orphan old hold (hsingle hm)
  · intro o m' ho hm' hlive
    rw [held_of_orphan hop horphan] at ho
    cases ho
    obtain ⟨m, hm, hlive⟩ := hstream m' hm' hlive
    rw [finished, hanswers]
    exact h.stream _ m (held_of_orphan hnone hold) hm hlive

/-- A completion of a stream that announces another one is not the last. -/
theorem Sound.last_of_stream (hsound : l.Sound) (hop : l.held = some op)
    (hstarted : l.started = some cqe.sqe) (hm : op.multishot.isSome = true) :
    cqe.last = !cqe.more := by
  obtain ⟨sqe, hsqe, -, -, -, hstarts⟩ := hsound.held hop
  obtain ⟨m, hm⟩ := Option.isSome_iff_exists.mp hm
  rw [hstarted] at hsqe
  cases hsqe
  simp only [hm] at hstarts
  simp [Cqe.last, hstarts.1]

theorem finished_append (h : ∀ a ∈ l.answers, a.last = false)
    (hanswers : l'.answers = l.answers ++ [cqe]) : l'.finished = cqe.last := by
  have hbefore : l.answers.any Cqe.last = false := finished_eq_false h
  rw [finished, hanswers, List.any_append, hbefore]
  simp

theorem Awaits.step (h : l.Awaits) (hsound : l.Sound) (hstep : Step l k l') : l'.Awaits := by
  cases hstep with
  | start =>
    refine ⟨fun _ _ _ _ => rfl, ?_, fun _ _ _ _ _ => rfl⟩
    intro op hop
    cases hop
  | register hop =>
    refine h.setOp hsound hop rfl rfl rfl (fun hm hresult => ⟨hm, hresult⟩) ?_
    intro m hm hlive
    exact ⟨m, hm, hlive⟩
  | @pop _ op m event events hop hm =>
    refine h.setOp hsound hop rfl rfl rfl ?_ ?_
    · intro hnone
      cases hnone
    · intro m' hm' hlive
      cases hm'
      exact ⟨m, hm, hlive⟩
  | take hop | finish hop | dropComplete hop =>
    exact .of_none rfl (hsound.apart.resolve_left (by simp [hop]))
  | check | refill => exact ⟨h.op, h.orphan, h.stream⟩
  | @dropToOrphan _ op u hop hcomplete =>
    refine ⟨none_ne_some, ?_, ?_⟩
    · intro o ho hm
      cases ho
      refine h.op op hop hm ?_
      simpa [OpState.complete?, hm] using hcomplete
    · intro o m ho hm hlive
      cases ho
      exact h.stream _ m (held_of_op hop) hm hlive
  | @request _ op sqe target count hop =>
    cases hl : l.op with
    | none =>
      cases ho : l.orphan with
      | none => simp [held, hl, ho] at hop
      | some o =>
        refine h.setOrphan hl ho rfl rfl rfl ?_ ?_
        · simp [OrphanedOp.setCleanup]
        · intro m' hm' hlive
          obtain ⟨m, hm, rfl⟩ := Option.map_eq_some_iff.mp hm'
          exact ⟨m, hm, hlive⟩
    | some o =>
      refine h.setOp hsound hl rfl ?_ rfl ?_ ?_
      · simp [hsound.apart.resolve_left (by simp [hl])]
      · intro hm hresult
        exact ⟨by simpa [OpState.setCleanup, OrphanedOp.setCleanup] using hm, hresult⟩
      · intro m' hm' hlive
        obtain ⟨m, hm, rfl⟩ := Option.map_eq_some_iff.mp hm'
        exact ⟨m, hm, hlive⟩
  | @answer _ op cqe hop hstarted hfirst =>
    have hnone := hsound.apart.resolve_left (by simp [hop])
    constructor
    · intro op' hop' hm hresult
      cases hop'
      cases hm' : op.multishot <;> simp [OpState.answered, hm'] at hm hresult
    · intro op' hop'
      rw [hnone] at hop'
      cases hop'
    · intro o m' ho hm' hlive
      obtain rfl := held_of_some rfl ho
      rw [finished_append hfirst rfl]
      cases hm : op.multishot with
      | none => simp [OpState.answered, hm] at hm'
      | some m =>
        rw [hsound.last_of_stream (held_of_op hop) hstarted (by simp [hm])]
        simp only [OpState.answered, hm, Option.some.injEq] at hm'
        rw [← hm'] at hlive
        exact hlive
  | @answerOrphan _ op cqe hop horphan hstarted hfirst =>
    constructor
    · intro op' hop'
      rw [hop] at hop'
      cases hop'
    · intro op' hop' hm
      have hshape := OrphanedOp.answered_shape hop'
      have hnone : op.multishot = none := by
        simpa [hm] using (isSome_of_shape hshape).symm
      simp [OrphanedOp.answered, hnone] at hop'
    · intro o m' ho hm' hlive
      have ho : op.answered cqe = some o := by simpa [held, hop] using ho
      have hshape := OrphanedOp.answered_shape ho
      rw [finished_append hfirst rfl, hsound.last_of_stream (held_of_orphan hop horphan) hstarted
        (by rw [← isSome_of_shape hshape, hm']; rfl)]
      by_contra hmore
      cases hm : op.multishot with
      | none => simp [OrphanedOp.answered, hm] at ho
      | some m =>
        simp only [OrphanedOp.answered, hm] at ho
        split_ifs at ho with hmore'
        · simp [hmore'] at hmore
        · cases ho
          cases hm'
          cases hlive
  | answerNone hop horphan | cleanupNone _ _ hop horphan => exact .of_none hop horphan
  | cancelled _ _ horphan =>
    exact .of_none (hsound.apart.resolve_right (by simp [horphan])) rfl
  | @provideFailed _ op cqe _ _ _ hop =>
    refine h.setOp hsound hop rfl rfl rfl ?_ ?_
    · cases hm : op.multishot <;> simp [OpState.provideFailed, hm]
    · intro m' hm' hlive
      cases hm : op.multishot with
      | none => simp [OpState.provideFailed, hm] at hm'
      | some m =>
        simp only [OpState.provideFailed, hm, Option.some.injEq] at hm'
        subst hm'
        cases hlive
  | @cleanup _ op cqe _ _ hop =>
    refine h.setOp hsound hop rfl rfl rfl ?_ ?_
    · cases hm : op.multishot <;> simp [OpState.cleaned, hm]
    · intro m' hm' hlive
      cases hm : op.multishot with
      | none => simp [OpState.cleaned, hm] at hm'
      | some m =>
        simp only [OpState.cleaned, hm, Option.some.injEq] at hm'
        subst hm'
        exact ⟨m, rfl, hlive⟩
  | @cleanupOrphan _ op cqe _ _ hop horphan =>
    cases hcleaned : op.cleaned cqe.res with
    | none => exact .of_none hop rfl
    | some op' =>
      refine h.setOrphan hop horphan hop rfl rfl ?_ ?_
      · intro hm
        simpa [hm] using (isSome_of_shape (OrphanedOp.cleaned_shape hcleaned)).symm
      · intro m' hm' hlive
        have hterminal := OrphanedOp.terminal_of_cleaned hcleaned
        cases hm : op.multishot with
        | none =>
          have hisSome := isSome_of_shape (OrphanedOp.cleaned_shape hcleaned)
          simp [hm, hm'] at hisSome
        | some m => exact ⟨m, rfl, by simpa [OrphanedOp.terminal, hm, hm', hlive] using hterminal⟩

/-- A stream that goes on and whose buffers are not back is dropped only when all its events were
taken. -/
def DropsPolled (l : Life) : Kind → Prop
  | .drop _ => l.op.any (fun op => op.multishot.any fun m =>
      !m.terminal && !m.cleanupComplete && !m.events.isEmpty) = false
  | _ => True

instance (l : Life) : (k : Kind) → Decidable (l.DropsPolled k)
  | .quiet => .isTrue trivial
  | .reap _ => .isTrue trivial
  | .drop _ => inferInstanceAs (Decidable (_ = false))

/-- A stream without a future that has ended waits for its buffers. -/
structure Ends (l : Life) : Prop where
  ended : ∀ op m, l.orphan = some op → op.multishot = some m → m.terminal = true →
    l.finished = true ∧ m.cleanupComplete = false
  polled : ∀ op m, l.orphan = some op → op.multishot = some m →
    m.cleanupComplete = true ∨ m.events = []

theorem Ends.of_none (h : l.orphan = none) : l.Ends := by
  constructor <;> simp [h]

theorem Ends.same (h : l.Ends) (horphan : l'.orphan = l.orphan)
    (hanswers : l'.answers = l.answers) :
    l'.Ends := by
  constructor
  · rw [horphan, finished, hanswers]
    exact h.ended
  · rw [horphan]
    exact h.polled

theorem Ends.answerOrphan (h : l.Ends) (hsound : l.Sound)
    (hop : l.op = none) (horphan : l.orphan = some op) (hstarted : l.started = some cqe.sqe)
    (hfirst : ∀ a ∈ l.answers, a.last = false) (hanswers : l'.answers = l.answers ++ [cqe])
    (horphan' : l'.orphan = op.answered cqe) : l'.Ends := by
  cases hm : op.multishot with
  | none =>
    apply Ends.of_none
    simp [horphan', OrphanedOp.answered, hm]
  | some m =>
    have hfinished := finished_append hfirst hanswers
    rw [hsound.last_of_stream (held_of_orphan hop horphan) hstarted (by simp [hm])] at hfinished
    simp only [OrphanedOp.answered, hm] at horphan'
    split_ifs at horphan' with hmore hcomplete
    · constructor
      · intro o m' ho hm' hterminal
        rw [horphan'] at ho
        cases ho
        have hbefore := (h.ended op m' horphan hm' hterminal).1
        rw [finished_eq_false hfirst] at hbefore
        cases hbefore
      · intro o m' ho hm'
        rw [horphan'] at ho
        cases ho
        exact h.polled op m' horphan hm'
    · exact .of_none horphan'
    · constructor
      · intro o m' ho hm' _
        rw [horphan'] at ho
        cases ho
        cases hm'
        exact ⟨by simpa [hmore] using hfinished, by simpa using hcomplete⟩
      · intro o m' ho hm'
        rw [horphan'] at ho
        cases ho
        cases hm'
        exact h.polled op m horphan hm

theorem Ends.cleanupOrphan (h : l.Ends) (hbooks : l.Books)
    (hsqe : cqe.sqe ∈ l.requests) (hfirst : ∀ a ∈ l.cleanups, a.sqe ≠ cqe.sqe) (hop : l.op = none)
    (horphan : l.orphan = some op) (hanswers : l'.answers = l.answers)
    (horphan' : l'.orphan = op.cleaned cqe.res) : l'.Ends := by
  cases hm : op.multishot with
  | none =>
    have hsame : l'.orphan = l.orphan := by simp [horphan', OrphanedOp.cleaned, hm, horphan]
    exact h.same hsame hanswers
  | some m =>
    have hbooked := hbooks.stream op m (held_of_orphan hop horphan) hm
    obtain ⟨hcomplete, -, -⟩ := hbooked.cleaned hbooks.nodup hsqe hfirst
    have hevents : m.events = [] := (h.polled op m horphan hm).resolve_left (by simp [hcomplete])
    simp only [OrphanedOp.cleaned, hm, hevents, List.isEmpty_nil, and_true] at horphan'
    split_ifs at horphan' with hremove
    · exact .of_none horphan'
    · constructor
      · intro o m' ho hm' hterminal
        rw [horphan'] at ho
        cases ho
        cases hm'
        refine ⟨?_, ?_⟩
        · rw [finished, hanswers]
          exact (h.ended op m horphan hm hterminal).1
        · simpa using fun hres => hremove ⟨hres, hterminal⟩
      · intro o m' ho hm'
        rw [horphan'] at ho
        cases ho
        cases hm'
        exact .inr rfl

theorem Ends.step (h : l.Ends) (hsound : l.Sound) (hbooks : l.Books) (hguard : l.DropsPolled k)
    (hstep : Step l k l') : l'.Ends := by
  induction hstep with
  | start => exact .of_none rfl
  | register | pop | take | check | finish | dropComplete | refill | provideFailed | cleanup
  | cleanupNone => exact h.same rfl rfl
  | @dropToOrphan _ op u hop hcomplete =>
    constructor
    · intro o m ho hm hterminal
      cases ho
      simp [OpState.complete?, hm, hterminal] at hcomplete
    · intro o m ho hm
      cases ho
      have hlive : m.terminal = false := by
        by_contra hterminal
        simp [OpState.complete?, hm, hterminal] at hcomplete
      have hpolled : (!m.terminal && !m.cleanupComplete && !m.events.isEmpty) = false := by
        simpa [DropsPolled, hop, hm] using hguard
      cases hdone : m.cleanupComplete with
      | true => exact .inl rfl
      | false => exact .inr (by simpa [hlive, hdone] using hpolled)
  | @request _ op sqe target count hop =>
    constructor
    · intro o m' ho hm' hterminal
      obtain ⟨old, hold, rfl⟩ := Option.map_eq_some_iff.mp ho
      obtain ⟨m, hm, rfl⟩ := Option.map_eq_some_iff.mp hm'
      exact h.ended old m hold hm hterminal
    · intro o m' ho hm'
      obtain ⟨old, hold, rfl⟩ := Option.map_eq_some_iff.mp ho
      obtain ⟨m, hm, rfl⟩ := Option.map_eq_some_iff.mp hm'
      exact h.polled old m hold hm
  | answer hop => exact .of_none (hsound.apart.resolve_left (by simp [hop]))
  | answerOrphan hop horphan hstarted hfirst =>
    exact h.answerOrphan hsound hop horphan hstarted hfirst rfl rfl
  | answerNone _ horphan => exact .of_none horphan
  | cancelled => exact .of_none rfl
  | cleanupOrphan hsqe hfirst hop horphan =>
    exact h.cleanupOrphan hbooks hsqe hfirst hop horphan rfl rfl

/-- What is known of the entry of an operation. -/
structure Drains (l : Life) : Prop where
  books : l.Books
  awaits : l.Awaits
  ends : l.Ends

theorem Drains.new : Drains .new := ⟨.new, .new, .of_none rfl⟩

theorem Drains.step (h : l.Drains) (hsound : l.Sound) (hguard : l.DropsPolled k)
    (hstep : Step l k l') : l'.Drains :=
  ⟨h.books.step hsound hstep, h.awaits.step hsound hstep,
    h.ends.step hsound h.books hguard hstep⟩

/-- An orphan that has had its last completion is a stream that waits for its buffers. -/
theorem Drains.waits (h : l.Drains) (hsound : l.Sound) (horphan : l.orphan = some op)
    (hfinished : l.finished = true) :
    ∃ m bufferSize group, op.multishot = some m ∧ m.eventKind = .recv bufferSize group ∧
      m.terminal = true ∧ m.cleanupComplete = false ∧ l.cleaned = false := by
  have hnone := hsound.apart.resolve_right (by simp [horphan])
  have hheld := held_of_orphan hnone horphan
  cases hm : op.multishot with
  | none =>
    simp [finished, h.awaits.orphan op horphan hm] at hfinished
  | some m =>
    have hterminal : m.terminal = true := by
      by_contra hlive
      rw [h.awaits.stream op m hheld hm (by simpa using hlive)] at hfinished
      cases hfinished
    have hcomplete := (h.ends.ended op m horphan hm hterminal).2
    have hbooked := h.books.stream op m hheld hm
    have hcleaned : l.cleaned = false := by
      by_contra hdone
      rw [hbooked.done (by simpa using hdone)] at hcomplete
      cases hcomplete
    cases hkind : m.eventKind with
    | accept =>
      rw [hbooked.accept hkind] at hcomplete
      cases hcomplete
    | recv bufferSize group =>
      exact ⟨m, bufferSize, group, rfl, hkind, hterminal, hcomplete, hcleaned⟩

end Life

/-- A dropped operation whose last completion was reaped has no entry, if it is not a receive that
waits for its buffers. -/
def Ring.DrainsOrphans (r : Ring) : Prop :=
  ∀ sqe ∈ r.io.queued, sqe.opcode.control = false → sqe.userData ∈ r.dropped →
    (∃ cqe ∈ r.io.reaped, cqe.sqe = sqe ∧ cqe.last = true) →
    (sqe.selects = true → ∃ cqe ∈ r.io.reaped, cqe.sqe.opcode = .removeBuffers ∧
      cqe.sqe.owner = sqe.userData ∧ 0 ≤ cqe.res) →
    r.opsByUserData sqe.userData = none ∧ r.orphanedByUserData sqe.userData = none ∧
      (∀ op ∈ r.ops.values, op.userData ≠ sqe.userData) ∧
      ∀ op ∈ r.orphaned.values, op.userData ≠ sqe.userData

theorem Sqe.selects_of_starts {sqe : Sqe} {op : OrphanedOp} (h : sqe.Starts op) {m : MultishotState}
    {bufferSize group : ℕ} (hm : op.multishot = some m) (hkind : m.eventKind = .recv bufferSize group) :
    sqe.selects = true := by
  obtain ⟨-, -, -, hstarts⟩ := h
  simp only [hm, hkind] at hstarts
  simp [Sqe.selects, hstarts.1, hstarts.2.1]

/-- The completion is one of the operation's answers. -/
theorem Table.mem_answers {v : Table} {cqe : Cqe} (hcqe : cqe ∈ v.io.reaped)
    (hcontrol : cqe.sqe.opcode.control = false) : cqe ∈ (v.life cqe.userData).answers := by
  refine List.mem_filter.mpr ⟨hcqe, ?_⟩
  simp [Sqe.startsAs, hcontrol, Cqe.userData]

theorem Ring.Routed.drains {r : Ring} (h : r.Routed)
    (hlives : ∀ u, (r.table.life u).Sound ∧ (r.table.life u).Drains) : r.DrainsOrphans := by
  rintro sqe hsqe hcontrol hdropped ⟨cqe, hcqe, rfl, hlast⟩ hcleaned
  obtain ⟨hsound, hdrains⟩ := hlives cqe.userData
  have hfinished : (r.table.life cqe.userData).finished = true :=
    List.any_eq_true.mpr ⟨cqe, mem_answers hcqe hcontrol, hlast⟩
  have hop : r.table.op cqe.userData = none := hsound.dropped (happened_iff.mpr hdropped)
  have horphan : r.table.orphan cqe.userData = none := by
    by_contra hsome
    obtain ⟨op, horphan⟩ := Option.ne_none_iff_exists'.mp hsome
    obtain ⟨m, bufferSize, group, hm, hkind, -, -, hnot⟩ := hdrains.waits hsound horphan hfinished
    obtain ⟨started, hstarted, hstarts⟩ := hsound.orphan op horphan
    have hsame := h.valid.started_eq (u := cqe.userData) hsqe
      (by simp [Sqe.startsAs, hcontrol, Cqe.userData])
    rw [hsame] at hstarted
    cases hstarted
    obtain ⟨a, ha, hopcode, howner, hres⟩ := hcleaned (Sqe.selects_of_starts hstarts hm hkind)
    have hdone : (r.table.life cqe.userData).cleaned = true := by
      refine List.any_eq_true.mpr ⟨a, List.mem_filter.mpr ⟨ha, ?_⟩, by simpa using hres⟩
      simp [Sqe.cleansUp, hopcode, howner, Cqe.userData]
    rw [hnot] at hdone
    cases hdone
  have hindex := h.ops.lookup_eq_none.mp hop
  have hindex' := h.orphaned.lookup_eq_none.mp horphan
  refine ⟨hindex, hindex', ?_, ?_⟩
  · intro op hmem huser
    have hlookup := h.ops.mem_values.mp hmem
    rw [huser] at hlookup
    cases hlookup.symm.trans hop
  · intro op hmem huser
    have hlookup := h.orphaned.mem_values.mp hmem
    rw [huser] at hlookup
    cases hlookup.symm.trans horphan

end Eddy.Uring
