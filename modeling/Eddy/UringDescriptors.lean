import Eddy.UringRetention

/-!
# Accepted descriptors

Every descriptor that a completion delivers is with a caller, closed, or waiting in the result or
the events of an operation that has a future. An operation that loses its future has to leave no
descriptor behind in its events, and its completion has to find its entry.
-/

namespace Eddy.Uring
open Table Interleaving
open scoped List

/-- The descriptors that a completion delivers. -/
def Cqe.fds (cqe : Cqe) : List ℕ :=
  if cqe.sqe.opcode = .accept ∧ 0 ≤ cqe.res then [cqe.res.toNat] else []

def OrphanedOp.accepts (op : OrphanedOp) : Bool := op.multishot.any (·.eventKind == .accept)

theorem Cqe.fds_of_opcode {cqe : Cqe} (h : cqe.sqe.opcode ≠ .accept) : cqe.fds = [] := by
  simp [Cqe.fds, h]

theorem OrphanedOp.accepts_of_shape {a b : OrphanedOp} (h : a.shape = b.shape) :
    a.accepts = b.accepts := by
  have haccepts : ∀ op : OrphanedOp, op.accepts = op.shape.2.2.any (· == .accept) := by
    intro op
    cases hm : op.multishot <;> simp [OrphanedOp.accepts, OrphanedOp.shape, hm]
  rw [haccepts, haccepts, h]

theorem OrphanedOp.isSome_of_accepts {op : OrphanedOp} (h : op.accepts = true) :
    op.multishot.isSome = true := by
  cases hm : op.multishot <;> simp_all [OrphanedOp.accepts]

theorem Sqe.Starts.accepts {sqe : Sqe} {op : OrphanedOp} (h : sqe.Starts op)
    (hopcode : sqe.opcode = .accept) : op.accepts = sqe.multishot := by
  obtain ⟨-, -, -, hrest⟩ := h
  cases hm : op.multishot with
  | none =>
    rw [hm] at hrest
    simp [OrphanedOp.accepts, hm, hrest.1]
  | some m =>
    rw [hm] at hrest
    cases hkind : m.eventKind <;> simp_all [OrphanedOp.accepts]

theorem Sqe.Starts.opcode_of_accepts {sqe : Sqe} {op : OrphanedOp} (h : sqe.Starts op)
    (haccepts : op.accepts = true) : sqe.opcode = .accept := by
  obtain ⟨m, hm, hkind⟩ := (Option.any_eq_true ..).mp haccepts
  obtain ⟨-, -, -, hrest⟩ := h
  rw [hm] at hrest
  simp only [beq_iff_eq.mp hkind] at hrest
  exact hrest.2.1

section Fds
variable {op : OpState} {m : MultishotState} {cqe : Cqe}

theorem OpState.unclaimedFds_stream (hm : op.multishot = some m) (hresult : op.result = none) :
    op.unclaimedFds = m.events.flatMap MultishotEvent.fds := by
  simp [OpState.unclaimedFds, hm, hresult]

theorem OpState.unclaimedFds_single {result : Except IoError ℕ} (hm : op.multishot = none)
    (hresult : op.result = some result) :
    op.unclaimedFds = acceptedFd (result, op.resource) := by
  cases result <;> cases hresource : op.resource <;>
    simp [OpState.unclaimedFds, acceptedFd, hm, hresult, hresource]

theorem OpState.unclaimedFds_fresh (h : op.Fresh) : op.unclaimedFds = [] := by
  cases hm : op.multishot with
  | none => simp [OpState.unclaimedFds, hm, h.1]
  | some m => simp [OpState.unclaimedFds_stream hm h.1, (h.2 m hm).1]

theorem OpState.unclaimedFds_setCleanup (c : ℕ) :
    (op.setCleanup c).unclaimedFds = op.unclaimedFds := by
  cases hm : op.multishot <;>
    simp [OpState.unclaimedFds, OpState.setCleanup, OrphanedOp.setCleanup, hm]

theorem OpState.unclaimedFds_cleaned (res : ℤ) :
    (op.cleaned res).unclaimedFds = op.unclaimedFds := by
  cases hm : op.multishot <;> simp [OpState.unclaimedFds, OpState.cleaned, hm]

theorem OpState.unclaimedFds_provideFailed (res : ℤ) :
    (op.provideFailed res).unclaimedFds = op.unclaimedFds := by
  cases hm : op.multishot with
  | none => simp [OpState.provideFailed, hm]
  | some m =>
    cases hkind : m.eventKind <;>
      simp [OpState.unclaimedFds, OpState.provideFailed, hm, hkind, MultishotEvent.fds]

/-- The event of a completion holds the descriptor that the completion delivers. -/
theorem MultishotState.fds_event (hm : op.multishot = some m)
    (hstarts : cqe.sqe.Starts op.toOrphanedOp) :
    (m.event op.resource cqe).1.fds = cqe.fds := by
  obtain ⟨-, -, -, hrest⟩ := hstarts
  rw [hm] at hrest
  cases hkind : m.eventKind with
  | accept =>
    simp only [hkind] at hrest
    by_cases hres : cqe.res < 0
    · have hneg : ¬ 0 ≤ cqe.res := by omega
      simp [MultishotState.event, hkind, hres, MultishotEvent.fds, Cqe.fds, hneg]
    · have hpos : 0 ≤ cqe.res := by omega
      simp [MultishotState.event, hkind, hres, MultishotEvent.fds, Cqe.fds, hpos, hrest.2.1]
  | recv bufferSize bufferGroup =>
    simp only [hkind] at hrest
    rw [Cqe.fds_of_opcode (by simp [hrest.2.1])]
    simp only [MultishotState.event, hkind]
    split_ifs <;> rfl

theorem OpState.unclaimedFds_answered_stream (hm : op.multishot = some m)
    (hresult : op.result = none) (hstarts : cqe.sqe.Starts op.toOrphanedOp) :
    (op.answered cqe).unclaimedFds = op.unclaimedFds ++ cqe.fds := by
  rw [OpState.unclaimedFds_stream hm hresult, ← MultishotState.fds_event hm hstarts]
  simp [OpState.unclaimedFds, OpState.answered, hm, hresult]

theorem OpState.unclaimedFds_answered_single (hm : op.multishot = none)
    (hstarts : cqe.sqe.Starts op.toOrphanedOp) : (op.answered cqe).unclaimedFds = cqe.fds := by
  obtain ⟨-, -, -, hrest⟩ := hstarts
  simp only [hm] at hrest
  have hopcode := hrest.2.1
  by_cases hres : cqe.res < 0
  · have hneg : ¬ 0 ≤ cqe.res := by omega
    simp [OpState.unclaimedFds, OpState.answered, hm, hres, Cqe.fds, hneg]
  · have hpos : 0 ≤ cqe.res := by omega
    by_cases haccept : op.resource = .accept
    · simp [OpState.unclaimedFds, OpState.answered, hm, hres, Cqe.fds, hpos, haccept,
        hopcode.mpr haccept]
    · rw [Cqe.fds_of_opcode fun h => haccept (hopcode.mp h)]
      cases hresource : op.resource <;>
        simp_all [OpState.unclaimedFds, OpState.answered]

theorem OrphanedOp.unclaimedFds_eq {op : OrphanedOp} (hstarts : cqe.sqe.Starts op) :
    op.unclaimedFds cqe = cqe.fds := by
  obtain ⟨-, -, -, hrest⟩ := hstarts
  cases hm : op.multishot with
  | none =>
    simp only [hm] at hrest
    simp [OrphanedOp.unclaimedFds, Cqe.fds, hm, hrest.2.1]
  | some m =>
    rw [hm] at hrest
    cases hkind : m.eventKind with
    | accept => simp_all [OrphanedOp.unclaimedFds, Cqe.fds]
    | recv bufferSize bufferGroup =>
      simp only [hkind] at hrest
      obtain ⟨-, hopcode, -, n, hresource⟩ := hrest
      simp [OrphanedOp.unclaimedFds, Cqe.fds, hm, hopcode, hresource]

end Fds

namespace Life

def delivered (l : Life) : List ℕ := l.answers.flatMap Cqe.fds

/-- The descriptors in the result or the events of an operation that has a future. -/
def waiting (l : Life) : List ℕ := l.op.elim [] OpState.unclaimedFds

/-- An operation that is not over is not dropped with a descriptor in its events. -/
def DropsEmpty (l : Life) : Kind → Prop
  | .drop _ => l.op.any (fun op => !op.complete? && !op.unclaimedFds.isEmpty) = false
  | _ => True

/-- An accept with one completion that succeeded still has its entry when that completion is
reaped. -/
def AcceptsHeld (l : Life) : Kind → Prop
  | .reap cqe => cqe.sqe.opcode = .accept → cqe.sqe.multishot = false → 0 ≤ cqe.res →
      l.held.isSome = true
  | _ => True

instance (l : Life) : (k : Kind) → Decidable (l.DropsEmpty k)
  | .quiet => .isTrue trivial
  | .reap _ => .isTrue trivial
  | .drop _ => inferInstanceAs (Decidable (_ = false))

instance (l : Life) : (k : Kind) → Decidable (l.AcceptsHeld k)
  | .quiet => .isTrue trivial
  | .reap cqe => inferInstanceAs (Decidable (cqe.sqe.opcode = .accept →
      cqe.sqe.multishot = false → 0 ≤ cqe.res → l.held.isSome = true))
  | .drop _ => .isTrue trivial

variable {l l' : Life} {k : Kind}

/-- The kernel hands over buffers of receiving streams only. -/
theorem Streams.step_accepts (h : l.Streams OrphanedOp.accepts) (hsound : l.Sound)
    (hstep : Step l k l') : l'.Streams OrphanedOp.accepts := by
  refine Streams.step h hsound OrphanedOp.accepts_of_shape OrphanedOp.isSome_of_accepts ?_ hstep
  rintro cqe op - - hmem - hop haccepts
  obtain ⟨sqe, hstarted, hopcode⟩ := hsound.provides _ hmem
  obtain ⟨sqe', hstarted', hstarts⟩ := hsound.op op hop
  obtain rfl : sqe = sqe' := Option.some.inj (hstarted.symm.trans hstarted')
  simp [hstarts.opcode_of_accepts haccepts] at hopcode

structure Descriptors (l : Life) : Prop where
  places : l.delivered ~ l.transferred ++ l.closed ++ l.waiting
  ended : l.ended = true → ∀ op, l.op = some op →
    op.multishot.isSome = true ∧ op.unclaimedFds = []

theorem Descriptors.new : Descriptors .new := by
  constructor <;> simp [Life.new, delivered, waiting]

/-- The operation changes and keeps its descriptors. -/
theorem Descriptors.setOp (h : l.Descriptors) {old op : OpState} (hop : l.op = some old)
    (hm : op.multishot.isSome = old.multishot.isSome) (hfds : op.unclaimedFds = old.unclaimedFds) :
    Descriptors { l with op := some op } := by
  refine ⟨?_, fun hended op' hop' => ?_⟩
  · have hplaces := h.places
    simp only [waiting, hop, Option.elim_some] at hplaces
    simpa [delivered, waiting, hfds] using hplaces
  · cases hop'
    rw [hm, hfds]
    exact h.ended hended old hop

/-- The operation loses its future and its descriptors go where `transferred` and `closed` say. -/
theorem Descriptors.unset (h : l.Descriptors) {op : OpState} (transferred closed : List ℕ)
    (hop : l.op = some op) (hop' : l'.op = none) (hanswers : l'.answers = l.answers)
    (htransferred : l'.transferred = l.transferred ++ transferred)
    (hclosed : l'.closed = l.closed ++ closed)
    (hfds : op.unclaimedFds = transferred ++ closed) : Descriptors l' := by
  refine ⟨?_, fun _ => hop' ▸ none_ne_some⟩
  have hplaces := h.places
  simp only [waiting, hop, Option.elim_some, hfds] at hplaces
  simp only [delivered, hanswers, htransferred, hclosed, waiting, hop', Option.elim_none,
    List.append_nil]
  calc l.delivered
    _ ~ l.transferred ++ l.closed ++ (transferred ++ closed) := hplaces
    _ = l.transferred ++ (l.closed ++ transferred) ++ closed := by
      simp only [List.append_assoc]
    _ ~ l.transferred ++ (transferred ++ l.closed) ++ closed :=
      (List.perm_append_comm.append_left _).append_right _
    _ = l.transferred ++ transferred ++ (l.closed ++ closed) := by
      simp only [List.append_assoc]

/-- A completion without a future to wait for its descriptors. -/
theorem Descriptors.answer (h : l.Descriptors) {cqe : Cqe} (hop : l.op = none)
    (hop' : l'.op = none) (hanswers : l'.answers = l.answers ++ [cqe])
    (htransferred : l'.transferred = l.transferred)
    (hclosed : l'.closed = l.closed ++ cqe.fds) : Descriptors l' := by
  refine ⟨?_, fun _ => hop' ▸ none_ne_some⟩
  have hplaces := h.places
  simp only [waiting, hop, Option.elim_none, List.append_nil] at hplaces
  simp only [delivered, hanswers, htransferred, hclosed, waiting, hop', Option.elim_none,
    List.append_nil, List.flatMap_append, List.flatMap_singleton]
  rw [← List.append_assoc]
  exact hplaces.append_right _

theorem Descriptors.waiting_eq_nil (h : l.Descriptors) (hanswers : l.answers = []) :
    l.waiting = [] := by
  have hplaces := h.places
  simp only [delivered, hanswers, List.flatMap_nil] at hplaces
  exact (List.append_eq_nil_iff.mp hplaces.nil_eq.symm).2

/-- An operation with one completion has had none when one is reaped. -/
theorem Sound.answers_eq_nil (h : l.Sound) {sqe : Sqe} (hstarted : l.started = some sqe)
    (hmultishot : sqe.multishot = false) (hfirst : ∀ a ∈ l.answers, a.last = false) :
    l.answers = [] := by
  apply List.eq_nil_iff_forall_not_mem.mpr
  intro a ha
  have heq := Option.some.inj (hstarted.symm.trans (h.answers a ha))
  have hlast := hfirst a ha
  simp [Cqe.last, ← heq, hmultishot] at hlast

/-- A completion that finds no entry delivers no descriptor. -/
theorem fds_eq_nil_of_answerNone {cqe : Cqe} (hsound : l.Sound) (haccounted : l.Accounted)
    (hstreams : l.Streams OrphanedOp.accepts) (hguard : l.AcceptsHeld (.reap cqe))
    (hheld : l.held = none) (hstarted : l.started = some cqe.sqe)
    (hfirst : ∀ a ∈ l.answers, a.last = false) : cqe.fds = [] := by
  by_contra hne
  obtain ⟨hopcode, hres⟩ : cqe.sqe.opcode = .accept ∧ 0 ≤ cqe.res := by
    by_contra hnot
    exact hne (if_neg hnot)
  cases hmultishot : cqe.sqe.multishot with
  | false =>
    have hsome := hguard hopcode hmultishot hres
    simp [hheld] at hsome
  | true =>
    obtain ⟨op, hop⟩ := List.exists_mem_of_ne_nil _ (haccounted (by simp [hstarted]) hheld)
    obtain ⟨sqe, hstarted', hstarts⟩ := hsound.released op hop
    obtain rfl : cqe.sqe = sqe := Option.some.inj (hstarted.symm.trans hstarted')
    have hfinished := hstreams.released op hop ((hstarts.accepts hopcode).trans hmultishot)
    simp [finished_eq_false hfirst] at hfinished

theorem Descriptors.step (h : l.Descriptors) (hsound : l.Sound) (haccounted : l.Accounted)
    (hstreams : l.Streams OrphanedOp.accepts) (hdrops : l.DropsEmpty k)
    (haccepts : l.AcceptsHeld k) (hstep : Step l k l') : l'.Descriptors := by
  cases hstep with
  | start _ hfresh =>
    refine ⟨?_, by simp [Life.new]⟩
    simp [Life.new, delivered, waiting, OpState.unclaimedFds_fresh hfresh]
  | register hop => exact h.setOp hop rfl rfl
  | @pop _ op m event events hop hm hevents =>
    have hresult := hsound.result op hop (by simp [hm])
    have hfds : op.unclaimedFds = event.fds ++ events.flatMap MultishotEvent.fds := by
      simp [OpState.unclaimedFds_stream hm hresult, hevents]
    refine ⟨?_, fun hended op' hop' => ?_⟩
    · have hplaces := h.places
      simp only [waiting, hop, Option.elim_some, hfds] at hplaces
      have hwaiting : waiting { l with
          op := some { op with multishot := some { m with events := events } }
          transferred := l.transferred ++ event.fds } = events.flatMap MultishotEvent.fds := by
        simp [waiting, OpState.unclaimedFds, hresult]
      rw [hwaiting]
      calc l.delivered
        _ ~ l.transferred ++ l.closed ++ (event.fds ++ events.flatMap MultishotEvent.fds) := hplaces
        _ = l.transferred ++ (l.closed ++ event.fds) ++ events.flatMap MultishotEvent.fds := by
          simp only [List.append_assoc]
        _ ~ l.transferred ++ (event.fds ++ l.closed) ++ events.flatMap MultishotEvent.fds :=
          (List.perm_append_comm.append_left _).append_right _
        _ = l.transferred ++ event.fds ++ l.closed ++ events.flatMap MultishotEvent.fds := by
          simp only [List.append_assoc]
    · cases hop'
      obtain ⟨-, hnil⟩ := h.ended hended op hop
      rw [hfds, List.append_eq_nil_iff] at hnil
      exact ⟨rfl, by simp [OpState.unclaimedFds, hresult, hnil.2]⟩
  | @take _ op result hop hm hresult =>
    refine h.unset (acceptedFd (result, op.resource)) [] hop rfl rfl rfl ?_ ?_
    · simp
    · simp [OpState.unclaimedFds_single hm hresult]
  | @check _ op m hop hm hfinished =>
    refine ⟨h.places, fun _ op' hop' => ?_⟩
    obtain rfl : op = op' := Option.some.inj (hop.symm.trans hop')
    have hresult := hsound.result op hop (by simp [hm])
    simp only [MultishotState.finished, Bool.and_eq_true, List.isEmpty_iff] at hfinished
    exact ⟨by simp [hm], by simp [OpState.unclaimedFds_stream hm hresult, hfinished.1.2]⟩
  | @finish _ op hop _ hended =>
    refine h.unset [] [] hop rfl rfl ?_ ?_ ?_
    · simp
    · simp
    · exact (h.ended hended op hop).2
  | @dropComplete _ op u hop =>
    refine h.unset [] op.unclaimedFds hop rfl rfl ?_ ?_ ?_
    · simp
    · rfl
    · simp
  | @dropToOrphan _ op u hop hcomplete =>
    have hfds : op.unclaimedFds = [] := by
      simpa [DropsEmpty, hop, hcomplete] using hdrops
    refine h.unset [] [] hop rfl rfl ?_ ?_ ?_
    · simp
    · simp
    · exact hfds
  | refill => exact ⟨h.places, h.ended⟩
  | @request _ _ sqe =>
    cases hop : l.op with
    | none => exact ⟨by simpa [waiting, hop, delivered] using h.places, fun _ => by simp⟩
    | some op =>
      have hset : Descriptors { l with op := some (op.setCleanup sqe.userData) } :=
        h.setOp hop (by simp [OpState.setCleanup, OrphanedOp.setCleanup])
          (OpState.unclaimedFds_setCleanup _)
      exact ⟨hset.places, hset.ended⟩
  | @answer _ op cqe hop hstarted hfirst =>
    obtain ⟨sqe, hstarted', hstarts⟩ := hsound.op op hop
    obtain rfl : cqe.sqe = sqe := Option.some.inj (hstarted.symm.trans hstarted')
    have hplaces := h.places
    simp only [waiting, hop, Option.elim_some] at hplaces
    cases hm : op.multishot with
    | some m =>
      have hfds := OpState.unclaimedFds_answered_stream hm (hsound.result op hop (by simp [hm])) hstarts
      refine ⟨?_, fun hended op' hop' => ?_⟩
      · simp only [delivered, waiting, Option.elim_some, hfds, List.flatMap_append,
          List.flatMap_singleton]
        rw [← List.append_assoc]
        exact hplaces.append_right _
      · cases hop'
        have hnil : cqe.fds = [] := by
          apply Cqe.fds_of_opcode
          intro hopcode
          have haccepting : op.toOrphanedOp.accepts = true := by
            rw [hstarts.accepts hopcode]
            obtain ⟨-, -, -, hrest⟩ := hstarts
            rw [hm] at hrest
            exact hrest.1
          have hfinished := hstreams.op op hop haccepting (hstreams.ended hended op hop haccepting)
          simp [finished_eq_false hfirst] at hfinished
        rw [hfds, hnil, (h.ended hended op hop).2]
        simp [OpState.answered, hm]
    | none =>
      have hfds := OpState.unclaimedFds_answered_single hm hstarts
      have hmultishot : cqe.sqe.multishot = false := by
        obtain ⟨-, -, -, hrest⟩ := hstarts
        simp only [hm] at hrest
        exact hrest.1
      have hanswers := hsound.answers_eq_nil hstarted hmultishot hfirst
      have hnil := h.waiting_eq_nil hanswers
      refine ⟨?_, fun hended op' hop' => ?_⟩
      · simp only [waiting, hop, Option.elim_some] at hnil
        simp only [hnil, List.append_nil] at hplaces
        simp only [delivered, waiting, Option.elim_some, hfds, List.flatMap_append,
          List.flatMap_singleton]
        exact hplaces.append_right _
      · have := (h.ended hended op hop).1
        simp [hm] at this
  | @answerOrphan _ op cqe hop horphan hstarted =>
    obtain ⟨sqe, hstarted', hstarts⟩ := hsound.orphan op horphan
    obtain rfl : cqe.sqe = sqe := Option.some.inj (hstarted.symm.trans hstarted')
    refine h.answer hop hop rfl rfl ?_
    simp [OrphanedOp.unclaimedFds_eq hstarts]
  | @answerNone _ cqe hop horphan hstarted hfirst =>
    have hheld : l.held = none := by simp [Life.held, hop, horphan]
    have hnil := fds_eq_nil_of_answerNone hsound haccounted hstreams haccepts hheld hstarted hfirst
    refine h.answer hop hop rfl rfl ?_
    simp [hnil]
  | cancelled => exact ⟨h.places, h.ended⟩
  | @provideFailed _ op cqe _ _ _ hop =>
    refine h.setOp hop ?_ (OpState.unclaimedFds_provideFailed cqe.res)
    exact isSome_of_shape (op.provideFailed_shape cqe.res)
  | @cleanup _ op cqe _ _ hop =>
    have hset : Descriptors { l with op := some (op.cleaned cqe.res) } :=
      h.setOp hop (isSome_of_shape (op.cleaned_shape cqe.res)) (OpState.unclaimedFds_cleaned cqe.res)
    exact ⟨hset.places, hset.ended⟩
  | cleanupOrphan | cleanupNone => exact ⟨h.places, h.ended⟩

end Life

/-- The descriptors that completions have delivered, with their operations. -/
def Ring.delivered (r : Ring) : List (ℕ × ℕ) :=
  r.io.reaped.flatMap fun cqe => cqe.fds.map (cqe.userData, ·)

theorem count_fdsOf (u fd : ℕ) (fds : List (ℕ × ℕ)) :
    (fdsOf u fds).count fd = fds.count (u, fd) := by
  induction fds with
  | nil => rfl
  | cons a fds ih =>
    obtain ⟨w, fd'⟩ := a
    by_cases hw : w = u
    · subst hw
      simp_all [fdsOf, List.count_cons]
    · simp_all [fdsOf]

/-- Descriptors that are the same for every operation are the same. -/
theorem perm_of_fdsOf {a b : List (ℕ × ℕ)} (h : ∀ u, fdsOf u a ~ fdsOf u b) : a ~ b := by
  rw [List.perm_iff_count]
  rintro ⟨u, fd⟩
  rw [← count_fdsOf, ← count_fdsOf]
  exact (h u).count_eq fd

theorem fdsOf_delivered (r : Ring) (u : ℕ) : fdsOf u r.delivered = (r.table.life u).delivered := by
  simp only [Ring.delivered, Life.delivered, Table.life, Ring.table]
  induction r.io.reaped with
  | nil => rfl
  | cons cqe reaped ih =>
    have happend := fdsOf_append u cqe.userData [] cqe.fds
    rw [List.nil_append] at happend
    have hcons : ∀ a b : List (ℕ × ℕ), fdsOf u (a ++ b) = fdsOf u a ++ fdsOf u b := by
      intro a b
      simp [fdsOf]
    rw [List.flatMap_cons, hcons, ih, happend, List.filter_cons]
    by_cases hu : cqe.userData = u
    · by_cases hcontrol : cqe.sqe.opcode.control = true
      · have hnil : cqe.fds = [] := by
          apply Cqe.fds_of_opcode
          intro hopcode
          simp [hopcode, Opcode.control] at hcontrol
        simp [Sqe.startsAs, hcontrol, hnil, fdsOf]
      · have huser : cqe.sqe.userData = u := hu
        simp [Sqe.startsAs, hcontrol, huser, hu, fdsOf]
    · have huser : cqe.sqe.userData ≠ u := hu
      simp [Sqe.startsAs, huser, hu, fdsOf]

namespace System
variable {sqEntries futures : ℕ} {sqpoll : Bool} {s : System}

theorem descriptors_accounted
    (h : Reachable System.step (allows (guards fun l k => l.DropsEmpty k ∧ l.AcceptsHeld k))
      (.new sqEntries sqpoll futures) s)
    (hb : s.ring.allocated < 2 ^ 64) (hfutures : ∀ i, s.future i = none) :
    s.ring.delivered ~ s.ring.transferred ++ s.ring.closed := by
  obtain ⟨hrouted, hlives⟩ := lives_of_reachable
    (I := fun l => l.Descriptors ∧ l.Streams OrphanedOp.accepts ∧ l.Accounted)
    (fun _ => ⟨trivial, trivial⟩) ⟨.new, .new, fun hstarted => absurd rfl hstarted⟩
    (fun l k l' hsound hI hguard hstep =>
      ⟨hI.1.step hsound hI.2.2 hI.2.1 hguard.1 hguard.2 hstep, hI.2.1.step_accepts hsound hstep,
        hI.2.2.step hstep⟩) h hb
  apply perm_of_fdsOf
  intro u
  have hop : (s.ring.table.life u).op = none := by
    by_contra hsome
    obtain ⟨op, hop⟩ := Option.ne_none_iff_exists'.mp hsome
    obtain ⟨i, f, hf, -⟩ := hrouted.owned u op hop
    simp [hfutures] at hf
  have hplaces := (hlives u).2.1.places
  simp only [Life.waiting, hop, Option.elim_none, List.append_nil] at hplaces
  rw [fdsOf_delivered]
  simpa [fdsOf, Table.life, Ring.table] using hplaces

theorem future_eq_none (h : (s.slots.all fun slot => slot.future.isNone) = true) (i : ℕ) :
    s.future i = none := by
  by_contra hsome
  obtain ⟨f, hf⟩ := Option.ne_none_iff_exists'.mp hsome
  obtain ⟨slot, hslot, hslot'⟩ := Option.bind_eq_some_iff.mp hf
  have := List.all_eq_true.mp h slot (List.mem_of_getElem? hslot)
  simp [hslot'] at this

/-- A stream that hands out one descriptor and is dropped while another one is on its way. -/
theorem dropped_accept_closed :
    ∃ s, Reachable System.step (allows (guards fun l k => l.DropsEmpty k ∧ l.AcceptsHeld k))
        (.new 8 false 1) s ∧
      s.ring.transferred = [(1, 9)] ∧ s.ring.closed = [(1, 10)] ∧
      s.ring.delivered ~ s.ring.transferred ++ s.ring.closed := by
  have hrun : (run (guarded System.step
      (allows (guards fun l k => l.DropsEmpty k ∧ l.AcceptsHeld k))) (.new 8 false 1)
      [.client 0 (.start 0 (.acceptMultishot 3) 7), .client 0 (.submit (some 1)), .post 0 9 2,
        .reapBegin, .reapCqe, .reapEnd, .client 0 (.poll 7), .client 0 (.drop 0), .post 0 10 2,
        .client 0 .cancel, .client 0 (.submit (some 1)), .post 0 (-125) 0, .post 0 0 0, .reapBegin,
        .reapCqe, .reapCqe, .reapCqe, .reapEnd]).any (fun s =>
          decide (s.ring.allocated < 2 ^ 64) && (s.slots.all fun slot => slot.future.isNone) &&
          decide (s.ring.transferred = [(1, 9)]) && decide (s.ring.closed = [(1, 10)])) = true := by
    decide +kernel
  obtain ⟨s, hreach, hs⟩ := exists_reachable_of_run hrun
  simp only [Bool.and_eq_true, decide_eq_true_eq] at hs
  obtain ⟨⟨⟨hb, hfutures⟩, htransferred⟩, hclosed⟩ := hs
  exact ⟨s, hreach, htransferred, hclosed,
    descriptors_accounted hreach hb (future_eq_none hfutures)⟩

/-- A stream is dropped with a descriptor in its events: `orphan` closes the queued descriptors of
a terminal stream only, and nothing looks at the events of an orphan. -/
theorem queued_accept_leaked :
    ¬ ∀ s, Reachable System.step anyStep (.new 8 false 1) s → s.ring.allocated < 2 ^ 64 →
      (∀ i, s.future i = none) → s.ring.delivered ~ s.ring.transferred ++ s.ring.closed := by
  intro h
  have hrun : (run (guarded System.step anyStep) (.new 8 false 1)
      [.client 0 (.start 0 (.acceptMultishot 3) 7), .client 0 (.submit (some 1)), .post 0 9 2,
        .reapBegin, .reapCqe, .reapEnd, .client 0 (.drop 0), .client 0 .cancel,
        .client 0 (.submit (some 1)), .post 0 (-125) 0, .post 0 0 0, .reapBegin, .reapCqe, .reapCqe,
        .reapEnd]).any (fun s => decide (s.ring.allocated < 2 ^ 64) &&
          (s.slots.all fun slot => slot.future.isNone) && decide (s.ring.delivered = [(1, 9)]) &&
          decide (s.ring.transferred = []) && decide (s.ring.closed = [])) = true := by
    decide +kernel
  obtain ⟨s, hreach, hs⟩ := exists_reachable_of_run hrun
  simp only [Bool.and_eq_true, decide_eq_true_eq] at hs
  obtain ⟨⟨⟨⟨hb, hfutures⟩, hdelivered⟩, htransferred⟩, hclosed⟩ := hs
  have hperm := h s hreach hb (future_eq_none hfutures)
  rw [hdelivered, htransferred, hclosed] at hperm
  exact absurd hperm.length_eq (by decide)

end System

end Eddy.Uring
