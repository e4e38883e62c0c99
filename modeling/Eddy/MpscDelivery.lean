import Eddy.MpscRuns

/-!
# Accepted items are delivered

An item that was accepted is delivered if the receiver is polled often enough, and `recv` returns
`None` only when nothing more can be accepted. This holds as long as `recv` does not end the
channel under a live `Permit` and is not polled again after its end.
-/

namespace Eddy.Mpsc
open Interleaving

universe u
variable {α : Type u}

namespace System
variable {s s' t : System α} {capacity : Option ℕ}

/-- Whether a step is a poll of `recv` that looks at the channel. -/
def isRecv : Label α → Bool
  | .recv true _ => true
  | _ => false

/-- What it means that the items which were accepted are delivered. -/
structure Delivers (guard : System α → Label α → Prop) [∀ s a, Decidable (guard s a)]
    (s : System α) : Prop where
  /-- Every item in the queue is returned once `recv` was polled often enough. -/
  delivered : ∀ as t, run (guarded System.step guard) s as = some t →
    s.state.queue.length ≤ as.countP isRecv → s.accepted <+: t.delivered
  /-- After `None` nothing more is accepted, and all that was accepted has been delivered. -/
  ended : s.receiver = .ended → ∀ as t, run (guarded System.step guard) s as = some t →
    t.accepted = s.delivered
  panicked : s.panicked = false

/-- `recv` does not return `None` while a `Permit` is live, and is not polled after `None`. -/
def EndsClean (s : System α) : Label α → Prop
  | .recv true _ => s.receiver ≠ .ended ∧
      (s.state.queue = [] → s.state.senders = 0 → s.permits = 0)
  | _ => True

instance (s : System α) : (a : Label α) → Decidable (s.EndsClean a)
  | .recv true _ => inferInstanceAs (Decidable (s.receiver ≠ .ended ∧
      (s.state.queue = [] → s.state.senders = 0 → s.permits = 0)))
  | .recv false _ | .cloneSender .. | .dropSender _ | .send .. | .reserve .. | .trySend ..
  | .poll .. | .dropFuture _ | .permitSend _ | .dropPermit | .dropReceiver => .isTrue trivial

theorem accepted_mono {a : Label α} (hstep : s.step a = some s') : s.accepted <+: s'.accepted := by
  cases Steps.of_eq hstep with
  | trySend | permitSend => exact List.prefix_append ..
  | poll =>
    dsimp only
    split_ifs
    · exact List.prefix_append ..
    · exact List.prefix_refl _
  | cloneSender | dropSender | send | reserve | refused | yieldPoll | dropFuture | permitClosed
  | dropPermit | recvItem | recvNone | recvPending | recvPanics | yieldRecv | dropReceiver
  | dropEnded => exact List.prefix_refl _

/-- A poll of `recv` delivers an item if there is one. -/
theorem delivered_step {a : Label α} (hempty : s.receiver = .ended → s.state.queue = [])
    (hstep : s.step a = some s') :
    s.delivered.length ≤ s'.delivered.length ∧
      (isRecv a = true → s.state.queue ≠ [] → s.delivered.length < s'.delivered.length) := by
  cases Steps.of_eq hstep with
  | recvItem => simp
  | recvNone _ hnil | recvPending _ hnil => exact ⟨Nat.le_refl _, fun _ hne => absurd hnil hne⟩
  | recvPanics hended => exact ⟨Nat.le_refl _, fun _ hne => absurd (hempty hended) hne⟩
  | cloneSender | dropSender | send | reserve | refused | trySend | poll | yieldPoll | dropFuture
  | permitSend | permitClosed | dropPermit | yieldRecv | dropReceiver | dropEnded =>
    exact ⟨Nat.le_refl _, nofun⟩

/-- Nobody is left who could send. -/
def Closed (s : System α) : Prop := s.state.senders = 0 ∧ s.permits = 0

theorem no_sender (h : Handles capacity s) (hclosed : s.Closed) {k : ℕ} :
    s.senders.get k ≠ some () := by
  intro hk
  have hweight := Slab.weight_remove (fun _ : Unit => 1) hk
  have := h.senders
  rw [hclosed.1] at this
  omega

theorem no_future (h : Handles capacity s) (hclosed : s.Closed) {i : ℕ} {f : Waiting α} :
    s.state.futures.get i ≠ some f :=
  fun hf => no_sender h hclosed (h.borrows i f hf)

theorem Closed.step {a : Label α} (hclosed : s.Closed) (h : Handles capacity s)
    (hstep : s.step a = some s') : s'.Closed ∧ s'.accepted = s.accepted := by
  obtain ⟨hsenders, hpermits⟩ := hclosed
  cases Steps.of_eq hstep with
  | cloneSender hk | dropSender hk | send hk | reserve hk | trySend hk =>
    exact absurd hk (no_sender h ⟨hsenders, hpermits⟩)
  | poll hf | dropFuture hf => exact absurd hf (no_future h ⟨hsenders, hpermits⟩)
  | permitSend hpos | permitClosed hpos | dropPermit hpos => omega
  | recvItem =>
    exact ⟨⟨(State.frame_pop ..).senders.trans hsenders, hpermits⟩, rfl⟩
  | dropReceiver =>
    exact ⟨⟨(State.dropReceiver_frame s.state).1.senders.trans hsenders, hpermits⟩, rfl⟩
  | refused | yieldPoll | recvNone | recvPending | recvPanics | yieldRecv | dropEnded =>
    exact ⟨⟨hsenders, hpermits⟩, rfl⟩

/-- `recv` has returned `None` only when nobody could send, and nothing was left. -/
structure Clean (s : System α) : Prop where
  ended : s.receiver = .ended → s.Closed ∧ s.state.queue = []
  panicked : s.panicked = false

theorem Clean.step {a : Label α} (h : s.Clean) (hhandles : Handles capacity s)
    (hguard : s.EndsClean a) (hstep : s.step a = some s') : s'.Clean := by
  cases Steps.of_eq hstep with
  | recvNone _ hnil hsenders =>
    exact ⟨fun _ => ⟨⟨hsenders, hguard.2 hnil hsenders⟩, hnil⟩, h.panicked⟩
  | recvPanics hended => exact absurd hended hguard.1
  | dropReceiver | dropEnded => exact ⟨nofun, h.panicked⟩
  | recvItem hopened | recvPending hopened =>
    refine ⟨fun hended => ?_, h.panicked⟩
    have : s.receiver = .ended := hended
    simp [hopened] at this
  | cloneSender hk | dropSender hk | send hk | reserve hk | trySend hk =>
    refine ⟨fun hended => ?_, h.panicked⟩
    exact absurd hk (no_sender hhandles (h.ended hended).1)
  | poll hf | dropFuture hf =>
    refine ⟨fun hended => ?_, h.panicked⟩
    exact absurd hf (no_future hhandles (h.ended hended).1)
  | permitSend hpos | permitClosed hpos | dropPermit hpos =>
    refine ⟨fun hended => ?_, h.panicked⟩
    have := (h.ended hended).1.2
    omega
  | refused | yieldPoll | yieldRecv => exact ⟨h.ended, h.panicked⟩

theorem delivered_of_run {as : List (Label α)} {items : List α} (hsound : Sound capacity s)
    (hclean : s.Clean) (hitems : items <+: s.accepted)
    (hlength : items.length ≤ s.delivered.length + as.countP isRecv)
    (hrun : run (guarded System.step EndsClean) s as = some t) : items <+: t.delivered := by
  induction as generalizing s with
  | nil =>
    cases hrun
    rw [hsound.history] at hitems
    exact List.prefix_of_prefix_length_le hitems (List.prefix_append ..) (by simpa using hlength)
  | cons a as ih =>
    obtain ⟨s', hstep, hrun⟩ := Option.bind_eq_some_iff.mp hrun
    obtain ⟨hguard, hstep⟩ := guarded_eq_some hstep
    obtain ⟨hle, hlt⟩ := delivered_step (fun hended => (hclean.ended hended).2) hstep
    refine ih (hsound.step hstep) (hclean.step hsound.toHandles hguard hstep)
      (hitems.trans (accepted_mono hstep)) ?_ hrun
    rw [List.countP_cons] at hlength
    cases hrecv : isRecv a with
    | false =>
      rw [hrecv, if_neg Bool.false_ne_true] at hlength
      omega
    | true =>
      rw [hrecv, if_pos rfl] at hlength
      by_cases hnil : s.state.queue = []
      · have haccepted := hsound.history
        rw [hnil, List.append_nil] at haccepted
        have := hitems.length_le
        rw [haccepted] at this
        omega
      · have := hlt hrecv hnil
        omega

theorem closed_of_run {as : List (Label α)} (hhandles : Handles capacity s) (hclosed : s.Closed)
    (hrun : run (guarded System.step EndsClean) s as = some t) : t.accepted = s.accepted := by
  induction as generalizing s with
  | nil =>
    cases hrun
    rfl
  | cons a as ih =>
    obtain ⟨s', hstep, hrun⟩ := Option.bind_eq_some_iff.mp hrun
    obtain ⟨-, hstep⟩ := guarded_eq_some hstep
    obtain ⟨hclosed', haccepted⟩ := hclosed.step hhandles hstep
    exact (ih (hhandles.step hstep) hclosed' hrun).trans haccepted

theorem accepted_delivered (h : Reachable System.step EndsClean (.new capacity) s) :
    s.Delivers EndsClean := by
  have hsound := sound_of_reachable h
  have hclean : s.Clean := by
    have hinv : Handles capacity s ∧ s.Clean := by
      apply h.invariant (I := fun s => Handles capacity s ∧ s.Clean)
      · exact ⟨.new capacity, nofun, rfl⟩
      · intro s a s' hinv hguard hstep
        exact ⟨hinv.1.step hstep, hinv.2.step hinv.1 hguard hstep⟩
    exact hinv.2
  refine ⟨fun as t hrun hpolls => ?_, fun hended as t hrun => ?_, hclean.panicked⟩
  · refine delivered_of_run hsound hclean (List.prefix_refl _) ?_ hrun
    rw [hsound.history, List.length_append]
    omega
  · obtain ⟨hclosed, hnil⟩ := hclean.ended hended
    have haccepted := hsound.history
    rw [hnil, List.append_nil] at haccepted
    exact (closed_of_run hsound.toHandles hclosed hrun).trans haccepted

/-- A `Permit` that outlives the `Sender`s is used before `recv` finds the channel empty. -/
theorem permit_delivered :
    ∃ s : System ℕ, Reachable System.step EndsClean (.new (some 1)) s ∧ s.receiver = .ended ∧
      s.accepted = [7] ∧ s.Delivers EndsClean := by
  have hrun : (run (guarded System.step EndsClean) (.new (some 1) : System ℕ)
      [.reserve 0 0, .poll 0 true 5, .dropFuture 0, .dropSender 0, .permitSend 7, .recv true 9,
        .recv true 9]).any (fun s => decide (s.receiver = .ended) &&
          decide (s.accepted = [7])) = true := by
    decide +kernel
  obtain ⟨s, hreach, hs⟩ := exists_reachable_of_run hrun
  simp only [Bool.and_eq_true, decide_eq_true_eq] at hs
  exact ⟨s, hreach, hs.1, hs.2, accepted_delivered hreach⟩

/-- `recv` returns `None` under a live `Permit`, whose item is then accepted and lost. -/
theorem permit_item_lost :
    ¬ ∀ s : System ℕ, Reachable System.step anyStep (.new (some 1)) s → s.Delivers anyStep := by
  intro h
  have hrun : (run (guarded System.step anyStep) (.new (some 1) : System ℕ)
      [.reserve 0 0, .poll 0 true 5, .dropFuture 0, .dropSender 0, .recv true 9]).any
        (fun s => decide (s.receiver = .ended) && decide (s.delivered = []) &&
          ((run (guarded System.step anyStep) s [.permitSend 7]).any fun t =>
            decide (t.accepted = [7]))) = true := by
    decide +kernel
  obtain ⟨s, hreach, hs⟩ := exists_reachable_of_run hrun
  simp only [Bool.and_eq_true, decide_eq_true_eq, Option.any_eq_true] at hs
  obtain ⟨⟨hended, hdelivered⟩, t, ht, haccepted⟩ := hs
  have := (h s hreach).ended hended _ t ht
  rw [haccepted, hdelivered] at this
  cases this

end System

end Eddy.Mpsc
