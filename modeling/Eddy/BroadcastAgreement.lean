import Eddy.BroadcastClose

/-!
# Trying to receive and polling

`try_recv` tests whether the channel is closed before it looks for values, `poll` afterwards. So
the two agree until the senders are gone and the handles are settled; from then on only a receiver
that has read everything is told the same by both.
-/

namespace Eddy.Broadcast
open Interleaving

variable {α : Type}

/-- What `try_recv` has to return where a poll returns this. -/
def Poll.asTryRecv : Poll α → TryRecv α
  | .pending => .error .empty
  | .ok value => .ok value
  | .error .closed => .error .closed
  | .error (.lagged n) => .error (.lagged n)

namespace State
variable {s : State α} {capacity strongCount id cursor waker : ℕ}

/-- While the channel does not count as closed, both look for a value and then find nothing. -/
theorem poll_agrees_of_open (h : strongCount ≠ s.receivers.length) {result : Poll α}
    {s' : State α} {cursor' : ℕ}
    (hpoll : s.poll capacity strongCount id cursor waker = some (result, s', cursor')) :
    ∃ s'', s.tryRecv capacity strongCount id cursor = some (result.asTryRecv, s'', cursor') := by
  simp only [State.poll, if_neg h] at hpoll
  simp only [State.tryRecv, if_neg h]
  by_cases hlagged : cursor < s.firstSeq capacity
  · rw [if_pos hlagged] at hpoll ⊢
    cases hpoll
    exact ⟨_, rfl⟩
  rw [if_neg hlagged] at hpoll ⊢
  by_cases hlt : cursor < s.nextSeq
  · rw [if_pos hlt] at hpoll ⊢
    obtain ⟨value, hvalue, heq⟩ := Option.map_eq_some_iff.mp hpoll
    cases heq
    rw [hvalue]
    exact ⟨_, rfl⟩
  · rw [if_neg hlt] at hpoll ⊢
    cases hpoll
    exact ⟨_, rfl⟩

theorem tryRecv_closed (h : strongCount = s.receivers.length) (capacity id cursor : ℕ) :
    s.tryRecv capacity strongCount id cursor = some (.error .closed, s, cursor) := if_pos h

/-- A poll finds the channel closed only after everything was read. -/
theorem poll_closed_iff (h : strongCount = s.receivers.length) {result : Poll α} {s' : State α}
    {cursor' : ℕ} (hpoll : s.poll capacity strongCount id cursor waker = some (result, s', cursor')) :
    result.asTryRecv = .error .closed ∧ cursor' = cursor ↔ s.nextSeq ≤ cursor := by
  simp only [State.poll, if_pos h] at hpoll
  have hfirst : s.firstSeq capacity ≤ s.nextSeq := Nat.sub_le _ _
  by_cases hlagged : cursor < s.firstSeq capacity
  · rw [if_pos hlagged] at hpoll
    cases hpoll
    have hlt : cursor < s.nextSeq := hlagged.trans_le hfirst
    simp [Poll.asTryRecv, hlt]
  rw [if_neg hlagged] at hpoll
  by_cases hlt : cursor < s.nextSeq
  · rw [if_pos hlt] at hpoll
    obtain ⟨value, -, heq⟩ := Option.map_eq_some_iff.mp hpoll
    cases heq
    simp [Poll.asTryRecv, hlt]
  · rw [if_neg hlt] at hpoll
    cases hpoll
    simpa [Poll.asTryRecv] using Nat.le_of_not_lt hlt

end State

namespace System
variable {capacity : ℕ} {s : System α} {i : ℕ} {r : Receiver α}

/-- `try_recv` returns what a poll returns, and leaves the same cursor. -/
def Agrees (s : System α) (r : Receiver α) : Prop :=
  ∀ waker, ∃ result polled tried cursor,
    s.state.poll s.capacity s.strongCount r.id r.cursor waker = some (result, polled, cursor) ∧
      s.state.tryRecv s.capacity s.strongCount r.id r.cursor =
        some (result.asTryRecv, tried, cursor)

theorem not_agrees {waker : ℕ} {result : Poll α} {tried : TryRecv α}
    (hpoll : (s.state.poll s.capacity s.strongCount r.id r.cursor waker).map Prod.fst = some result)
    (htried : (s.state.tryRecv s.capacity s.strongCount r.id r.cursor).map Prod.fst = some tried)
    (hne : tried ≠ result.asTryRecv) : ¬ s.Agrees r := by
  intro hagrees
  obtain ⟨result', polled, tried', cursor, hpoll', htried'⟩ := hagrees waker
  rw [hpoll'] at hpoll
  rw [htried'] at htried
  obtain rfl : result' = result := Option.some.inj hpoll
  exact hne (Option.some.inj htried).symm

/-- There is a sender, a receiver is in its clone or in its drop, or the receiver has read
everything. -/
def HearsAlike (s : System α) (r : Receiver α) : Prop :=
  0 < s.senders ∨ s.settled = false ∨ s.state.nextSeq ≤ r.cursor

theorem Slotted.strongCount_eq_iff (h : s.Slotted) :
    s.strongCount = s.state.receivers.length ↔ s.senders = 0 ∧ s.settled = true := by
  refine ⟨fun heq => ?_, fun ⟨hsenders, hsettled⟩ => h.strongCount_eq hsenders hsettled⟩
  have hlength := h.slots.length_eq
  rw [List.length_map, List.length_filterMap_eq_countP] at hlength
  have hlive : s.receivers.countP (fun r => (slotId r).isSome) =
      s.receivers.countP fun r => r.phase ≠ .dropped && r.phase = .live := by
    apply List.countP_congr
    intro r _
    by_cases hphase : r.phase = .live <;> simp [slotId, hphase]
  have hsplit := List.countP_eq_countP_filter_add s.receivers
    (fun r => decide (r.phase ≠ .dropped)) fun r => decide (r.phase = .live)
  rw [List.countP_filter, List.countP_filter] at hsplit
  rw [strongCount, hlength, hlive, hsplit] at heq
  refine ⟨by omega, List.all_eq_true.mpr fun r hr => ?_⟩
  have hnone := List.countP_eq_zero.mp (show s.receivers.countP (fun r =>
    decide (r.phase ≠ .dropped) && !decide (r.phase = .live)) = 0 by omega) r hr
  have hphase : r.phase ≠ .dropped → r.phase = .live := by simpa using hnone
  by_cases hdropped : r.phase = .dropped
  · simp [hdropped]
  · simp [hphase hdropped]

theorem Slotted.hearsAlike_iff (h : s.Slotted) (r : Receiver α) : s.HearsAlike r ↔
    s.strongCount ≠ s.state.receivers.length ∨ s.state.nextSeq ≤ r.cursor := by
  rw [HearsAlike, ← or_assoc, Ne, h.strongCount_eq_iff, not_and_or, Nat.pos_iff_ne_zero,
    Bool.not_eq_true]

/-- A receiver is given what was sent from its first cursor on, once and in order, and is told that
there is nothing more only when that is so, just when `try_recv` may not say `Closed` too early. -/
theorem outputs_reconstruct_iff {init : System α} (hinit : channel α capacity = some init)
    (hs : Reachable System.step anyStep init s) (hr : s.receiver i .live = some r) :
    s.capacity = capacity ∧ (s.Streams r ↔ s.HearsAlike r) := by
  simp only [Broadcast.channel, Option.ite_none_right_eq_some, Option.some.injEq] at hinit
  obtain ⟨hcapacity, rfl⟩ := hinit
  obtain ⟨hsound, hslotted⟩ := sound_slotted hcapacity hs
  rw [hslotted.hearsAlike_iff]
  exact ⟨hsound.capacity.2, hsound.streams_iff (List.mem_of_getElem? (receiver_eq_some hr).1)⟩

/-- The first receiver lags behind, its clone does not. -/
theorem outputs_reconstruct_lagged : ∃ init s : System ℕ, ∃ r₀ r₁, channel ℕ 2 = some init ∧
    Reachable System.step anyStep init s ∧ s.receiver 0 .live = some r₀ ∧
    s.receiver 1 .live = some r₁ ∧ r₀.outputs.map Prod.fst = [.lagged 1, .value 11] ∧
    r₁.outputs.map Prod.fst = [.value 11, .value 12] ∧ s.Streams r₀ ∧ s.Streams r₁ := by
  have hinit : channel ℕ 2 = some (.new 2) := rfl
  have hrun : (run (guarded System.step anyStep) (.new 2)
      [.send 10, .cloneReceiver 0, .number 1, .place 1, .registerSlot 1, .send 11, .tryRecv 1,
        .poll 1 true 7, .send 12, .poll 0 true 8, .tryRecv 0, .poll 1 true 7]).any
      (fun s => decide (0 < s.senders ∧
        (s.receiver 0 .live).map (fun r => r.outputs.map Prod.fst) =
          some [.lagged 1, .value 11] ∧
        (s.receiver 1 .live).map (fun r => r.outputs.map Prod.fst) =
          some [.value 11, .value 12])) = true := by decide +kernel
  obtain ⟨s, hreach, hs⟩ := exists_reachable_of_run hrun
  obtain ⟨hsenders, hfirst, hclone⟩ := of_decide_eq_true hs
  obtain ⟨r₀, hr₀, houtputs₀⟩ := Option.map_eq_some_iff.mp hfirst
  obtain ⟨r₁, hr₁, houtputs₁⟩ := Option.map_eq_some_iff.mp hclone
  exact ⟨_, s, r₀, r₁, hinit, hreach, hr₀, hr₁, houtputs₀, houtputs₁,
    (outputs_reconstruct_iff hinit hreach hr₀).2.mpr (.inl hsenders),
    (outputs_reconstruct_iff hinit hreach hr₁).2.mpr (.inl hsenders)⟩

/-- Two values are sent and the sender dropped: `try_recv` gives the receiver neither of them. -/
theorem closed_ends_outputs : ∃ init s : System ℕ, ∃ r, channel ℕ 2 = some init ∧
    Reachable System.step anyStep init s ∧ s.receiver 0 .live = some r ∧ s.sent = [10, 11] ∧
    r.outputs = [] ∧ ¬ s.Streams r := by
  have hinit : channel ℕ 2 = some (.new 2) := rfl
  have hrun : (run (guarded System.step anyStep) (.new 2)
      [.send 10, .send 11, .dropSender, .tryRecv 0, .tryRecv 0, .tryRecv 0]).any
      (fun s => decide (s.sent = [10, 11]) && (s.receiver 0 .live).any fun r =>
        decide (r.outputs = [] ∧ r.cursor = 0 ∧
          (s.state.tryRecv s.capacity s.strongCount r.id r.cursor).map (·.1.output) =
            some none)) = true := by decide +kernel
  obtain ⟨s, hreach, hs⟩ := exists_reachable_of_run hrun
  obtain ⟨hsent, hr⟩ := (Bool.and_eq_true _ _).mp hs
  obtain ⟨r, hr, hread⟩ := (Option.any_eq_true _ _).mp hr
  obtain ⟨houtputs, hcursor, htried⟩ := of_decide_eq_true hread
  have hsent := of_decide_eq_true hsent
  refine ⟨_, s, r, hinit, hreach, hr, hsent, houtputs, fun hstreams => ?_⟩
  obtain ⟨result, state, cursor, htry, hall⟩ := hstreams.tryRecv
  rw [htry] at htried
  have hlength := hall (Option.some.inj htried)
  rw [hsent, hcursor] at hlength
  cases hlength

theorem agrees_iff {init : System α} (hinit : channel α capacity = some init)
    (hs : Reachable System.step anyStep init s) (hr : s.receiver i .live = some r) :
    s.Agrees r ↔ s.HearsAlike r := by
  simp only [Broadcast.channel, Option.ite_none_right_eq_some, Option.some.injEq] at hinit
  obtain ⟨hcapacity, rfl⟩ := hinit
  obtain ⟨hsound, hslotted⟩ := sound_slotted hcapacity hs
  have hpolls := hsound.polls (List.mem_of_getElem? (receiver_eq_some hr).1)
  rw [hslotted.hearsAlike_iff]
  by_cases hclosed : s.strongCount = s.state.receivers.length
  · have htry := State.tryRecv_closed hclosed s.capacity r.id r.cursor
    constructor
    · intro hagrees
      obtain ⟨result, polled, tried, cursor, hpoll, htried⟩ := hagrees 0
      rw [htry, Option.some.injEq, Prod.mk.injEq, Prod.mk.injEq] at htried
      obtain ⟨hresult, -, hcursor⟩ := htried
      exact .inr ((State.poll_closed_iff hclosed hpoll).mp ⟨hresult.symm, hcursor.symm⟩)
    · intro hread waker
      have hread := hread.resolve_left (not_not.mpr hclosed)
      obtain ⟨result, polled, cursor, hpoll, -⟩ := hpolls waker
      obtain ⟨hresult, rfl⟩ := (State.poll_closed_iff hclosed hpoll).mpr hread
      exact ⟨result, polled, _, _, hpoll, by rw [htry, hresult]⟩
  · refine iff_of_true (fun waker => ?_) (.inl hclosed)
    obtain ⟨result, polled, cursor, hpoll, -⟩ := hpolls waker
    obtain ⟨tried, htried⟩ := State.poll_agrees_of_open hclosed hpoll
    exact ⟨result, polled, tried, cursor, hpoll, htried⟩

/-- The last sender is gone, and the receiver had read everything. -/
theorem agrees_after_last_value : ∃ init s : System ℕ, ∃ r, channel ℕ 2 = some init ∧
    Reachable System.step anyStep init s ∧ s.receiver 0 .live = some r ∧ s.senders = 0 ∧
    s.Agrees r := by
  have hinit : channel ℕ 2 = some (.new 2) := rfl
  have hrun : (run (guarded System.step anyStep) (.new 2)
      [.send 10, .poll 0 true 7, .dropSender]).any (fun s => decide (s.senders = 0 ∧
        ((s.receiver 0 .live).map fun r => r.cursor) = some s.state.nextSeq)) = true := by
    decide +kernel
  obtain ⟨s, hreach, hs⟩ := exists_reachable_of_run hrun
  obtain ⟨hsenders, hcursor⟩ := of_decide_eq_true hs
  obtain ⟨r, hr, hread⟩ := Option.map_eq_some_iff.mp hcursor
  have hread : s.state.nextSeq ≤ r.cursor := hread.ge
  exact ⟨_, s, r, hinit, hreach, hr, hsenders, (agrees_iff hinit hreach hr).mpr (.inr (.inr hread))⟩

/-- A value is sent and the sender dropped: a poll returns the value, `try_recv` says `Closed`. -/
theorem closed_hides_value : ∃ init s : System ℕ, ∃ r, channel ℕ 2 = some init ∧
    Reachable System.step anyStep init s ∧ s.receiver 0 .live = some r ∧
    (s.state.poll s.capacity s.strongCount r.id r.cursor 7).map Prod.fst = some (.ok 10) ∧
    (s.state.tryRecv s.capacity s.strongCount r.id r.cursor).map Prod.fst =
      some (.error .closed) ∧ ¬ s.Agrees r := by
  have hinit : channel ℕ 2 = some (.new 2) := rfl
  have hrun : (run (guarded System.step anyStep) (.new 2) [.send 10, .dropSender]).any
      (fun s => (s.receiver 0 .live).any fun r => decide (
        (s.state.poll s.capacity s.strongCount r.id r.cursor 7).map Prod.fst = some (.ok 10) ∧
        (s.state.tryRecv s.capacity s.strongCount r.id r.cursor).map Prod.fst =
          some (.error .closed))) = true := by decide +kernel
  obtain ⟨s, hreach, hs⟩ := exists_reachable_of_run hrun
  obtain ⟨r, hr, hboth⟩ := (Option.any_eq_true _ _).mp hs
  obtain ⟨hpoll, htried⟩ := of_decide_eq_true hboth
  exact ⟨_, s, r, hinit, hreach, hr, hpoll, htried, not_agrees hpoll htried nofun⟩

end System
end Eddy.Broadcast
