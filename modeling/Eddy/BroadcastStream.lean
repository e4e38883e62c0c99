import Eddy.Broadcast
import Eddy.Holdings

/-!
# What a broadcast receiver is given

The outputs of a receiver account for the sequence numbers from its first cursor to its cursor one
after the other: a value is the one that was sent with the number, and a gap covers numbers that
were no longer among the last `capacity` ones when it was reported.
-/

namespace Eddy.Broadcast
open Interleaving Holdings

variable {α : Type}

/-- The outputs account for the sequence numbers from `c` up to the cursor, in order. -/
def Accounts (capacity : ℕ) (sent : List α) : ℕ → List (Output α × ℕ) → ℕ → Prop
  | c, [], cursor => c = cursor
  | c, (.value value, _) :: outputs, cursor =>
    sent[c]? = some value ∧ Accounts capacity sent (c + 1) outputs cursor
  | c, (.lagged n, sentBefore) :: outputs, cursor =>
    0 < n ∧ c + n + capacity ≤ sentBefore ∧ sentBefore ≤ sent.length ∧
      Accounts capacity sent (c + n) outputs cursor

theorem Accounts.append {capacity : ℕ} {sent : List α} {c cursor cursor' : ℕ}
    {outputs outputs' : List (Output α × ℕ)} (h : Accounts capacity sent c outputs cursor)
    (h' : Accounts capacity sent cursor outputs' cursor') :
    Accounts capacity sent c (outputs ++ outputs') cursor' := by
  induction outputs generalizing c with
  | nil => exact (show c = cursor from h) ▸ h'
  | cons x outputs ih =>
    obtain ⟨output, sentBefore⟩ := x
    cases output with
    | value value => exact ⟨h.1, ih h.2⟩
    | lagged n => exact ⟨h.1, h.2.1, h.2.2.1, ih h.2.2.2⟩

theorem Accounts.send {capacity : ℕ} {sent : List α} {c cursor : ℕ}
    {outputs : List (Output α × ℕ)} (h : Accounts capacity sent c outputs cursor) (value : α) :
    Accounts capacity (sent ++ [value]) c outputs cursor := by
  induction outputs generalizing c with
  | nil => exact h
  | cons x outputs ih =>
    obtain ⟨output, sentBefore⟩ := x
    cases output with
    | value value' =>
      refine ⟨?_, ih h.2⟩
      rw [List.getElem?_append_left (List.getElem?_eq_some_iff.mp h.1).1, h.1]
    | lagged n =>
      refine ⟨h.1, h.2.1, h.2.2.1.trans ?_, ih h.2.2.2⟩
      simp

/-- The buffer holds the last values that were sent, up to its capacity. -/
structure State.Holds (s : State α) (capacity : ℕ) (sent : List α) : Prop where
  nextSeq : s.nextSeq = sent.length
  buffer : s.buffer = sent.drop (sent.length - capacity)

namespace State
variable {s s' : State α} {capacity : ℕ} {sent : List α} {id cursor strongCount waker : ℕ}

theorem Holds.firstSeq (h : s.Holds capacity sent) :
    s.firstSeq capacity = sent.length - capacity := by
  simp only [State.firstSeq, h.nextSeq, h.buffer, List.length_drop]
  omega

theorem Holds.getElem? (h : s.Holds capacity sent) (hfirst : s.firstSeq capacity ≤ cursor) :
    s.buffer[cursor - s.firstSeq capacity]? = sent[cursor]? := by
  rw [h.firstSeq] at hfirst ⊢
  rw [h.buffer, List.getElem?_drop, Nat.add_sub_cancel' hfirst]

theorem Holds.of_eq (h : s.Holds capacity sent) (hbuffer : s'.buffer = s.buffer)
    (hnextSeq : s'.nextSeq = s.nextSeq) : s'.Holds capacity sent :=
  ⟨hnextSeq.trans h.nextSeq, hbuffer.trans h.buffer⟩

theorem modifySlot_eq (s : State α) (id cursor : ℕ) (f : ReceiverSlot → ReceiverSlot) :
    (s.modifySlot id cursor f).buffer = s.buffer ∧
      (s.modifySlot id cursor f).nextSeq = s.nextSeq := by
  unfold modifySlot slotIndex
  cases s.receivers.findIdx? fun slot => slot.id = id <;> exact ⟨rfl, rfl⟩

theorem Holds.modifySlot (h : s.Holds capacity sent) (f : ReceiverSlot → ReceiverSlot) :
    (s.modifySlot id cursor f).Holds capacity sent :=
  h.of_eq (modifySlot_eq s id cursor f).1 (modifySlot_eq s id cursor f).2

theorem Holds.send (h : s.Holds capacity sent) (hcapacity : 0 < capacity) {value : α}
    {wakes : List ℕ} (hsend : s.send capacity value = some (s', wakes)) :
    s'.Holds capacity (sent ++ [value]) := by
  have hreceivers : s.receivers ≠ [] := by
    intro hnil
    simp [State.send, hnil] at hsend
  simp only [State.send, if_neg hreceivers, Option.some.injEq, Prod.mk.injEq] at hsend
  obtain ⟨rfl, rfl⟩ := hsend
  have hbuffer : (if s.buffer.length = capacity then s.buffer.tail else s.buffer) =
      sent.drop (sent.length + 1 - capacity) := by
    rw [h.buffer, List.length_drop]
    split_ifs with hfull
    · rw [List.tail_drop]
      congr 1
      omega
    · congr 1
      omega
  refine ⟨by simp [h.nextSeq], ?_⟩
  rw [hbuffer, List.length_append, List.length_singleton, List.drop_append_of_le_length]
  omega

structure Reads (capacity : ℕ) (sent : List α) (cursor : ℕ) (output : Option (Output α))
    (s' : State α) (cursor' : ℕ) : Prop where
  holds : s'.Holds capacity sent
  accounts : Accounts capacity sent cursor
    (output.map fun output => (output, sent.length)).toList cursor'
  cursor : cursor' ≤ sent.length

theorem Holds.lagged (h : s.Holds capacity sent) (hlt : cursor < s.firstSeq capacity) :
    Reads capacity sent cursor (some (.lagged (s.firstSeq capacity - cursor)))
      (s.setCursor id (s.firstSeq capacity)) (s.firstSeq capacity) := by
  rw [h.firstSeq] at hlt ⊢
  refine ⟨h.modifySlot _, ⟨by omega, by omega, Nat.le_refl _, ?_⟩, by omega⟩
  exact Nat.add_sub_cancel' hlt.le

theorem Holds.value (h : s.Holds capacity sent) (id : ℕ) (hfirst : ¬ cursor < s.firstSeq capacity)
    (hlt : cursor < s.nextSeq) : ∃ value, s.buffer[cursor - s.firstSeq capacity]? = some value ∧
      Reads capacity sent cursor (some (.value value)) (s.setCursor id (cursor + 1))
        (cursor + 1) := by
  rw [h.nextSeq] at hlt
  refine ⟨sent[cursor], ?_, h.modifySlot _, ⟨List.getElem?_eq_getElem hlt, rfl⟩, hlt⟩
  rw [h.getElem? (Nat.le_of_not_lt hfirst), List.getElem?_eq_getElem hlt]

theorem Holds.nothing (h : s.Holds capacity sent) (hcursor : cursor ≤ sent.length) :
    Reads capacity sent cursor none s cursor :=
  ⟨h, rfl, hcursor⟩

/-- `try_recv` does not panic, and gives nothing only when all was read or the channel counts as
closed. -/
theorem Holds.tryRecv (h : s.Holds capacity sent) (hcursor : cursor ≤ sent.length)
    (strongCount id : ℕ) : ∃ result s' cursor',
      s.tryRecv capacity strongCount id cursor = some (result, s', cursor') ∧
      Reads capacity sent cursor result.output s' cursor' ∧
      (result.output = none → strongCount = s.receivers.length ∨ cursor = sent.length) := by
  by_cases hclosed : strongCount = s.receivers.length
  · exact ⟨_, _, _, if_pos hclosed, h.nothing hcursor, fun _ => .inl hclosed⟩
  by_cases hlagged : cursor < s.firstSeq capacity
  · exact ⟨_, _, _, (if_neg hclosed).trans (if_pos hlagged), h.lagged hlagged, nofun⟩
  by_cases hlt : cursor < s.nextSeq
  · obtain ⟨value, hvalue, hreads⟩ := h.value id hlagged hlt
    refine ⟨.ok value, _, _, ?_, hreads, nofun⟩
    simp only [State.tryRecv, hclosed, hlagged, hlt, hvalue, if_true, if_false, Option.map_some]
  · refine ⟨.error .empty, s, cursor, ?_, h.nothing hcursor, fun _ => .inr ?_⟩
    · simp only [State.tryRecv, hclosed, hlagged, hlt, if_false]
    · have := h.nextSeq
      omega

/-- A poll does not panic, and does not return a value or a gap only when all was read. -/
theorem Holds.poll (h : s.Holds capacity sent) (hcursor : cursor ≤ sent.length)
    (strongCount id waker : ℕ) : ∃ result s' cursor',
      s.poll capacity strongCount id cursor waker = some (result, s', cursor') ∧
      Reads capacity sent cursor result.output s' cursor' ∧
      (result.output = none → cursor = sent.length) := by
  have hall : ¬ cursor < s.nextSeq → cursor = sent.length := by
    have := h.nextSeq
    omega
  by_cases hlagged : cursor < s.firstSeq capacity
  · exact ⟨_, _, _, if_pos hlagged, h.lagged hlagged, nofun⟩
  by_cases hlt : cursor < s.nextSeq
  · obtain ⟨value, hvalue, hreads⟩ := h.value id hlagged hlt
    refine ⟨.ok value, _, _, ?_, hreads, nofun⟩
    simp only [State.poll, hlagged, hlt, hvalue, if_true, if_false, Option.map_some]
  by_cases hclosed : strongCount = s.receivers.length
  · refine ⟨.error .closed, s, cursor, ?_, h.nothing hcursor, fun _ => hall hlt⟩
    simp only [State.poll, hclosed, hlagged, hlt, if_true, if_false]
  · refine ⟨.pending, s.modifySlot id cursor fun slot => { slot with waker := some waker },
      cursor, ?_, (h.modifySlot _).nothing hcursor, fun _ => hall hlt⟩
    simp only [State.poll, hclosed, hlagged, hlt, if_false]

end State

namespace System

/-- What the receiver was given accounts for what was sent from its first cursor on, and neither
`try_recv` nor a poll would give it nothing before it was given everything. -/
structure Streams (s : System α) (r : Receiver α) : Prop where
  accounts : Accounts s.capacity s.sent r.start r.outputs r.cursor
  cursor : r.cursor ≤ s.sent.length
  tryRecv : ∃ result state cursor,
    s.state.tryRecv s.capacity s.strongCount r.id r.cursor = some (result, state, cursor) ∧
      (result.output = none → r.cursor = s.sent.length)
  poll : ∀ waker, ∃ result state cursor,
    s.state.poll s.capacity s.strongCount r.id r.cursor waker = some (result, state, cursor) ∧
      (result.output = none → r.cursor = s.sent.length)

/-- What the receiver was given accounts for what was sent up to its cursor. -/
structure Tracks (capacity : ℕ) (sent : List α) (r : Receiver α) : Prop where
  accounts : Accounts capacity sent r.start r.outputs r.cursor
  cursor : r.cursor ≤ sent.length
  fresh : r.phase = .counted ∨ r.phase = .numbered → r.outputs = []

structure Sound (capacity : ℕ) (s : System α) : Prop where
  capacity : 0 < s.capacity ∧ s.capacity = capacity
  holds : s.state.Holds s.capacity s.sent
  tracks : ∀ r ∈ s.receivers, Tracks s.capacity s.sent r

variable {capacity : ℕ} {s t : System α} {i : ℕ} {r : Receiver α} {f : Receiver α → Receiver α}

theorem Sound.polls (h : Sound capacity s) (hr : r ∈ s.receivers) (waker : ℕ) :
    ∃ result state cursor,
      s.state.poll s.capacity s.strongCount r.id r.cursor waker = some (result, state, cursor) ∧
        (result.output = none → r.cursor = s.sent.length) := by
  obtain ⟨result, state, cursor, heq, -, hnone⟩ :=
    h.holds.poll (h.tracks r hr).cursor s.strongCount r.id waker
  exact ⟨result, state, cursor, heq, hnone⟩

/-- Only a channel that counts as closed keeps `try_recv` from what is left to read. -/
theorem Sound.streams_iff (h : Sound capacity s) (hr : r ∈ s.receivers) :
    s.Streams r ↔ s.strongCount ≠ s.state.receivers.length ∨ s.state.nextSeq ≤ r.cursor := by
  obtain ⟨haccounts, hcursor, -⟩ := h.tracks r hr
  have hsent := h.holds.nextSeq
  constructor
  · intro hstreams
    by_cases hclosed : s.strongCount = s.state.receivers.length
    · obtain ⟨result, state, cursor, htry, hread⟩ := hstreams.tryRecv
      rw [State.tryRecv, if_pos hclosed, Option.some.injEq, Prod.mk.injEq] at htry
      exact .inr (hsent.le.trans (hread (by rw [← htry.1]; rfl)).ge)
    · exact .inl hclosed
  · intro hopen
    obtain ⟨result, state, cursor, heq, -, hnone⟩ :=
      h.holds.tryRecv hcursor s.strongCount r.id
    refine ⟨haccounts, hcursor, ⟨result, state, cursor, heq, fun houtput => ?_⟩, h.polls hr⟩
    rcases hnone houtput with hclosed | hread
    · have := hopen.resolve_left (not_not.mpr hclosed)
      omega
    · exact hread

theorem receiver_eq_some {phase : Phase} (hr : s.receiver i phase = some r) :
    s.receivers[i]? = some r ∧ r.phase = phase := by
  simpa [receiver, Option.filter_eq_some_iff] using hr

/-- A receiver changes, and the ring stays as it is. -/
theorem Sound.modifyReceiver (h : Sound capacity s) (hr : s.receivers[i]? = some r)
    {state : State α} (hstate : state.Holds s.capacity s.sent)
    (hf : Tracks s.capacity s.sent (f r)) :
    Sound capacity ({ s with state := state }.modifyReceiver i f) := by
  refine ⟨h.capacity, hstate, fun x hx => ?_⟩
  rcases mem_modify hr hx with rfl | hx
  · exact hf
  · exact h.tracks x hx

theorem Sound.read (h : Sound capacity s) (hr : s.receivers[i]? = some r) (hlive : r.phase = .live)
    {output : Option (Output α)} {state : State α} {cursor : ℕ}
    (hreads : State.Reads s.capacity s.sent r.cursor output state cursor)
    (waiting : Receiver α → Bool) :
    Sound capacity ({ s with state := state }.modifyReceiver i fun r =>
      r.take cursor s.sent.length output (waiting r)) := by
  refine h.modifyReceiver hr hreads.holds ⟨?_, hreads.cursor, fun hphase => ?_⟩
  · exact (h.tracks r (List.mem_of_getElem? hr)).accounts.append hreads.accounts
  · have : r.phase = .counted ∨ r.phase = .numbered := hphase
    simp [hlive] at this

theorem Sound.send (h : Sound capacity s) (value : α) : Sound capacity (s.send value) := by
  unfold System.send
  split
  · exact h
  · rename_i state wakes hsend
    refine ⟨h.capacity, h.holds.send h.capacity.1 hsend, fun r hr => ?_⟩
    obtain ⟨haccounts, hcursor, hfresh⟩ := h.tracks r hr
    exact ⟨haccounts.send value, hcursor.trans (by simp), hfresh⟩

theorem Sound.step {a : Label α} (h : Sound capacity s) (hstep : s.step a = some t) :
    Sound capacity t := by
  cases steps hstep with
  | cloneSender | dropSender | exhausted => exact ⟨h.capacity, h.holds, h.tracks⟩
  | send hpos value => exact h.send value
  | cloneReceiver =>
    refine ⟨h.capacity, h.holds, fun x hx => ?_⟩
    rcases List.mem_append.mp hx with hx | hx
    · exact h.tracks x hx
    · rw [List.mem_singleton.mp hx]
      exact ⟨rfl, Nat.zero_le _, fun _ => rfl⟩
  | number hr =>
    obtain ⟨hr, hphase⟩ := receiver_eq_some hr
    have hsound : Sound capacity { s with nextReceiverId := s.nextReceiverId + 1 } :=
      ⟨h.capacity, h.holds, h.tracks⟩
    obtain ⟨haccounts, hcursor, hfresh⟩ := h.tracks _ (List.mem_of_getElem? hr)
    exact hsound.modifyReceiver hr h.holds ⟨haccounts, hcursor, fun _ => hfresh (.inl hphase)⟩
  | place hr =>
    obtain ⟨hr, hphase⟩ := receiver_eq_some hr
    have hfresh := (h.tracks _ (List.mem_of_getElem? hr)).fresh (.inr hphase)
    refine h.modifyReceiver hr h.holds ⟨?_, h.holds.nextSeq.le, by simp⟩
    rw [hfresh]
    rfl
  | registerSlot hr =>
    obtain ⟨hr, -⟩ := receiver_eq_some hr
    obtain ⟨haccounts, hcursor, -⟩ := h.tracks _ (List.mem_of_getElem? hr)
    exact h.modifyReceiver hr (h.holds.of_eq rfl rfl) ⟨haccounts, hcursor, by simp⟩
  | @tryRecv i r t hr htry =>
    obtain ⟨hr, hlive⟩ := receiver_eq_some hr
    obtain ⟨result, state, cursor, heq, hreads, -⟩ := h.holds.tryRecv
      (h.tracks r (List.mem_of_getElem? hr)).cursor s.strongCount r.id
    simp only [System.tryRecv, heq, Option.map_some, Option.some.injEq] at htry
    subst htry
    exact h.read hr hlive hreads fun r => r.waiting && result.output.isNone
  | @poll i waker r t hr hpoll =>
    obtain ⟨hr, hlive⟩ := receiver_eq_some hr
    obtain ⟨result, state, cursor, heq, hreads, -⟩ := h.holds.poll
      (h.tracks r (List.mem_of_getElem? hr)).cursor s.strongCount r.id waker
    simp only [System.poll, heq, Option.map_some, Option.some.injEq] at hpoll
    subst hpoll
    exact h.read hr hlive hreads fun _ => result.isPending
  | dropReceiver hr =>
    obtain ⟨hr, -⟩ := receiver_eq_some hr
    obtain ⟨haccounts, hcursor, -⟩ := h.tracks _ (List.mem_of_getElem? hr)
    exact h.modifyReceiver hr (h.holds.of_eq rfl rfl) ⟨haccounts, hcursor, by simp⟩
  | release hr =>
    obtain ⟨hr, -⟩ := receiver_eq_some hr
    obtain ⟨haccounts, hcursor, -⟩ := h.tracks _ (List.mem_of_getElem? hr)
    exact h.modifyReceiver hr h.holds ⟨haccounts, hcursor, by simp⟩

theorem Sound.channel (hs : channel α capacity = some s) : Sound capacity s := by
  simp only [Broadcast.channel, Option.ite_none_right_eq_some, Option.some.injEq] at hs
  obtain ⟨hcapacity, rfl⟩ := hs
  refine ⟨⟨hcapacity, rfl⟩, ⟨rfl, List.drop_nil.symm⟩, fun r hr => ?_⟩
  rw [List.mem_singleton.mp hr]
  exact ⟨rfl, Nat.zero_le _, by simp⟩

end System

end Eddy.Broadcast
