import Mathlib.Data.List.Nodup
import Eddy.BroadcastStream

/-!
# Closing a broadcast channel

The drop of a sender wakes nobody. A receiver that waits when the last sender goes, or that finds
the reference count out of step with the slots afterwards, waits for ever. Where neither happens,
every receiver whose last poll returned `Pending` has been woken and its next poll resolves.
-/

namespace Eddy.Broadcast
open Interleaving Holdings

variable {α : Type}

namespace State
variable {s s' : State α} {capacity strongCount id cursor cursor' waker : ℕ}
  {f : ReceiverSlot → ReceiverSlot}

def HasSlot (s : State α) (id : ℕ) : Prop := id ∈ s.receivers.map ReceiverSlot.id

theorem modifySlot_of_hasSlot (h : s.HasSlot id) (cursor : ℕ) (f : ReceiverSlot → ReceiverSlot) :
    ∃ index slot, s.receivers[index]? = some slot ∧ slot.id = id ∧
      s.modifySlot id cursor f = { s with receivers := s.receivers.modify index f } := by
  obtain ⟨slot, hslot, hid⟩ := List.mem_map.mp h
  have hsome : (s.receivers.findIdx? fun slot => slot.id = id).isSome := by
    rw [List.findIdx?_isSome, List.any_eq_true]
    exact ⟨slot, hslot, by simpa using hid⟩
  obtain ⟨index, hindex⟩ := Option.isSome_iff_exists.mp hsome
  obtain ⟨hlt, heq, -⟩ := List.findIdx?_eq_some_iff_getElem.mp hindex
  refine ⟨index, s.receivers[index], List.getElem?_eq_getElem hlt, by simpa using heq, ?_⟩
  simp only [modifySlot, slotIndex, hindex]

structure KeepsSlots (s s' : State α) : Prop where
  ids : s'.receivers.map ReceiverSlot.id = s.receivers.map ReceiverSlot.id
  wakers : ∀ slot ∈ s.receivers, slot.waker.isSome →
    ∃ slot' ∈ s'.receivers, slot'.id = slot.id ∧ slot'.waker.isSome

theorem KeepsSlots.refl (s : State α) : KeepsSlots s s :=
  ⟨rfl, fun slot hslot hwaker => ⟨slot, hslot, rfl, hwaker⟩⟩

theorem KeepsSlots.modify {index : ℕ} (hid : ∀ slot, (f slot).id = slot.id)
    (hwaker : ∀ slot, slot.waker.isSome → (f slot).waker.isSome) :
    KeepsSlots s { s with receivers := s.receivers.modify index f } := by
  refine ⟨?_, fun slot hslot hsome => ?_⟩
  · apply List.ext_getElem?
    intro j
    simp only [List.getElem?_map, List.getElem?_modify]
    cases s.receivers[j]? with
    | none => rfl
    | some slot => by_cases hj : index = j <;> simp [hj, hid]
  · obtain ⟨j, hj⟩ := List.mem_iff_getElem?.mp hslot
    by_cases hij : index = j
    · subst hij
      refine ⟨f slot, List.mem_iff_getElem?.mpr ⟨index, ?_⟩, hid slot, hwaker slot hsome⟩
      simp [hj]
    · refine ⟨slot, List.mem_iff_getElem?.mpr ⟨j, ?_⟩, rfl, hsome⟩
      simp [hij, hj]

theorem KeepsSlots.setCursor (h : s.HasSlot id) (cursor : ℕ) :
    KeepsSlots s (s.setCursor id cursor) := by
  obtain ⟨index, slot, -, -, heq⟩ :=
    modifySlot_of_hasSlot h cursor fun slot => { slot with cursor := cursor }
  rw [State.setCursor, heq]
  exact KeepsSlots.modify (fun _ => rfl) fun _ hwaker => hwaker

theorem tryRecv_cases {result : TryRecv α}
    (h : s.tryRecv capacity strongCount id cursor = some (result, s', cursor')) :
    (result.output = none ∧ s' = s ∧ cursor' = cursor) ∨
      (result.output.isSome ∧ s' = s.setCursor id cursor') := by
  simp only [State.tryRecv] at h
  split_ifs at h with hclosed hlagged hlt
  · cases h
    exact .inl ⟨rfl, rfl, rfl⟩
  · cases h
    exact .inr ⟨rfl, rfl⟩
  · obtain ⟨value, -, heq⟩ := Option.map_eq_some_iff.mp h
    cases heq
    exact .inr ⟨rfl, rfl⟩
  · cases h
    exact .inl ⟨rfl, rfl, rfl⟩

/-- What a poll does to the slots. -/
inductive Polled (s : State α) (strongCount id cursor waker : ℕ) :
    Poll α → State α → ℕ → Prop where
  | output {result cursor'} (output : result.output.isSome) (ready : result.isPending = false) :
      Polled s strongCount id cursor waker result (s.setCursor id cursor') cursor'
  | closed : Polled s strongCount id cursor waker (.error .closed) s cursor
  | pending (all : s.nextSeq ≤ cursor) (counts : strongCount ≠ s.receivers.length) :
      Polled s strongCount id cursor waker .pending
        (s.modifySlot id cursor fun slot => { slot with waker := some waker }) cursor

theorem poll_cases {result : Poll α}
    (h : s.poll capacity strongCount id cursor waker = some (result, s', cursor')) :
    Polled s strongCount id cursor waker result s' cursor' := by
  simp only [State.poll] at h
  split_ifs at h with hlagged hlt hclosed
  · cases h
    exact .output rfl rfl
  · obtain ⟨value, -, heq⟩ := Option.map_eq_some_iff.mp h
    cases heq
    exact .output rfl rfl
  · cases h
    exact .closed
  · cases h
    exact .pending (Nat.le_of_not_lt hlt) hclosed

end State

namespace System

variable {capacity : ℕ} {s t : System α} {i : ℕ} {r : Receiver α} {f : Receiver α → Receiver α}

/-- The receiver has been woken, and its next poll does not return `Pending`. -/
structure Resolves (s : System α) (r : Receiver α) : Prop where
  woken : ∀ slot ∈ s.state.receivers, slot.id = r.id → slot.waker = none
  next : ∀ waker, ∃ result state cursor,
    s.state.poll s.capacity s.strongCount r.id r.cursor waker = some (result, state, cursor) ∧
      result.isPending = false

/-- No receiver stays pending on a channel without senders. -/
def Resolved (s : System α) : Prop :=
  s.senders = 0 → ∀ r ∈ s.receivers, r.phase = .live → r.waiting = true → s.Resolves r

/-- No receiver is in the middle of its clone or of its drop. -/
def settled (s : System α) : Bool :=
  s.receivers.all fun r => r.phase = .live || r.phase = .dropped

/-- The last sender goes when no waker is registered, and a receiver that has read everything is
polled without senders only when no other one is in the middle of its clone or of its drop. -/
def ClosesInTime (s : System α) : Label α → Prop
  | .dropSender => s.senders = 1 → ∀ slot ∈ s.state.receivers, slot.waker = none
  | .poll i proceed _ =>
    s.senders = 0 → proceed = true →
      (∀ r ∈ s.receiver i .live, s.state.nextSeq ≤ r.cursor) → s.settled = true
  | _ => True

instance (s : System α) (a : Label α) : Decidable (s.ClosesInTime a) := by
  cases a <;> unfold ClosesInTime <;> infer_instance

def number (r : Receiver α) : Option ℕ := if r.phase = .counted then none else some r.id

def slotId (r : Receiver α) : Option ℕ := if r.phase = .live then some r.id else none

/-- A receiver that waits has its waker in its slot, or there is something for it to read. -/
def Waits (state : State α) (r : Receiver α) : Prop :=
  (∃ slot ∈ state.receivers, slot.id = r.id ∧ slot.waker.isSome) ∨ r.cursor < state.nextSeq

structure Slotted (s : System α) : Prop where
  numbers : (s.receivers.filterMap number).Nodup
  fresh : ∀ id ∈ s.receivers.filterMap number, id < s.nextReceiverId
  slots : (s.state.receivers.map ReceiverSlot.id).Perm (s.receivers.filterMap slotId)
  waits : ∀ r ∈ s.receivers, r.phase = .live → r.waiting = true → Waits s.state r
  idle : ∀ r ∈ s.receivers, r.phase = .counted ∨ r.phase = .numbered ∨ r.phase = .placed →
    r.waiting = false

theorem Waits.keeps {state state' : State α} (h : Waits state r)
    (hkeeps : State.KeepsSlots state state') (hnextSeq : state.nextSeq ≤ state'.nextSeq) :
    Waits state' r := by
  rcases h with ⟨slot, hslot, hid, hwaker⟩ | hlt
  · obtain ⟨slot', hslot', hid', hwaker'⟩ := hkeeps.wakers slot hslot hwaker
    exact .inl ⟨slot', hslot', hid'.trans hid, hwaker'⟩
  · exact .inr (hlt.trans_le hnextSeq)

theorem Slotted.hasSlot (h : s.Slotted) (hr : s.receivers[i]? = some r) (hlive : r.phase = .live) :
    s.state.HasSlot r.id := by
  apply h.slots.mem_iff.mpr
  exact List.mem_filterMap.mpr ⟨r, List.mem_of_getElem? hr, by simp [slotId, hlive]⟩

theorem Slotted.nodup (h : s.Slotted) : (s.receivers.filterMap slotId).Nodup := by
  refine h.numbers.sublist (filterMap_sublist (fun r => ?_) _)
  by_cases hlive : r.phase = .live
  · exact .inr (by simp [slotId, number, hlive])
  · exact .inl (by simp [slotId, hlive])

theorem Slotted.read (h : s.Slotted) (hr : s.receivers[i]? = some r) (hlive : r.phase = .live)
    {state : State α} (hkeeps : State.KeepsSlots s.state state)
    (hnextSeq : state.nextSeq = s.state.nextSeq) (hphase : (f r).phase = r.phase)
    (hid : (f r).id = r.id) (hwaits : (f r).waiting = true → Waits state (f r)) :
    Slotted ({ s with state := state }.modifyReceiver i f) := by
  have heq : ∀ a, s.receivers[i]? = some a → a = r := fun a ha => Option.some.inj (ha.symm.trans hr)
  have hnumber : (s.receivers.modify i f).filterMap number = s.receivers.filterMap number := by
    apply filterMap_modify_of_eq
    intro a ha
    rw [heq a ha, number, number, hphase, hid]
  have hslot : (s.receivers.modify i f).filterMap slotId = s.receivers.filterMap slotId := by
    apply filterMap_modify_of_eq
    intro a ha
    rw [heq a ha, slotId, slotId, hphase, hid]
  refine ⟨?_, ?_, ?_, fun x hx hlive hwaiting => ?_, fun x hx hidle => ?_⟩
  · exact hnumber ▸ h.numbers
  · exact hnumber ▸ h.fresh
  · have hperm := hkeeps.ids ▸ hslot ▸ h.slots
    exact hperm
  · rcases mem_modify hr hx with rfl | hx
    · exact hwaits hwaiting
    · exact (h.waits x hx hlive hwaiting).keeps hkeeps hnextSeq.ge
  · rcases mem_modify hr hx with rfl | hx
    · simp [hphase, hlive] at hidle
    · exact h.idle x hx hidle

theorem Slotted.tryRecv (h : s.Slotted) (hr : s.receivers[i]? = some r) (hlive : r.phase = .live)
    (ht : s.tryRecv i r = some t) : t.Slotted := by
  obtain ⟨⟨result, state, cursor⟩, hread, rfl⟩ := Option.map_eq_some_iff.mp ht
  rcases State.tryRecv_cases hread with ⟨hnone, rfl, rfl⟩ | ⟨hsome, rfl⟩
  · refine h.read hr hlive (State.KeepsSlots.refl _) rfl rfl rfl fun hwaiting => ?_
    simp only [Receiver.take, hnone, Option.isNone_none, Bool.and_true] at hwaiting
    exact h.waits r (List.mem_of_getElem? hr) hlive hwaiting
  · refine h.read hr hlive (State.KeepsSlots.setCursor (h.hasSlot hr hlive) cursor)
      (State.modifySlot_eq ..).2 rfl rfl fun hwaiting => ?_
    obtain ⟨output, houtput⟩ := Option.isSome_iff_exists.mp hsome
    simp [Receiver.take, houtput] at hwaiting

theorem Slotted.poll (h : s.Slotted) (hr : s.receivers[i]? = some r) (hlive : r.phase = .live)
    {waker : ℕ} (ht : s.poll i r waker = some t) : t.Slotted := by
  obtain ⟨⟨result, state, cursor⟩, hread, rfl⟩ := Option.map_eq_some_iff.mp ht
  cases State.poll_cases hread with
  | output hsome hready =>
    refine h.read hr hlive (State.KeepsSlots.setCursor (h.hasSlot hr hlive) cursor)
      (State.modifySlot_eq ..).2 rfl rfl fun hwaiting => ?_
    simp [Receiver.take, hready] at hwaiting
  | closed => exact h.read hr hlive (State.KeepsSlots.refl _) rfl rfl rfl nofun
  | pending hall hcounts =>
    obtain ⟨index, slot, hslot, hid, heq⟩ := State.modifySlot_of_hasSlot (h.hasSlot hr hlive)
      r.cursor fun slot => { slot with waker := some waker }
    refine h.read hr hlive ?_ (State.modifySlot_eq ..).2 rfl rfl fun _ => .inl ?_
    · rw [heq]
      exact State.KeepsSlots.modify (fun _ => rfl) fun _ _ => rfl
    · rw [heq]
      refine ⟨{ slot with waker := some waker }, List.mem_iff_getElem?.mpr ⟨index, ?_⟩, hid, rfl⟩
      simp [hslot]

theorem Slotted.send (h : s.Slotted) (hsound : Sound capacity s) (value : α) :
    (s.send value).Slotted := by
  unfold System.send
  split
  · exact h
  · rename_i state wakes hsend
    have hreceivers : s.state.receivers ≠ [] := by
      intro hnil
      simp [State.send, hnil] at hsend
    simp only [State.send, if_neg hreceivers, Option.some.injEq, Prod.mk.injEq] at hsend
    obtain ⟨rfl, rfl⟩ := hsend
    refine ⟨h.numbers, h.fresh, ?_, fun r hr _ _ => .inr ?_, h.idle⟩
    · simpa [Function.comp_def] using h.slots
    · have := (hsound.tracks r hr).cursor
      have := hsound.holds.nextSeq
      show r.cursor < s.state.nextSeq + 1
      omega

theorem Slotted.number (h : s.Slotted) (hr : s.receivers[i]? = some r)
    (hphase : r.phase = .counted) :
    Slotted ({ s with nextReceiverId := s.nextReceiverId + 1 }.modifyReceiver i fun r =>
      { r with id := s.nextReceiverId, phase := .numbered }) := by
  have hmem := List.mem_of_getElem? hr
  have htake := filterMap_modify_take (g := System.number) (b := s.nextReceiverId)
    (f := fun r => { r with id := s.nextReceiverId, phase := .numbered }) hr
    (by simp [System.number, hphase]) rfl
  have hslot : ∀ a, s.receivers[i]? = some a →
      slotId { a with id := s.nextReceiverId, phase := .numbered } = slotId a := by
    intro a ha
    obtain rfl : r = a := Option.some.inj (hr.symm.trans ha)
    simp [slotId, hphase]
  refine ⟨?_, ?_, ?_, fun x hx hlive hwaiting => ?_, fun x hx hidle => ?_⟩
  · refine htake.nodup_iff.mpr (List.nodup_cons.mpr ⟨fun hin => ?_, h.numbers⟩)
    exact Nat.lt_irrefl _ (h.fresh _ hin)
  · intro id hid
    rcases List.mem_cons.mp (htake.mem_iff.mp hid) with rfl | hid
    · exact Nat.lt_succ_self _
    · exact Nat.lt_succ_of_lt (h.fresh id hid)
  · exact (filterMap_modify_of_eq hslot).symm ▸ h.slots
  · rcases mem_modify hr hx with rfl | hx
    · cases hlive
    · exact h.waits x hx hlive hwaiting
  · rcases mem_modify hr hx with rfl | hx
    · exact h.idle r hmem (.inl hphase)
    · exact h.idle x hx hidle

/-- A receiver without a slot goes on, and still has none. -/
theorem Slotted.advance (h : s.Slotted) (hr : s.receivers[i]? = some r)
    (hphase : r.phase ≠ .live) (hcounted : r.phase ≠ .counted) (hf : (f r).phase ≠ .live)
    (hfcounted : (f r).phase ≠ .counted) (hid : (f r).id = r.id)
    (hidle : (f r).phase = .numbered ∨ (f r).phase = .placed → (f r).waiting = false) :
    Slotted (s.modifyReceiver i f) := by
  have heq : ∀ a, s.receivers[i]? = some a → a = r := fun a ha => Option.some.inj (ha.symm.trans hr)
  have hnumber : (s.receivers.modify i f).filterMap System.number =
      s.receivers.filterMap System.number := by
    apply filterMap_modify_of_eq
    intro a ha
    rw [heq a ha, System.number, System.number, if_neg hcounted, if_neg hfcounted, hid]
  have hslot : (s.receivers.modify i f).filterMap slotId = s.receivers.filterMap slotId := by
    apply filterMap_modify_of_eq
    intro a ha
    rw [heq a ha, slotId, slotId, if_neg hphase, if_neg hf]
  refine ⟨?_, ?_, ?_, fun x hx hlive hwaiting => ?_, fun x hx hidle' => ?_⟩
  · exact hnumber ▸ h.numbers
  · exact hnumber ▸ h.fresh
  · exact hslot ▸ h.slots
  · rcases mem_modify hr hx with rfl | hx
    · exact absurd hlive hf
    · exact h.waits x hx hlive hwaiting
  · rcases mem_modify hr hx with rfl | hx
    · exact hidle (hidle'.resolve_left hfcounted)
    · exact h.idle x hx hidle'

theorem Slotted.registerSlot (h : s.Slotted) (hr : s.receivers[i]? = some r)
    (hphase : r.phase = .placed) :
    Slotted ({ s with state := s.state.register r.id r.cursor }.modifyReceiver i fun r =>
      { r with phase := .live }) := by
  have hnumber : ∀ a, s.receivers[i]? = some a →
      System.number { a with phase := .live } = System.number a := by
    intro a ha
    obtain rfl : r = a := Option.some.inj (hr.symm.trans ha)
    simp [System.number, hphase]
  have htake := filterMap_modify_take (g := slotId) (b := r.id)
    (f := fun r => { r with phase := .live }) hr (by simp [slotId, hphase]) rfl
  refine ⟨?_, ?_, ?_, fun x hx hlive hwaiting => ?_, fun x hx hidle => ?_⟩
  · exact (filterMap_modify_of_eq hnumber).symm ▸ h.numbers
  · exact (filterMap_modify_of_eq hnumber).symm ▸ h.fresh
  · refine List.Perm.trans ?_ ((h.slots.cons r.id).trans htake.symm)
    simp only [modifyReceiver, State.register, List.map_append, List.map_cons, List.map_nil]
    exact List.perm_append_singleton _ _
  · rcases mem_modify hr hx with rfl | hx
    · have hidle := h.idle r (List.mem_of_getElem? hr) (.inr (.inr hphase))
      exact absurd hwaiting (by simp [hidle])
    · rcases h.waits x hx hlive hwaiting with ⟨slot, hslot, hid⟩ | hlt
      · exact .inl ⟨slot, List.mem_append_left _ hslot, hid⟩
      · exact .inr hlt
  · rcases mem_modify hr hx with rfl | hx
    · simp at hidle
    · exact h.idle x hx hidle

theorem Slotted.dropReceiver (h : s.Slotted) (hr : s.receivers[i]? = some r)
    (hphase : r.phase = .live) :
    Slotted ({ s with state := { s.state with
        receivers := s.state.receivers.filter fun slot => slot.id ≠ r.id } }.modifyReceiver i
      fun r => { r with phase := .unregistered }) := by
  have hnumber : ∀ a, s.receivers[i]? = some a →
      System.number { a with phase := .unregistered } = System.number a := by
    intro a ha
    obtain rfl : r = a := Option.some.inj (hr.symm.trans ha)
    simp [System.number, hphase]
  have hrelease := filterMap_modify_release (g := slotId) (b := r.id)
    (f := fun r => { r with phase := .unregistered }) hr (by simp [slotId, hphase]) rfl
  obtain ⟨hnot, -⟩ := List.nodup_cons.mp (hrelease.nodup_iff.mpr h.nodup)
  have hother : ∀ x ∈ s.receivers.modify i fun r => { r with phase := .unregistered },
      x.phase = .live → x.id ≠ r.id := by
    intro x hx hlive heq
    exact hnot (List.mem_filterMap.mpr ⟨x, hx, by simp [slotId, hlive, heq]⟩)
  refine ⟨?_, ?_, ?_, fun x hx hlive hwaiting => ?_, fun x hx hidle => ?_⟩
  · exact (filterMap_modify_of_eq hnumber).symm ▸ h.numbers
  · exact (filterMap_modify_of_eq hnumber).symm ▸ h.fresh
  · have hfilter := (h.slots.trans hrelease.symm).filter fun id => id ≠ r.id
    rw [List.filter_cons_of_neg (by simp), List.filter_map] at hfilter
    refine hfilter.trans (List.Perm.of_eq (List.filter_eq_self.mpr fun id hid => ?_))
    simpa using ne_of_mem_of_not_mem hid hnot
  · have hne := hother x hx hlive
    rcases mem_modify hr hx with rfl | hx
    · cases hlive
    · rcases h.waits x hx hlive hwaiting with ⟨slot, hslot, hid, hwaker⟩ | hlt
      · refine .inl ⟨slot, List.mem_filter.mpr ⟨hslot, ?_⟩, hid, hwaker⟩
        simpa [hid] using hne
      · exact .inr hlt
  · rcases mem_modify hr hx with rfl | hx
    · simp at hidle
    · exact h.idle x hx hidle

/-- A receiver that is only counted has neither a number nor a slot. -/
theorem Slotted.cloneReceiver (h : s.Slotted) :
    Slotted { s with receivers := s.receivers ++ [Receiver.counted] } := by
  have hnumber : (s.receivers ++ [Receiver.counted]).filterMap System.number =
      s.receivers.filterMap System.number := by simp [System.number, Receiver.counted]
  have hslot : (s.receivers ++ [Receiver.counted]).filterMap slotId =
      s.receivers.filterMap slotId := by simp [slotId, Receiver.counted]
  refine ⟨?_, ?_, ?_, fun x hx hlive hwaiting => ?_, fun x hx hidle => ?_⟩
  · exact hnumber.symm ▸ h.numbers
  · exact hnumber.symm ▸ h.fresh
  · exact hslot.symm ▸ h.slots
  · rcases List.mem_append.mp hx with hx | hx
    · exact h.waits x hx hlive hwaiting
    · rw [List.mem_singleton.mp hx] at hlive
      cases hlive
  · rcases List.mem_append.mp hx with hx | hx
    · exact h.idle x hx hidle
    · rw [List.mem_singleton.mp hx]
      rfl

theorem Slotted.step {a : Label α} (h : s.Slotted) (hsound : Sound capacity s)
    (hstep : s.step a = some t) : t.Slotted := by
  cases steps hstep with
  | cloneSender | dropSender | exhausted => exact ⟨h.numbers, h.fresh, h.slots, h.waits, h.idle⟩
  | send hpos value => exact h.send hsound value
  | cloneReceiver => exact h.cloneReceiver
  | number hr =>
    obtain ⟨hr, hphase⟩ := receiver_eq_some hr
    exact h.number hr hphase
  | @place i r hr =>
    obtain ⟨hr, hphase⟩ := receiver_eq_some hr
    exact h.advance hr (by simp [hphase]) (by simp [hphase]) nofun nofun rfl
      fun _ => h.idle r (List.mem_of_getElem? hr) (.inr (.inl hphase))
  | registerSlot hr =>
    obtain ⟨hr, hphase⟩ := receiver_eq_some hr
    exact h.registerSlot hr hphase
  | tryRecv hr htry =>
    obtain ⟨hr, hlive⟩ := receiver_eq_some hr
    exact h.tryRecv hr hlive htry
  | poll hr hpoll =>
    obtain ⟨hr, hlive⟩ := receiver_eq_some hr
    exact h.poll hr hlive hpoll
  | dropReceiver hr =>
    obtain ⟨hr, hphase⟩ := receiver_eq_some hr
    exact h.dropReceiver hr hphase
  | release hr =>
    obtain ⟨hr, hphase⟩ := receiver_eq_some hr
    exact h.advance hr (by simp [hphase]) (by simp [hphase]) nofun nofun rfl (by simp)

def Closed (s : System α) : Prop :=
  s.senders = 0 → ∀ slot ∈ s.state.receivers, slot.waker = none

/-- The reference count of a channel without senders is the number of slots. -/
theorem Slotted.strongCount_eq (h : s.Slotted) (hsenders : s.senders = 0)
    (hsettled : s.settled = true) : s.strongCount = s.state.receivers.length := by
  have hlength := h.slots.length_eq
  rw [List.length_map, List.length_filterMap_eq_countP] at hlength
  rw [strongCount, hsenders, Nat.zero_add, hlength]
  apply List.countP_congr
  intro r hr
  have hphase : r.phase = .live ∨ r.phase = .dropped := by
    simpa using List.all_eq_true.mp hsettled r hr
  rcases hphase with hphase | hphase <;> simp [slotId, hphase]

theorem Closed.modifySlot (h : s.Closed) (hslot : s.state.HasSlot r.id) {cursor : ℕ}
    {g : ReceiverSlot → ReceiverSlot} (hg : ∀ slot, (g slot).waker = slot.waker) :
    Closed ({ s with state := s.state.modifySlot r.id cursor g }.modifyReceiver i f) := by
  intro hsenders x hx
  obtain ⟨index, slot, -, -, heq⟩ := State.modifySlot_of_hasSlot hslot cursor g
  have hx : x ∈ s.state.receivers.modify index g := by
    simpa only [modifyReceiver, heq] using hx
  obtain ⟨j, hj⟩ := List.mem_iff_getElem?.mp hx
  rw [List.getElem?_modify] at hj
  obtain ⟨y, hy, rfl⟩ := Option.map_eq_some_iff.mp hj
  have hnone := h hsenders y (List.mem_of_getElem? hy)
  split_ifs
  · exact (hg y).trans hnone
  · exact hnone

theorem Closed.poll (h : s.Closed) (hslotted : s.Slotted) (hr : s.receivers[i]? = some r)
    (hlive : r.phase = .live) {waker : ℕ}
    (hsettled : s.senders = 0 → s.state.nextSeq ≤ r.cursor → s.settled = true)
    (ht : s.poll i r waker = some t) : t.Closed := by
  obtain ⟨⟨result, state, cursor⟩, hread, rfl⟩ := Option.map_eq_some_iff.mp ht
  cases State.poll_cases hread with
  | output hsome hready => exact h.modifySlot (hslotted.hasSlot hr hlive) fun _ => rfl
  | closed => exact h
  | pending hall hcounts =>
    intro hsenders
    exact absurd (hslotted.strongCount_eq hsenders (hsettled hsenders hall)) hcounts

theorem Closed.step {a : Label α} (h : s.Closed) (hslotted : s.Slotted)
    (hcloses : s.ClosesInTime a) (hstep : s.step a = some t) : t.Closed := by
  cases steps hstep with
  | cloneSender => exact fun hsenders => absurd hsenders (Nat.succ_ne_zero _)
  | dropSender hpos =>
    exact fun hlast => hcloses (Nat.le_antisymm (Nat.sub_eq_zero_iff_le.mp hlast) hpos)
  | send hpos value =>
    have hsame : (s.send value).senders = s.senders := by
      unfold System.send
      split <;> rfl
    exact fun hsenders => absurd (hsame.symm.trans hsenders) hpos.ne'
  | cloneReceiver | number | place | exhausted | release => exact h
  | registerSlot =>
    intro hsenders slot hslot
    rcases List.mem_append.mp hslot with hslot | hslot
    · exact h hsenders slot hslot
    · rw [List.mem_singleton.mp hslot]
  | tryRecv hr htry =>
    obtain ⟨hr, hlive⟩ := receiver_eq_some hr
    obtain ⟨⟨result, state, cursor⟩, hread, rfl⟩ := Option.map_eq_some_iff.mp htry
    rcases State.tryRecv_cases hread with ⟨-, rfl, -⟩ | ⟨-, rfl⟩
    · exact h
    · exact h.modifySlot (hslotted.hasSlot hr hlive) fun _ => rfl
  | poll hr hpoll =>
    obtain ⟨hr', hlive⟩ := receiver_eq_some hr
    refine h.poll hslotted hr' hlive (fun hsenders hall => hcloses hsenders rfl ?_) hpoll
    intro r' hr''
    rw [hr] at hr''
    exact Option.some.inj hr'' ▸ hall
  | dropReceiver =>
    exact fun hsenders slot hslot => h hsenders slot (List.mem_of_mem_filter hslot)

theorem Slotted.new (capacity : ℕ) : Slotted (.new capacity : System α) := by
  constructor <;> simp [System.new, System.number, slotId]

theorem sound_slotted {capacity : ℕ} (hcapacity : 0 < capacity)
    {guard : System α → Label α → Prop}
    (hs : Reachable System.step guard (.new capacity : System α) s) :
    Sound capacity s ∧ s.Slotted := by
  have hinit : channel α capacity = some (.new capacity) := if_pos hcapacity
  exact hs.invariant (I := fun s => Sound capacity s ∧ s.Slotted)
    ⟨Sound.channel hinit, Slotted.new capacity⟩
    fun _ _ _ h _ hstep => ⟨h.1.step hstep, h.2.step h.1 hstep⟩

/-- Where the channel closes in time, no receiver stays pending. -/
theorem resolved {capacity : ℕ} (hcapacity : 0 < capacity)
    (hs : Reachable System.step ClosesInTime (.new capacity : System α) s) : s.Resolved := by
  obtain ⟨hsound, hslotted⟩ := sound_slotted hcapacity hs
  have hclosed : s.Closed := by
    have hstart : Reachable System.step anyStep (.new capacity : System α) (.new capacity) := .start
    refine (hs.invariant (I := fun s => (Sound capacity s ∧ s.Slotted) ∧ s.Closed)
      ⟨sound_slotted hcapacity hstart, nofun⟩ ?_).2
    intro _ _ _ h hcloses hstep
    exact ⟨⟨h.1.1.step hstep, h.1.2.step h.1.1 hstep⟩, h.2.step h.1.2 hcloses hstep⟩
  intro hsenders r hr hlive hwaiting
  refine ⟨fun slot hslot _ => hclosed hsenders slot hslot, fun waker => ?_⟩
  have hlt : r.cursor < s.state.nextSeq := by
    rcases hslotted.waits r hr hlive hwaiting with ⟨slot, hslot, -, hwaker⟩ | hlt
    · rw [hclosed hsenders slot hslot] at hwaker
      cases hwaker
    · exact hlt
  obtain ⟨result, state, cursor, hread, houtput⟩ := hsound.polls hr waker
  refine ⟨result, state, cursor, hread, ?_⟩
  have := hsound.holds.nextSeq
  cases result with
  | pending =>
    have := houtput rfl
    omega
  | ok | error => rfl

end System
end Eddy.Broadcast
