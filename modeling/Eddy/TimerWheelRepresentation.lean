import Eddy.TimerWheelRefinement

/-!
# How the wheel is laid out between calls

After any calls a timer is in the slot that its deadline names, ahead of `elapsed`, and the
`occupied` bits are those of the slots with timers. Then `next_event_at` shifts a bucket that
starts at or before a linked deadline, so the shift stays within `u64`.
-/

namespace Eddy.TimerWheel
open Interleaving

structure Wheel.Filed (w : Wheel) (level slot id : ℕ) : Prop where
  slot_eq : slot = slotAt level (w.deadline id)
  future : w.elapsed < w.deadline id
  level_field : (w.entries id).level = level
  slot_field : (w.entries id).slot = slot
  above : level < 5 → w.deadline id >>> (6 * (level + 1)) = w.elapsed >>> (6 * (level + 1))

/-- What `next_event_at` shifts at a level. -/
def Wheel.eventBucket (w : Wheel) (level : ℕ) : ℕ :=
  saturatingAdd (w.elapsed >>> (level * 6))
    (Wheel.nextDelta (w.levels level).occupied (slotAt level w.elapsed))

/-- The result of `next_event_at` while `pending` is empty. -/
structure Wheel.Timely (w : Wheel) : Prop where
  next : (∃ id, (w.entries id).linked = true) → ∃ time, w.nextEventAt = some time ∧
    w.elapsed < time ∧ ∀ id, (w.entries id).linked = true → time ≤ w.deadline id
  /-- No level shifts a bit out. -/
  shift : ∀ level < 6, (w.levels level).occupied ≠ 0#64 →
    checkedShl (w.eventBucket level) (level * 6) = some (w.eventBucket level * 2 ^ (level * 6))

structure Wheel.Represented (w : Wheel) : Prop where
  filed : ∀ level < 6, ∀ slot < 64, ∀ id ∈ (w.levels level).slots slot, w.Filed level slot id
  occupied : ∀ level < 6, ∀ slot < 64,
    (w.levels level).occupied.getLsbD slot = true ↔ (w.levels level).slots slot ≠ []
  timely : w.pending = [] → w.Timely
  advances : ∀ now < 2 ^ 64, (w.advanceTo now).isSome = true

namespace Wheel
variable {w : Wheel}

theorem Valid.filed (h : w.Valid 0) {level slot id : ℕ} (hl : level < 6) (hs : slot < 64)
    (hid : id ∈ (w.levels level).slots slot) : w.Filed level slot id := by
  obtain ⟨hlinked, rfl, rfl⟩ := ((h.located id).mem_slot level hl slot hs).mp hid
  have hkept := h.kept id hlinked
  have hplaced := hkept.placed hl
  have hfuture : w.elapsed < w.deadline id := lt_of_bucket_lt (hplaced.later (Nat.zero_le _))
  refine ⟨hkept.slot_eq hl, hfuture, rfl, rfl, fun h5 => ?_⟩
  have habove := hplaced.above h5
  rw [Nat.shiftRight_eq_div_pow, Nat.shiftRight_eq_div_pow, Nat.mul_comm 6]
  exact habove

theorem Valid.occupied_iff (h : w.Valid 0) {level slot : ℕ} (hl : level < 6) (hs : slot < 64) :
    (w.levels level).occupied.getLsbD slot = true ↔ (w.levels level).slots slot ≠ [] := by
  rw [(h.sound level hl).occupied slot hs, Bool.not_eq_true', List.isEmpty_eq_false_iff]

theorem Valid.timely (h : w.Valid 0) (hempty : w.pending = []) : w.Timely where
  next := by
    rintro ⟨id, hid⟩
    obtain ⟨time, -, hnext⟩ := h.nextEventAt_le hempty hid
    obtain ⟨hfuture, -, hlinked⟩ := h.nextEventAt_some hempty hnext
    exact ⟨time, hnext, hfuture, fun j hj => (hlinked j hj).2.1⟩
  shift := by
    intro level hl hne
    rw [eventBucket, h.saturatingAdd_eq hl hne]
    exact h.checkedShl_eq hl hne

theorem Valid.advances (h : w.Valid 0) {now : ℕ} (hnow : now < 2 ^ 64) :
    (w.advanceTo now).isSome = true := by
  rcases Nat.lt_or_ge w.elapsed now with hlt | hge
  · by_cases hempty : w.pending = []
    · obtain ⟨w', hrun, -⟩ := h.advanceTo hempty hlt hnow
      rw [hrun]
      rfl
    · obtain ⟨w', hrun, -⟩ := h.advanceTo_pending hempty hlt
      rw [hrun]
      rfl
  · rw [Wheel.advanceTo, if_pos hge]
    rfl

theorem represented (hw : Reachable Wheel.step anyStep Wheel.new w) : w.Represented := by
  have hsound : w.Sound := hw.invariant ⟨.new, by simp [Wheel.new]⟩
    fun _ _ _ hw _ hstep => hw.step hstep
  have hvalid := hsound.valid
  exact ⟨fun level hl slot hs id hid => hvalid.filed hl hs hid,
    fun level hl slot hs => hvalid.occupied_iff hl hs, hvalid.timely, fun now => hvalid.advances⟩

/-- A timer for the last millisecond of `u64`, in the last slot of the top level that is reached
only after the level has turned many times. -/
theorem represented_last : ∃ w : Wheel, Reachable Wheel.step anyStep Wheel.new w ∧
    w.elapsed = 100 ∧ 7 ∈ (w.levels 5).slots 63 ∧ w.Represented := by
  have hreach : Reachable Wheel.step anyStep Wheel.new
      ({ Wheel.new with elapsed := 100 }.schedule 7 u64Max) :=
    .next (.next .start trivial (show Wheel.new.step (.advanceTo 100) = _ from rfl)) trivial
      (show Wheel.step { Wheel.new with elapsed := 100 } (.insert 7 u64Max) = _ by
        simp [Wheel.step, Wheel.new, u64Max])
  exact ⟨_, hreach, by decide +kernel, by decide +kernel, represented hreach⟩

end Wheel
end Eddy.TimerWheel
