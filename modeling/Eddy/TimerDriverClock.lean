import Eddy.TimerDriver

/-!
# The timer driver on the real clock

While the clock is neither paused nor moved, no call of `advance_to_now` is ahead of it, and a
timer that is due is in the wheel only until enough calls have been in their section: each of
them that came after the deadline takes it, or brings the wheel closer to it.
-/

namespace Eddy.TimerWheel
open DeadlineMap Interleaving

/-- The steps of a section before it ends. -/
def Fires.left (f : Fires) : ℕ := 2 * f.ids.length + f.current.toList.length

namespace Timers

variable {t t' : Timers}

structure Timely (t : Timers) : Prop where
  paused : t.shared.paused = false
  elapsed : t.shared.wheel.elapsed ≤ t.shared.nowMs
  entering : ∀ now ∈ t.entering, now ≤ t.shared.nowMs
  due : ∀ id, t.Fireable id ∨ t.Firing id → (t.entry id).deadline ≤ t.shared.nowMs

theorem armLocked_paused (s : TimerShared) (alreadyDue : Bool) (id : ℕ) (deadline : ℤ)
    (waker : ℕ) : (s.armLocked alreadyDue id deadline waker).2.paused = s.paused := by
  unfold TimerShared.armLocked
  simp only
  split <;> rfl

theorem Sound.step_paused {l : Label} (h : t.Sound) (hl : l.isReal = true)
    (hs : t.step l = some t') : t'.shared.paused = t.shared.paused := by
  cases h.step_takes hs with
  | clock _ _ _ _ hreal => exact (hreal hl).1
  | lock _ _ _ _ hpaused => exact hpaused
  | arm => exact armLocked_paused ..
  | _ => rfl

/-- The clock does not go back. -/
theorem Sound.step_nowMs {l : Label} (h : t.Sound) (hl : l.isReal = true)
    (hs : t.step l = some t') : t.shared.nowMs ≤ t'.shared.nowMs := by
  cases h.step_takes hs with
  | clock _ _ _ _ hreal => exact (hreal hl).2
  | lock _ _ _ _ _ hclock => exact hclock.ge
  | arm => exact (h.shared.armLocked ..).now.ge
  | _ => exact le_rfl

namespace Timely

theorem new : Timers.new.Timely where
  paused := rfl
  elapsed := Nat.zero_le _
  entering := nofun
  due := by
    rintro id (⟨f, hf, -⟩ | ⟨f, hf, -⟩)
    · cases hf
    · cases hf

theorem congr (h : t.Timely) (hpaused : t'.shared.paused = t.shared.paused)
    (hnow : t.shared.nowMs ≤ t'.shared.nowMs)
    (helapsed : t'.shared.wheel.elapsed = t.shared.wheel.elapsed)
    (hentering : t'.entering = t.entering)
    (hdue : ∀ id, t'.Fireable id ∨ t'.Firing id →
      (t.Fireable id ∨ t.Firing id) ∧ (t'.entry id).deadline = (t.entry id).deadline) :
    t'.Timely where
  paused := hpaused.trans h.paused
  elapsed := helapsed.trans_le (h.elapsed.trans hnow)
  entering now hmem := (h.entering now (hentering ▸ hmem)).trans hnow
  due id hid := by
    obtain ⟨hbefore, hsame⟩ := hdue id hid
    rw [hsame]
    exact (h.due id hbefore).trans hnow

/-- No timer is fired. -/
theorem of_holder (h : t.Timely) (hpaused : t'.shared.paused = t.shared.paused)
    (hnow : t'.shared.nowMs = t.shared.nowMs)
    (helapsed : t'.shared.wheel.elapsed = t.shared.wheel.elapsed)
    (hentering : t'.entering = t.entering) (hholder : t'.holder = none) : t'.Timely := by
  refine h.congr hpaused hnow.ge helapsed hentering fun id hid => ?_
  obtain ⟨f, hf, -⟩ | ⟨f, hf, -⟩ := hid
  · cases hholder.symm.trans hf
  · cases hholder.symm.trans hf

theorem lock (h : t.Timely) {i now : ℕ} {ids : List ℕ} {shared : TimerShared}
    (hi : t.entering[i]? = some now) (hlocked : Locked t.shared shared now ids)
    (hpaused : shared.paused = t.shared.paused) (hclock : shared.nowMs = t.shared.nowMs) :
    Timely { t with
      shared, entering := t.entering.eraseIdx i, holder := some ⟨now, none, ids, []⟩ } where
  paused := hpaused.trans h.paused
  elapsed := by
    have hnow := h.entering now (List.mem_of_getElem? hi)
    exact hlocked.advances.elapsed_le_max.trans (max_le (h.elapsed.trans hclock.ge)
      (hnow.trans hclock.ge))
  entering now' hmem := (h.entering now' (List.mem_of_mem_eraseIdx hmem)).trans hclock.ge
  due id hid := by
    have hnow := h.entering now (List.mem_of_getElem? hi)
    obtain ⟨f, ⟨⟩, hmem⟩ | ⟨f, ⟨⟩, hcurrent⟩ := hid
    · have hsame : (shared.wheel.entries id).deadline = (t.shared.wheel.entries id).deadline :=
        Wheel.deadline_eq_of_timer (hlocked.timer id)
      exact hsame.trans_le (((hlocked.taken id hmem).2.trans hnow).trans hclock.ge)
    · cases hcurrent

theorem step {l : Label} (h : t.Timely) (hsound : t.Sound) (hl : l.isReal = true)
    (hs : t.step l = some t') : t'.Timely := by
  have hpaused := hsound.step_paused hl hs
  have hnow := hsound.step_nowMs hl hs
  cases hsound.step_takes hs with
  | clock _ hwheel =>
    refine h.congr hpaused hnow (congrArg Wheel.elapsed hwheel) rfl fun id hid => ⟨hid, ?_⟩
    rw [entry, hwheel]
    rfl
  | read =>
    refine ⟨h.paused, h.elapsed, fun now hmem => ?_, h.due⟩
    obtain hmem | hmem := List.mem_append.mp hmem
    · exact h.entering now hmem
    · exact (List.mem_singleton.mp hmem).le
  | lock hholder hi hlocked _ hpaused hclock => exact h.lock hi hlocked hpaused hclock
  | @take now j ids wakers hholder =>
    refine h.congr rfl le_rfl rfl rfl fun id hid => ⟨?_, ?_⟩
    · obtain ⟨f, ⟨⟩, hmem⟩ | ⟨f, ⟨⟩, hcurrent⟩ := hid
      · exact .inl ⟨_, hholder, hmem⟩
      · cases hcurrent
    · rw [entry_of_update (e := { t.entry j with waker := none }) rfl]
      split
      case isTrue hj => rw [hj]
      case isFalse => rfl
  | @store now j ids wakers hholder =>
    refine h.congr rfl le_rfl rfl rfl fun id hid => ⟨?_, ?_⟩
    · obtain ⟨f, ⟨⟩, hmem⟩ | ⟨f, ⟨⟩, hcurrent⟩ := hid
      · exact .inl ⟨_, hholder, List.mem_cons_of_mem _ hmem⟩
      · cases hcurrent
        exact .inl ⟨_, hholder, List.mem_cons_self⟩
    · rw [entry_of_update (e := { t.entry j with fired := true }) rfl]
      split
      case isTrue hj => rw [hj]
      case isFalse => rfl
  | unlock => exact h.of_holder rfl rfl rfl rfl rfl
  | @arm alreadyDue id deadline waker hholder =>
    have harmed := hsound.shared.armLocked alreadyDue id deadline waker
    exact h.of_holder hpaused harmed.now harmed.alters.elapsed rfl hholder
  | cancel hholder => exact h.of_holder rfl rfl (TimerShared.cancel_alters ..).elapsed rfl hholder

end Timely

/-- A bound on the sections of `advance_to_now` that leave a timer of this deadline in the
wheel: each is of a call from before the deadline, or brings the wheel closer to it. -/
def remaining (t : Timers) (deadline : ℕ) : ℕ :=
  deadline - t.shared.wheel.elapsed + total (fun now => if now < deadline then 1 else 0) t.entering

/-- A section of `advance_to_now` takes the timer, or one section less can leave it. -/
theorem remaining_lock {i id now : ℕ} {ids : List ℕ} {shared : TimerShared} (h : t.Sound)
    (hi : t.entering[i]? = some now) (hlocked : Locked t.shared shared now ids)
    (hid : (shared.wheel.entries id).linked = true) (hshared : t'.shared = shared)
    (hentering : t'.entering = t.entering.eraseIdx i) :
    t'.remaining (t.entry id).deadline < t.remaining (t.entry id).deadline := by
  have hfuture : t.shared.wheel.elapsed < (t.entry id).deadline :=
    h.shared.clear.future id _ (Wheel.deadlines_eq_some.mpr ⟨((hlocked.linked id).mp hid).1, rfl⟩)
  have hle : t.shared.wheel.elapsed ≤ shared.wheel.elapsed := hlocked.advances.elapsed_le
  have hcount := total_eraseIdx (fun now => if now < (t.entry id).deadline then 1 else 0) hi
  rw [remaining, remaining, hshared, hentering, hcount]
  split
  case isTrue => omega
  case isFalse hreached =>
    have hlt : t.shared.wheel.elapsed < shared.wheel.elapsed :=
      hlocked.advances.elapsed_lt (hfuture.trans_le (Nat.le_of_not_lt hreached))
    omega

/-- Another step keeps the bound once the deadline has passed. -/
theorem Sound.remaining_step {l : Label} {deadline : ℕ} (h : t.Sound) (hs : t.step l = some t')
    (hl : ∀ i, l ≠ .lock i) (hdue : deadline ≤ t.shared.nowMs) :
    t'.remaining deadline = t.remaining deadline := by
  cases h.step_takes hs with
  | clock _ hwheel => rw [remaining, hwheel, remaining]
  | read => simp [remaining, Nat.not_lt.mpr hdue]
  | @lock i => exact absurd rfl (hl i)
  | take | store | unlock => rfl
  | @arm alreadyDue id deadline' waker =>
    rw [remaining, (h.shared.armLocked alreadyDue id deadline' waker).alters.elapsed, remaining]
  | @cancel id => rw [remaining, (TimerShared.cancel_alters t.shared id).elapsed, remaining]

theorem Sound.left_fire {f : Fires} (h : t.Sound) (hs : t.step .fire = some t')
    (hf : t.holder = some f) :
    t'.holder = none ∨ ∃ f', t'.holder = some f' ∧ f'.left < f.left := by
  cases h.step_takes hs with
  | clock hl => cases hl
  | take hholder =>
    cases hholder.symm.trans hf
    exact .inr ⟨_, rfl, by simp [Fires.left]⟩
  | store hholder =>
    cases hholder.symm.trans hf
    exact .inr ⟨_, rfl, by simp [Fires.left]; omega⟩
  | unlock => exact .inl rfl

/-- Nothing but its own steps ends a section. -/
theorem Sound.step_holder {l : Label} {f : Fires} (h : t.Sound) (hs : t.step l = some t')
    (hl : l ≠ .fire) (hf : t.holder = some f) : t'.holder = some f := by
  cases h.step_takes hs with
  | clock | read => exact hf
  | lock hholder | arm hholder | cancel hholder => cases hholder.symm.trans hf
  | take | store | unlock => exact absurd rfl hl

theorem Sound.step_waking {l : Label} {i : ℕ} {wakers : List (ℕ × ℕ)} (h : t.Sound)
    (hs : t.step l = some t') (hi : t.waking[i]? = some wakers) :
    t'.waking[i]? = some wakers := by
  cases h.step_takes hs with
  | unlock => exact List.getElem?_append_left (List.getElem?_eq_some_iff.mp hi).1 ▸ hi
  | _ => exact hi

theorem wake_waking {i : ℕ} {woken : ℕ × ℕ} (hs : t.wake i = some (woken, t')) :
    ∃ wakers, t.waking[i]? = some (woken :: wakers) ∧ t'.waking = t.waking.set i wakers := by
  obtain ⟨wakers, hi, hs⟩ := Option.bind_eq_some_iff.mp hs
  cases wakers with
  | nil => cases hs
  | cons first wakers =>
    cases hs
    exact ⟨wakers, hi, rfl⟩

end Timers

end Eddy.TimerWheel
