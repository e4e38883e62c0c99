import Eddy.TimerShared

/-!
# Which timers fire

A timer fires in `arm` when its deadline has passed, and in `advance_to_now` with all those
that share the earliest deadline that has passed.
-/

namespace Eddy.TimerWheel
open DeadlineMap Interleaving
open Function (update)

namespace TimerShared
variable {s s' : TimerShared}

theorem roundUpMs_lt (nanos : ℕ) : roundUpMs nanos < 2 ^ 64 := by
  have : roundUpMs nanos ≤ u64Max := min_le_right ..
  simp only [u64Max] at this
  omega

theorem roundUpMs_le {nanos ms : ℕ} (h : nanos ≤ ms * 1000000) : roundUpMs nanos ≤ ms := by
  refine (min_le_left ..).trans ?_
  split <;> omega

theorem instantToMs_lt (instant : ℤ) : instantToMs instant < 2 ^ 64 := by
  unfold instantToMs
  split
  · decide
  · exact roundUpMs_lt _

/-- An instant that has passed is not after the clock reading in milliseconds. -/
theorem instantToMs_le_now {instant : ℤ} (h : instant ≤ s.nowInstant) :
    instantToMs instant ≤ s.nowMs := by
  unfold nowInstant at h
  unfold instantToMs
  split
  · exact Nat.zero_le _
  · refine roundUpMs_le ?_
    omega

structure Sound (s : TimerShared) : Prop where
  clear : s.wheel.Clear
  unfired : ∀ id, (s.wheel.entries id).linked = true → (s.wheel.entries id).fired = false
  pausedElapsed_lt : s.pausedElapsed < 2 ^ 64

theorem Sound.nowMs_lt (h : s.Sound) : s.nowMs < 2 ^ 64 := by
  unfold nowMs
  split
  · exact h.pausedElapsed_lt
  · have : s.realElapsedMs ≤ u64Max := min_le_right ..
    simp only [u64Max] at this
    omega

/-- What a call of `advance_to_now` does. -/
structure Advanced (s s' : TimerShared) (ids : List ℕ) : Prop where
  sound : s'.Sound
  now : s'.nowMs = s.nowMs
  advances : Advances s.wheel.abstract s.nowMs ids s'.wheel.abstract
  fired : ∀ id, (s'.wheel.entries id).fired = (decide (id ∈ ids) || (s.wheel.entries id).fired)
  waker : ∀ id ∈ ids, (s'.wheel.entries id).waker = none
  firings : s'.firings = s.firings ++ ids.map fun id => ⟨id, s.nowMs, s.wheel.deadline id⟩

theorem Sound.advanceToNow (h : s.Sound) :
    ∃ ids s', s.advanceToNow = some s' ∧ Advanced s s' ids := by
  obtain ⟨ids, w, hrun, hclear, htimer, hadvance⟩ := h.clear.tick h.nowMs_lt
  obtain ⟨w₁, hw₁, htake⟩ := Option.map_eq_some_iff.mp hrun
  have hfields : ∀ id, ((fire w ids).entries id).linked = (w.entries id).linked ∧
      ((fire w ids).entries id).level = (w.entries id).level ∧
      ((fire w ids).entries id).slot = (w.entries id).slot ∧
      ((fire w ids).entries id).deadline = (w.entries id).deadline := by
    intro id
    simp only [fire]
    split <;> simp
  have hfired : ∀ id, (w.entries id).fired = (s.wheel.entries id).fired := fun id =>
    congrArg (fun t => t.2.1) (htimer id)
  have hmap : (fire w ids).abstract = w.abstract := by
    simp only [Wheel.abstract, State.mk.injEq]
    refine ⟨rfl, funext fun id => ?_⟩
    rw [Wheel.deadlines, Wheel.deadlines, Wheel.deadline, Wheel.deadline, (hfields id).1,
      (hfields id).2.2.2]
  refine ⟨ids, { s with
    wheel := fire w ids
    firings := s.firings ++ ids.map fun id => ⟨id, s.nowMs, s.wheel.deadline id⟩ }, ?_, ?_⟩
  · have hdeadline : ∀ id, w.deadline id = s.wheel.deadline id := fun id =>
      Wheel.deadline_eq_of_timer (htimer id)
    rw [TimerShared.advanceToNow, hw₁, Option.map_some, htake]
    simp only [hdeadline]
  · refine ⟨⟨⟨?_, hclear.pending⟩, fun id hid => ?_, h.pausedElapsed_lt⟩, rfl, ?_, fun id => ?_,
      fun id hid => ?_, rfl⟩
    · exact hclear.valid.setEntries (fun id => (hfields id).1) fun id _ => (hfields id).2
    · have hlinked : w.deadlines id = some (w.deadline id) :=
        Wheel.deadlines_eq_some.mpr ⟨by rw [← (hfields id).1]; exact hid, rfl⟩
      rw [show w.deadlines = without s.wheel.deadlines ids from hadvance.deadline_eq,
        without_eq_some] at hlinked
      obtain ⟨hbefore, hout⟩ := hlinked
      simp only [fire, hout, ↓reduceIte, hfired]
      exact h.unfired id (Wheel.deadlines_eq_some.mp hbefore).1
    · exact hmap ▸ hadvance
    · simp only [fire]
      split <;> simp_all
    · simp only [fire, hid, ↓reduceIte]

theorem Sound.advance (h : s.Sound) (hpaused : s.paused = true) (duration : ℕ) :
    ∃ ids s', s.advance duration = some s' ∧
      Advanced { s with
        pausedElapsed := (s.pausedElapsed + roundUpMs duration) % 2 ^ 64 } s' ids := by
  rw [TimerShared.advance, if_pos hpaused]
  refine Sound.advanceToNow ⟨h.clear, h.unfired, ?_⟩
  exact Nat.mod_lt _ (Nat.two_pow_pos 64)

variable {id waker : ℕ} {deadline : ℤ} {ids : List ℕ} {w : Wheel}

theorem Sound.setTimer {deadline : ℕ} {fired : Bool} {waker : Option ℕ}
    (h : w.Valid 0) (hid : (w.entries id).linked = false) :
    (setTimer w id deadline fired waker).Valid 0 := by
  refine h.setEntries (fun j => ?_) fun j hj => ?_
  · by_cases hj : j = id
    · subst hj
      simp
    · simp [hj]
  · have hne : j ≠ id := by
      rintro rfl
      simp [hid] at hj
    simp [hne]

/-- After `remove` the timer is not linked, and the others are as they were. -/
theorem Sound.remove (h : s.Sound) (id : ℕ) :
    (s.wheel.remove id).2.Clear ∧ (s.wheel.remove id).2.elapsed = s.wheel.elapsed ∧
      ((s.wheel.remove id).2.entries id).linked = false ∧
      ∀ j, ((s.wheel.remove id).2.entries j).linked = true →
        ((s.wheel.remove id).2.entries j).fired = false := by
  obtain ⟨hvalid, -, helapsed, hpending, hentries⟩ := h.clear.valid.remove id
  refine ⟨⟨hvalid, List.eq_nil_iff_forall_not_mem.mpr fun j hj => ?_⟩, helapsed, ?_, fun j hj => ?_⟩
  · have hold := hpending j hj
    rw [h.clear.pending] at hold
    cases hold
  · rw [hentries]
    cases hlinked : (s.wheel.entries id).linked <;> simp [TimerEntry.unlink, hlinked]
  · rw [hentries] at hj ⊢
    by_cases hjid : j = id
    · subst hjid
      cases hlinked : (s.wheel.entries j).linked <;> simp [TimerEntry.unlink, hlinked] at hj
    · cases hlinked : (s.wheel.entries id).linked <;> simp [hlinked, hjid] at hj ⊢ <;>
        exact h.unfired j hj

/-- No more than one timer changes. -/
structure Alters (id : ℕ) (w w' : Wheel) : Prop where
  elapsed : w'.elapsed = w.elapsed
  entries : ∀ j ≠ id, w'.entries j = w.entries j

theorem Alters.trans {w' w'' : Wheel} (h : Alters id w w') (h' : Alters id w' w'') :
    Alters id w w'' :=
  ⟨h'.elapsed.trans h.elapsed, fun j hj => (h'.entries j hj).trans (h.entries j hj)⟩

theorem Alters.update {w' : Wheel} {entry : TimerEntry} (helapsed : w'.elapsed = w.elapsed)
    (hentries : w'.entries = update w.entries id entry) : Alters id w w' := by
  refine ⟨helapsed, fun j hj => ?_⟩
  rw [hentries, Function.update_of_ne hj]

theorem Alters.remove (w : Wheel) (id : ℕ) : Alters id w (w.remove id).2 := by
  unfold Wheel.remove
  simp only
  split_ifs
  · exact ⟨rfl, fun _ _ => rfl⟩
  · exact .update rfl rfl
  · exact .update rfl rfl
  · exact ⟨rfl, fun _ _ => rfl⟩

theorem Alters.insert (w : Wheel) (id : ℕ) : Alters id w (w.insert id) := by
  unfold Wheel.insert
  simp only
  split_ifs
  · exact .update rfl rfl
  · exact .update rfl rfl

theorem Alters.setTimer (w : Wheel) (id deadline : ℕ) (fired : Bool) (waker : Option ℕ) :
    Alters id w (setTimer w id deadline fired waker) :=
  .update rfl rfl

/-- What `arm` leaves behind under the lock. -/
structure Armed (s s' : TimerShared) (id : ℕ) (deadline : ℤ) (waker : ℕ) (due : Bool) : Prop where
  sound : s'.Sound
  alters : Alters id s.wheel s'.wheel
  now : s'.nowMs = s.nowMs
  deadline : (s'.wheel.entries id).deadline = instantToMs deadline
  fired : (s'.wheel.entries id).fired = due
  waker : (s'.wheel.entries id).waker = if due then none else some waker
  linked : (s'.wheel.entries id).linked = !due

theorem Sound.armDue (h : s.Sound) (id : ℕ) (deadline : ℤ) (waker : ℕ) :
    Armed s { s with
      wheel := TimerShared.setTimer (s.wheel.remove id).2 id (instantToMs deadline) true none
      firings := s.firings ++ [⟨id, s.nowMs, instantToMs deadline⟩] } id deadline waker true := by
  obtain ⟨hclear, -, hid, hunfired⟩ := h.remove id
  refine ⟨⟨⟨Sound.setTimer hclear.valid hid, hclear.pending⟩, fun j hj => ?_, h.pausedElapsed_lt⟩,
    (Alters.remove ..).trans (.setTimer ..), rfl, ?_, ?_, ?_, ?_⟩
  · by_cases hjid : j = id
    · subst hjid
      simp [TimerShared.setTimer, hid] at hj
    · simp only [TimerShared.setTimer, Function.update_of_ne hjid] at hj ⊢
      exact hunfired j hj
  all_goals simp [TimerShared.setTimer, hid]

/-- The timer goes into the wheel. -/
theorem Sound.armLater (h : s.Sound) (waker : ℕ)
    (hlater : (s.wheel.remove id).2.elapsed < instantToMs deadline) :
    Armed s { s with
      wheel := (TimerShared.setTimer (s.wheel.remove id).2 id (instantToMs deadline) false
        (some waker)).insert id } id deadline waker false := by
  obtain ⟨hclear, -, hid, hunfired⟩ := h.remove id
  let w := TimerShared.setTimer (s.wheel.remove id).2 id (instantToMs deadline) false (some waker)
  have hset : w.Valid 0 := Sound.setTimer hclear.valid hid
  have hentry : w.entries id = { (s.wheel.remove id).2.entries id with
      deadline := instantToMs deadline, fired := false, waker := some waker } :=
    Function.update_self ..
  have hdeadline : w.deadline id = instantToMs deadline := by rw [Wheel.deadline, hentry]
  have hfuture : w.elapsed < w.deadline id := by
    rw [hdeadline]
    exact hlater
  have hlink := Wheel.insert_relinks w id
  have htimer : (w.insert id).timer id = (instantToMs deadline, false, some waker) := by
    rw [hlink.timer, Wheel.timer, hentry]
  refine ⟨⟨⟨hset.insert (by rw [hentry]; exact hid) ?_, ?_⟩, fun j hj => ?_, h.pausedElapsed_lt⟩,
    ((Alters.remove ..).trans (.setTimer ..)).trans (.insert ..), rfl, ?_, ?_, ?_, ?_⟩
  · rw [hdeadline]
    exact instantToMs_lt deadline
  · exact (Wheel.insert_pending hfuture).trans hclear.pending
  · have hfired : ((w.insert id).entries j).fired = (w.entries j).fired :=
      congrArg (fun t => t.2.1) (hlink.timer j)
    change ((w.insert id).entries j).linked = true at hj
    change ((w.insert id).entries j).fired = false
    rw [hfired]
    by_cases hjid : j = id
    · subst hjid
      rw [hentry]
    · have hsame : w.entries j = (s.wheel.remove id).2.entries j := Function.update_of_ne hjid ..
      rw [hlink.linked, hsame] at hj
      rw [hsame]
      exact hunfired j (hj.resolve_right (by simp [hjid]))
  · exact congrArg (fun t => t.1) htimer
  · exact congrArg (fun t => t.2.1) htimer
  · exact congrArg (fun t => t.2.2) htimer
  · exact (hlink.linked id).mpr (.inr (List.mem_singleton_self id))

theorem Sound.armLocked (h : s.Sound) (alreadyDue : Bool) (id : ℕ) (deadline : ℤ) (waker : ℕ) :
    Armed s (s.armLocked alreadyDue id deadline waker).2 id deadline waker
      (s.armLocked alreadyDue id deadline waker).1 := by
  unfold TimerShared.armLocked
  simp only
  split
  case isTrue => exact h.armDue id deadline waker
  case isFalse hfuture =>
    simp only [Bool.or_eq_true, decide_eq_true_eq, not_or, Nat.not_le] at hfuture
    exact h.armLater waker hfuture.2

theorem Sound.arm (h : s.Sound) (id : ℕ) (deadline : ℤ) (waker : ℕ) :
    (s.arm id deadline waker).2.Sound :=
  (h.armLocked _ id deadline waker).sound

theorem Sound.cancel (h : s.Sound) (id : ℕ) : (s.cancel id).Sound := by
  obtain ⟨hclear, -, hid, hunfired⟩ := h.remove id
  refine ⟨⟨?_, hclear.pending⟩, fun j hj => ?_, h.pausedElapsed_lt⟩
  · refine hclear.valid.setEntries (fun j => ?_) fun j _ => ?_ <;>
      by_cases hj : j = id <;> simp [hj]
  · by_cases hjid : j = id
    · subst hjid
      simp [TimerShared.cancel, hid] at hj
    · simp only [TimerShared.cancel, Function.update_of_ne hjid] at hj ⊢
      exact hunfired j hj

theorem arm_alters (s : TimerShared) (id : ℕ) (deadline : ℤ) (waker : ℕ) :
    Alters id s.wheel (s.arm id deadline waker).2.wheel := by
  unfold arm armLocked
  simp only
  split_ifs
  · exact (Alters.remove ..).trans (.setTimer ..)
  · exact ((Alters.remove ..).trans (.setTimer ..)).trans (.insert ..)

theorem cancel_alters (s : TimerShared) (id : ℕ) : Alters id s.wheel (s.cancel id).wheel :=
  (Alters.remove ..).trans (.update rfl rfl)

theorem remove_fired (w : Wheel) (id j : ℕ) :
    ((w.remove id).2.entries j).fired = (w.entries j).fired := by
  unfold Wheel.remove
  simp only
  split_ifs <;> by_cases hj : j = id <;> simp [hj, TimerEntry.unlink]

theorem cancel_fired (s : TimerShared) (id j : ℕ) :
    ((s.cancel id).wheel.entries j).fired = (s.wheel.entries j).fired := by
  by_cases hj : j = id
  · simp [TimerShared.cancel, hj, remove_fired]
  · simp [TimerShared.cancel, hj, remove_fired]

theorem Sound.arm_fired (h : s.Sound)
    (hfired : (s.arm id deadline waker).1 = true) :
    ((s.arm id deadline waker).2.wheel.entries id).linked = false := by
  unfold TimerShared.arm at hfired ⊢
  rw [(h.armLocked _ id deadline waker).linked, hfired]
  rfl

theorem Sound.cancel_linked (h : s.Sound) (id : ℕ) :
    ((s.cancel id).wheel.entries id).linked = false := by
  obtain ⟨-, -, hid, -⟩ := h.remove id
  simpa [TimerShared.cancel] using hid

/-- Everything that an action can do: let the clock pass or set it, call `advance_to_now` with
the clock at some reading, arm a timer or cancel one. -/
theorem Sound.step_cases {a : Action} (h : s.Sound) (hs : s.step a = some s') :
    (s'.wheel = s.wheel ∧ s'.firings = s.firings ∧ s'.pausedElapsed < 2 ^ 64) ∨
    (∃ s₁ ids, s₁.wheel = s.wheel ∧ s₁.firings = s.firings ∧ Advanced s₁ s' ids) ∨
    (∃ id deadline waker, a = .arm id deadline waker ∧ s' = (s.arm id deadline waker).2) ∨
    (∃ id, s' = s.cancel id) := by
  have hadvance : ∀ duration, s.advance duration = some s' →
      ∃ s₁ ids, s₁.wheel = s.wheel ∧ s₁.firings = s.firings ∧ Advanced s₁ s' ids := by
    intro duration hs
    by_cases hpaused : s.paused = true
    · obtain ⟨ids, s₂, hrun, hadvanced⟩ := h.advance hpaused duration
      rw [hrun] at hs
      cases hs
      exact ⟨{ s with pausedElapsed := (s.pausedElapsed + roundUpMs duration) % 2 ^ 64 }, ids,
        rfl, rfl, hadvanced⟩
    · rw [TimerShared.advance, if_neg hpaused] at hs
      cases hs
  cases a with
  | clock real =>
    simp only [TimerShared.step] at hs
    split_ifs at hs
    cases hs
    exact .inl ⟨rfl, rfl, h.pausedElapsed_lt⟩
  | pause =>
    cases hs
    unfold pause
    split
    · exact .inl ⟨rfl, rfl, h.pausedElapsed_lt⟩
    · refine .inl ⟨rfl, rfl, ?_⟩
      have hle : s.realElapsedMs ≤ u64Max := min_le_right ..
      exact lt_of_le_of_lt hle (by decide)
  | resume | setAutoAdvance =>
    cases hs
    exact .inl ⟨rfl, rfl, h.pausedElapsed_lt⟩
  | advance duration => exact .inr (.inl (hadvance duration hs))
  | pausedAdvance =>
    obtain ⟨⟨moved, s₁⟩, hrun, rfl⟩ := Option.map_eq_some_iff.mp hs
    unfold pausedAdvance at hrun
    split at hrun
    · cases hrun
      exact .inl ⟨rfl, rfl, h.pausedElapsed_lt⟩
    · split at hrun
      · obtain ⟨s₂, hadv, hpair⟩ := Option.map_eq_some_iff.mp hrun
        cases hpair
        exact .inr (.inl (hadvance _ hadv))
      · split at hrun
        · obtain ⟨s₂, hadv, hpair⟩ := Option.map_eq_some_iff.mp hrun
          cases hpair
          exact .inr (.inl (hadvance _ hadv))
        · cases hrun
          exact .inl ⟨rfl, rfl, h.pausedElapsed_lt⟩
  | advanceToNow =>
    obtain ⟨ids, s₁, hrun, hadvanced⟩ := h.advanceToNow
    rw [show s.step .advanceToNow = s.advanceToNow from rfl, hrun] at hs
    cases hs
    exact .inr (.inl ⟨s, ids, rfl, rfl, hadvanced⟩)
  | arm id deadline waker =>
    cases hs
    exact .inr (.inr (.inl ⟨id, deadline, waker, rfl, rfl⟩))
  | cancel id =>
    cases hs
    exact .inr (.inr (.inr ⟨id, rfl⟩))

theorem Sound.step {a : Action} (h : s.Sound) (hs : s.step a = some s') : s'.Sound := by
  rcases h.step_cases hs with ⟨hwheel, -, hlt⟩ | ⟨s₁, ids, -, -, hadvanced⟩ |
    ⟨id, deadline, waker, -, rfl⟩ | ⟨id, rfl⟩
  · exact ⟨hwheel ▸ h.clear, hwheel ▸ h.unfired, hlt⟩
  · exact hadvanced.sound
  · exact h.arm id deadline waker
  · exact h.cancel id

theorem Sound.new : TimerShared.new.Sound :=
  ⟨⟨.new, rfl⟩, by simp [TimerShared.new, Wheel.new], by decide⟩

theorem sound_of_reachable {guard : TimerShared → Action → Prop}
    (h : Reachable TimerShared.step guard .new s) : s.Sound :=
  h.invariant .new fun _ _ _ hs _ hstep => hs.step hstep

/-- Every timer that has fired did so at a clock reading not before its deadline. -/
def NeverEarly (s : TimerShared) : Prop := ∀ f ∈ s.firings, f.deadline ≤ f.now

/-- No timer is armed for a time that the wheel has passed and the clock has not. -/
def ArmsInStep (s : TimerShared) : Action → Prop
  | .arm _ deadline _ =>
    ¬ (s.nowMs < instantToMs deadline ∧ instantToMs deadline ≤ s.wheel.elapsed)
  | _ => True

instance (s : TimerShared) : ∀ a, Decidable (s.ArmsInStep a)
  | .arm _ deadline _ => inferInstanceAs (Decidable
      (¬ (s.nowMs < instantToMs deadline ∧ instantToMs deadline ≤ s.wheel.elapsed)))
  | .clock _ | .pause | .resume | .setAutoAdvance _ | .advance _ | .pausedAdvance
  | .advanceToNow | .cancel _ => inferInstanceAs (Decidable True)

instance (s : TimerShared) : Decidable s.NeverEarly :=
  inferInstanceAs (Decidable (∀ f ∈ s.firings, f.deadline ≤ f.now))

theorem Advanced.due (h : Advanced s s' ids) (hid : id ∈ ids) :
    s.wheel.deadline id ≤ s.nowMs := by
  obtain ⟨d, hd, hdeadline, -⟩ := h.advances.due.2 id hid
  obtain ⟨-, rfl⟩ := Wheel.deadlines_eq_some.mp hdeadline
  exact hd

theorem NeverEarly.arm (h : s.NeverEarly) (hsound : s.Sound)
    (hin : s.ArmsInStep (.arm id deadline waker)) : (s.arm id deadline waker).2.NeverEarly := by
  unfold TimerShared.arm TimerShared.armLocked
  simp only
  split
  · rename_i hdue
    intro f hf
    rcases List.mem_append.mp hf with hf | hf
    · exact h f hf
    · obtain rfl := List.mem_singleton.mp hf
      rw [Bool.or_eq_true, decide_eq_true_eq, decide_eq_true_eq] at hdue
      rcases hdue with hdue | hpassed
      · exact instantToMs_le_now hdue
      · rw [(hsound.remove id).2.1] at hpassed
        by_contra hearly
        exact hin ⟨Nat.lt_of_not_le hearly, hpassed⟩
  · exact h

theorem timers_never_early (h : Reachable TimerShared.step ArmsInStep .new s) : s.NeverEarly := by
  have hinv : s.Sound ∧ s.NeverEarly := by
    refine h.invariant (I := fun s => s.Sound ∧ s.NeverEarly)
      ⟨.new, by simp [NeverEarly, TimerShared.new]⟩ ?_
    rintro s a s' ⟨hsound, hnever⟩ hin hs
    refine ⟨hsound.step hs, ?_⟩
    rcases hsound.step_cases hs with ⟨-, hfirings, -⟩ | ⟨s₁, ids, hwheel, hfirings, hadvanced⟩ |
      ⟨id, deadline, waker, rfl, rfl⟩ | ⟨id, rfl⟩
    · intro f hf
      rw [hfirings] at hf
      exact hnever f hf
    · intro f hf
      rw [hadvanced.firings, hfirings] at hf
      rcases List.mem_append.mp hf with hf | hf
      · exact hnever f hf
      · obtain ⟨id, hid, rfl⟩ := List.mem_map.mp hf
        exact hadvanced.due hid
    · exact hnever.arm hsound hin
    · exact hnever
  exact hinv.2

/-- After `resume` took the clock back from 100 ms, a timer armed for 150 ms fires at 150 ms. -/
theorem timer_fires_after_resume :
    ∃ s, Reachable TimerShared.step ArmsInStep .new s ∧ s.firings = [⟨0, 150, 150⟩] ∧
      s.NeverEarly := by
  have hrun : (run (guarded TimerShared.step ArmsInStep) .new
      [.pause, .advance 100000000, .resume, .arm 0 150000000 7, .clock 150000000,
        .advanceToNow]).any (fun s => decide (s.firings = [⟨0, 150, 150⟩])) = true := by
    decide +kernel
  obtain ⟨s, hreach, hfirings⟩ := exists_reachable_of_run hrun
  exact ⟨s, hreach, of_decide_eq_true hfirings, timers_never_early hreach⟩

/-- After `resume` took the clock back from 100 ms to 0 ms, a timer armed for 50 ms fires at
once: the wheel has been at 100 ms. -/
theorem timer_fires_early_after_resume :
    ¬ ∀ s, Reachable TimerShared.step anyStep .new s → s.NeverEarly := by
  intro h
  have hrun : (run (guarded TimerShared.step anyStep) .new
      [.pause, .advance 100000000, .resume, .arm 0 50000000 7]).any
        (fun s => decide (¬ s.NeverEarly)) = true := by
    decide +kernel
  obtain ⟨s, hreach, hearly⟩ := exists_reachable_of_run hrun
  exact of_decide_eq_true hearly (h s hreach)

/-- The armed timers of `s` that are due at the clock of `s'` have fired in `s'`. -/
def FiresDue (s s' : TimerShared) : Prop :=
  ∀ id, (s.wheel.entries id).linked = true → s.wheel.deadline id ≤ s'.nowMs →
    (s'.wheel.entries id).fired = true ∧ (s'.wheel.entries id).waker = none

/-- The armed timers that are due at `now` have the same deadline. -/
def OneDeadline (s : TimerShared) (now : ℕ) : Prop :=
  ∀ i j, (s.wheel.entries i).linked = true → (s.wheel.entries j).linked = true →
    s.wheel.deadline i ≤ now → s.wheel.deadline j ≤ now → s.wheel.deadline i = s.wheel.deadline j

theorem Advanced.mem_of_fired (h : Advanced s s' ids) (hs : s.Sound)
    (hid : (s.wheel.entries id).linked = true) (hfired : (s'.wheel.entries id).fired = true) :
    id ∈ ids := by
  rw [h.fired, hs.unfired id hid, Bool.or_false] at hfired
  exact of_decide_eq_true hfired

theorem Advanced.firesDue_iff (h : Advanced s s' ids) (hs : s.Sound) :
    FiresDue s s' ↔ OneDeadline s s.nowMs := by
  have hlive : ∀ {id}, (s.wheel.entries id).linked = true →
      s.wheel.abstract.deadline id = some (s.wheel.deadline id) := fun hid =>
    Wheel.deadlines_eq_some.mpr ⟨hid, rfl⟩
  unfold FiresDue
  rw [h.now]
  constructor
  · intro hfires i j hi hj hdi hdj
    have hmem : ∀ {id}, (s.wheel.entries id).linked = true → s.wheel.deadline id ≤ s.nowMs →
        id ∈ ids := fun hid hd => h.mem_of_fired hs hid (hfires _ hid hd).1
    obtain ⟨d, -, hd, hfirst⟩ := h.advances.due.2 i (hmem hi hdi)
    obtain ⟨e, -, he, hfirst'⟩ := h.advances.due.2 j (hmem hj hdj)
    rw [hlive hi, Option.some.injEq] at hd
    rw [hlive hj, Option.some.injEq] at he
    have := hfirst j _ (hlive hj)
    have := hfirst' i _ (hlive hi)
    omega
  · intro hone id hid hdue
    have hmem : id ∈ ids := by
      refine h.advances.mem_of_one_deadline hs.clear.future (hlive hid) hdue fun j e hj hle => ?_
      obtain ⟨hjlinked, rfl⟩ := Wheel.deadlines_eq_some.mp hj
      exact hone j id hjlinked hid hle hdue
    refine ⟨?_, h.waker id hmem⟩
    rw [h.fired, decide_eq_true hmem, Bool.true_or]

/-- An advance fires every timer that is due exactly if these have one deadline: it stops after
the first deadline at which timers fire. -/
theorem advance_fires_due_iff (h : Reachable TimerShared.step anyStep .new s) :
    (s.paused = true → ∀ duration, ∃ s', s.advance duration = some s' ∧
      s'.nowMs = (s.pausedElapsed + roundUpMs duration) % 2 ^ 64 ∧
      (FiresDue s s' ↔ OneDeadline s ((s.pausedElapsed + roundUpMs duration) % 2 ^ 64))) ∧
    ∃ s', s.advanceToNow = some s' ∧ s'.nowMs = s.nowMs ∧
      (FiresDue s s' ↔ OneDeadline s s.nowMs) := by
  have hs := sound_of_reachable h
  constructor
  · intro hpaused duration
    obtain ⟨ids, s', hrun, hadvanced⟩ := hs.advance hpaused duration
    let s₁ := { s with pausedElapsed := (s.pausedElapsed + roundUpMs duration) % 2 ^ 64 }
    have hs₁ : s₁.Sound := ⟨hs.clear, hs.unfired, Nat.mod_lt _ (Nat.two_pow_pos 64)⟩
    have hnow : s₁.nowMs = (s.pausedElapsed + roundUpMs duration) % 2 ^ 64 := if_pos hpaused
    refine ⟨s', hrun, hadvanced.now.trans hnow, ?_⟩
    rw [← hnow]
    exact hadvanced.firesDue_iff hs₁
  · obtain ⟨ids, s', hrun, hadvanced⟩ := hs.advanceToNow
    exact ⟨s', hrun, hadvanced.now, hadvanced.firesDue_iff hs⟩

theorem Sound.linked_of_arm (h : s.Sound) {j : ℕ}
    (hs : s.step (.arm id deadline waker) = some s') (hj : (s'.wheel.entries j).linked = true) :
    j = id ∨ (s.wheel.entries j).linked = true := by
  cases hs
  by_cases hjid : j = id
  · exact .inl hjid
  · obtain ⟨-, -, -, -, hentries⟩ := h.clear.valid.remove id
    have hremove : ((s.wheel.remove id).2.entries j).linked = (s.wheel.entries j).linked := by
      rw [hentries]
      cases (s.wheel.entries id).linked <;> simp [hjid]
    refine .inr ?_
    unfold TimerShared.arm TimerShared.armLocked at hj
    simp only at hj
    split at hj
    · simpa [TimerShared.setTimer, Function.update_of_ne hjid, hremove] using hj
    · rw [(Wheel.insert_relinks _ id).linked] at hj
      simpa [TimerShared.setTimer, Function.update_of_ne hjid, hremove, hjid] using hj

/-- Paused at 0 ms with two timers armed for 5 ms: an advance by 20 ms fires both. -/
theorem advance_fires_two_timers_of_one_deadline :
    ∃ s s', Reachable TimerShared.step anyStep .new s ∧ s.paused = true ∧
      (s.wheel.entries 0).linked = true ∧ (s.wheel.entries 1).linked = true ∧
      s.advance 20000000 = some s' ∧ FiresDue s s' := by
  let s₁ := TimerShared.new.pause
  let s₂ := (s₁.arm 0 5000000 7).2
  let s₃ := (s₂.arm 1 5000000 8).2
  have h₁ : Reachable TimerShared.step anyStep .new s₁ := .next .start trivial
    (show TimerShared.new.step .pause = some s₁ from rfl)
  have hfirst : s₁.step (.arm 0 5000000 7) = some s₂ := rfl
  have h₂ : Reachable TimerShared.step anyStep .new s₂ := .next h₁ trivial hfirst
  have hsecond : s₂.step (.arm 1 5000000 8) = some s₃ := rfl
  have h₃ : Reachable TimerShared.step anyStep .new s₃ := .next h₂ trivial hsecond
  have hpaused : s₃.paused = true := by decide +kernel
  obtain ⟨s', hrun, -, hiff⟩ := (advance_fires_due_iff h₃).1 hpaused 20000000
  refine ⟨s₃, s', h₃, hpaused, by decide +kernel, by decide +kernel, hrun, hiff.mpr ?_⟩
  have hdeadline : ∀ id, (s₃.wheel.entries id).linked = true → s₃.wheel.deadline id = 5 := by
    intro id hid
    rcases (sound_of_reachable h₂).linked_of_arm hsecond hid with rfl | hid
    · decide +kernel
    · rcases (sound_of_reachable h₁).linked_of_arm hfirst hid with rfl | hid
      · decide +kernel
      · simp [s₁, TimerShared.new, TimerShared.pause, Wheel.new] at hid
  intro i j hi hj _ _
  rw [hdeadline i hi, hdeadline j hj]

/-- With timers armed for 5 ms and for 10 ms an advance by 20 ms leaves the second waiting. -/
theorem advance_leaves_due_timer :
    ¬ ∀ s, Reachable TimerShared.step anyStep .new s → s.paused = true → ∀ duration s',
      s.advance duration = some s' → FiresDue s s' := by
  intro h
  have hrun : (run (guarded TimerShared.step anyStep) .new
      [.pause, .arm 0 5000000 7, .arm 1 10000000 8]).any (fun s =>
        s.paused && (s.wheel.entries 1).linked && (s.wheel.deadline 1 == 10) &&
          (s.advance 20000000).any fun s' =>
            decide (s'.nowMs = 20) && !(s'.wheel.entries 1).fired) = true := by
    decide +kernel
  obtain ⟨s, hreach, hs⟩ := exists_reachable_of_run hrun
  simp only [Bool.and_eq_true, beq_iff_eq, Option.any_eq_true, decide_eq_true_eq,
    Bool.not_eq_true'] at hs
  obtain ⟨⟨⟨hpaused, hlinked⟩, hdeadline⟩, s', hadvance, hnow, hfired⟩ := hs
  have hdue : s.wheel.deadline 1 ≤ s'.nowMs := by omega
  have hfires := h s hreach hpaused 20000000 s' hadvance 1 hlinked hdue
  simp [hfires.1] at hfired

end TimerShared

end Eddy.TimerWheel
