import Eddy.TimerWheelRefinement

/-!
# The loop of `advance_to` ends

Each iteration turns the wheel to the next boundary. One that finds nothing due there has moved
`elapsed`, for a timer that is still linked is filed beyond the boundary; and no boundary that the
loop goes to is after `now`.
-/

namespace Eddy.TimerWheel
open Interleaving

/-- One iteration of the loop. -/
structure Pass where
  /-- What `elapsed` is set to, in order. -/
  assigned : List ℕ
  wheel : Wheel
  exits : Bool

/-- `elapsed` does not go back, nor beyond `now`, and an iteration that does not exit moves it. -/
structure Pass.Forward (pass : Pass) (elapsed now : ℕ) : Prop where
  sorted : (elapsed :: pass.assigned).Pairwise (· ≤ ·)
  le : ∀ x ∈ pass.assigned, x ≤ now
  last : pass.assigned.getLast? = some pass.wheel.elapsed
  moves : pass.exits = false → elapsed < pass.wheel.elapsed

theorem Pass.Forward.between {pass : Pass} {elapsed now : ℕ} (h : pass.Forward elapsed now) :
    elapsed ≤ pass.wheel.elapsed ∧ pass.wheel.elapsed ≤ now := by
  have hlast := List.mem_of_getLast? h.last
  exact ⟨(List.pairwise_cons.mp h.sorted).1 _ hlast, h.le _ hlast⟩

namespace Wheel

/-- The body of the loop of `advance_to`. -/
def iterate (now : ℕ) (w : Wheel) : Pass :=
  match w.nextEventAt with
  | none => ⟨[now], { w with elapsed := now }, true⟩
  | some next =>
    if next > now then ⟨[now], { w with elapsed := now }, true⟩
    else
      let w := w.process now next
      if !w.pending.isEmpty then ⟨[next], w, true⟩
      else if w.nextEventAt.isNone then ⟨[next, now], { w with elapsed := now }, true⟩
      else ⟨[next], w, false⟩

def again (now : ℕ) (w : Wheel) (_ : Unit) : Option Wheel :=
  if (w.iterate now).exits then none else some (w.iterate now).wheel

/-- A call of `advance_to`. -/
structure Terminates (w : Wheel) (now : ℕ) : Prop where
  returns : ∃ w', w.advanceTo now = some w' ∧ w.elapsed ≤ w'.elapsed ∧
    w'.elapsed ≤ max w.elapsed now ∧
    (w.elapsed < now → ∀ fuel, now - w.elapsed < fuel → advanceLoop now fuel w = some w')
  forward : w.elapsed < now → ∀ v, Reachable (again now) anyStep w v →
    w.elapsed ≤ v.elapsed ∧ (v.iterate now).Forward v.elapsed now

variable {w w' : Wheel} {now next : ℕ}

theorem advanceLoop_succ (now fuel : ℕ) (w : Wheel) : advanceLoop now (fuel + 1) w =
    if (w.iterate now).exits then some (w.iterate now).wheel
    else advanceLoop now fuel (w.iterate now).wheel := by
  rw [advanceLoop, iterate]
  cases w.nextEventAt with
  | none => rfl
  | some next =>
    simp only
    split_ifs <;> first | rfl | contradiction

/-- The wheel turns to the next boundary, where something is due or which is later. -/
theorem Valid.turn (h : w.Valid 0) (hevent : w.nextEventAt = some next) (hnow : next ≤ now) :
    (w.process now next).Valid 0 ∧ (w.process now next).elapsed = next ∧ w.elapsed ≤ next ∧
      ((w.process now next).pending = [] → w.elapsed < next) := by
  by_cases hempty : w.pending = []
  · obtain ⟨hvalid, -, helapsed, -⟩ := h.boundary hempty hevent hnow
    have hfuture := (h.nextEventAt_some hempty hevent).1
    exact ⟨hvalid, helapsed, hfuture.le, fun _ => hfuture⟩
  · rw [nextEventAt, if_pos (by simpa using hempty)] at hevent
    cases hevent
    have hready : Valid 6 { w with elapsed := w.elapsed } := h.mono (Nat.zero_le 6)
    obtain ⟨hvalid, hmoved⟩ := hready.process hnow
    refine ⟨hvalid, hmoved.elapsed, le_rfl, fun hnone => ?_⟩
    obtain ⟨j, hj⟩ := List.exists_mem_of_ne_nil _ hempty
    have hkept := hmoved.pending j hj
    rw [hnone] at hkept
    cases hkept

theorem Valid.iterate (h : w.Valid 0) (hle : w.elapsed ≤ now) :
    (w.iterate now).Forward w.elapsed now ∧
      ((w.iterate now).exits = false → (w.iterate now).wheel.Valid 0) := by
  have harrive : (Pass.mk [now] { w with elapsed := now } true).Forward w.elapsed now :=
    ⟨by simpa using hle, by simp, rfl, nofun⟩
  rw [Wheel.iterate]
  cases hevent : w.nextEventAt with
  | none => exact ⟨harrive, nofun⟩
  | some next =>
    simp only
    split_ifs with hbeyond hpending hnone
    · exact ⟨harrive, nofun⟩
    all_goals
      have hnow : next ≤ now := Nat.le_of_not_lt hbeyond
      obtain ⟨hvalid, helapsed, hback, hmoves⟩ := h.turn hevent hnow
    · exact ⟨⟨by simpa using hback, by simpa using hnow, by simp [helapsed], nofun⟩, nofun⟩
    · exact ⟨⟨by simp [hback, hle, hnow], by simp [hnow], rfl, nofun⟩, nofun⟩
    · refine ⟨⟨by simpa using hback, by simpa using hnow, by simp [helapsed], fun _ => ?_⟩,
        fun _ => hvalid⟩
      rw [helapsed]
      exact hmoves (by simpa using hpending)

/-- The distance from `elapsed` to `now` bounds the iterations. -/
theorem Valid.loop_returns (h : w.Valid 0) (hle : w.elapsed ≤ now) :
    ∃ w', w.elapsed ≤ w'.elapsed ∧ w'.elapsed ≤ now ∧
      ∀ fuel, now - w.elapsed < fuel → Wheel.advanceLoop now fuel w = some w' := by
  induction hn : now - w.elapsed using Nat.strong_induction_on generalizing w with
  | _ n ih =>
    obtain ⟨hforward, hvalid⟩ := h.iterate hle
    obtain ⟨hback, hpast⟩ := hforward.between
    cases hexits : (w.iterate now).exits with
    | true =>
      refine ⟨(w.iterate now).wheel, hback, hpast, fun fuel hfuel => ?_⟩
      obtain ⟨fuel, rfl⟩ := Nat.exists_eq_add_one_of_ne_zero (Nat.ne_zero_of_lt hfuel)
      rw [advanceLoop_succ, hexits, if_pos rfl]
    | false =>
      have hmoves := hforward.moves hexits
      obtain ⟨w', hback', hpast', hloop⟩ := ih _ (by omega) (hvalid hexits) hpast rfl
      refine ⟨w', hback.trans hback', hpast', fun fuel hfuel => ?_⟩
      obtain ⟨fuel, rfl⟩ := Nat.exists_eq_add_one_of_ne_zero (Nat.ne_zero_of_lt hfuel)
      rw [advanceLoop_succ, hexits, if_neg Bool.false_ne_true]
      exact hloop fuel (by omega)

/-- What holds whenever the loop begins an iteration. -/
theorem Valid.again {v : Wheel} (h : w.Valid 0) (hle : w.elapsed ≤ now)
    (hv : Reachable (again now) anyStep w v) :
    v.Valid 0 ∧ w.elapsed ≤ v.elapsed ∧ v.elapsed ≤ now := by
  refine hv.invariant (I := fun v => v.Valid 0 ∧ w.elapsed ≤ v.elapsed ∧ v.elapsed ≤ now)
    ⟨h, le_rfl, hle⟩ ?_
  rintro v ⟨⟩ v' ⟨hvalid, hback, hpast⟩ - hstep
  unfold Wheel.again at hstep
  split_ifs at hstep with hexits
  obtain rfl := Option.some.inj hstep
  obtain ⟨hforward, hnext⟩ := hvalid.iterate hpast
  obtain ⟨hback', hpast'⟩ := hforward.between
  exact ⟨hnext (Bool.not_eq_true _ ▸ hexits), hback.trans hback', hpast'⟩

/-- After any calls, `advance_to` returns, and `elapsed` only moves forward on the way. -/
theorem advance_to_terminates (hw : Reachable Wheel.step anyStep Wheel.new w) (now : ℕ) :
    w.Terminates now := by
  have hsound : w.Sound := hw.invariant ⟨.new, by simp [Wheel.new]⟩
    fun _ _ _ hw _ hstep => hw.step hstep
  refine ⟨?_, fun hlt v hv => ?_⟩
  · rcases Nat.lt_or_ge w.elapsed now with hlt | hge
    · obtain ⟨w', hback, hpast, hloop⟩ := hsound.valid.loop_returns hlt.le
      refine ⟨w', ?_, hback, hpast.trans (le_max_right _ _), fun _ => hloop⟩
      rw [Wheel.advanceTo, if_neg (Nat.not_le.mpr hlt)]
      exact hloop _ (Nat.lt_succ_self _)
    · refine ⟨w, ?_, le_rfl, le_max_left _ _, fun hlt => absurd hlt (Nat.not_lt.mpr hge)⟩
      rw [Wheel.advanceTo, if_pos hge]
  · obtain ⟨hvalid, hback, hpast⟩ := hsound.valid.again hlt.le hv
    exact ⟨hback, (hvalid.iterate hpast).1⟩

/-- With timers for the last millisecond of `u64` and for 5000, the loop comes to 4096, where only
the second one is placed anew. -/
theorem advance_to_terminates_far : ∃ w : Wheel, Reachable Wheel.step anyStep Wheel.new w ∧
    (w.iterate 6000).exits = false ∧ (w.iterate 6000).wheel.elapsed = 4096 ∧
    w.Terminates 6000 := by
  have hreach : Reachable Wheel.step anyStep Wheel.new
      ((Wheel.new.schedule 7 u64Max).schedule 4 5000) :=
    .next (.next .start trivial (show Wheel.new.step (.insert 7 u64Max) = _ by
      simp [Wheel.step, Wheel.new, u64Max])) trivial
      (show Wheel.step (Wheel.new.schedule 7 u64Max) (.insert 4 5000) = _ by
        rw [Wheel.step, if_pos (by decide +kernel)])
  exact ⟨_, hreach, by decide +kernel, by decide +kernel, advance_to_terminates hreach 6000⟩

end Wheel
end Eddy.TimerWheel
