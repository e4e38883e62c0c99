import Eddy.Interleaving
import Mathlib.Order.Bounds.Basic

/-!
# Intervals

`Interval` of `time/mod.rs`. Instants and periods are numbers of nanoseconds. `tick` captures the
deadline, awaits the sleep, which may be ready at any reading of the clock, and sets the next
deadline by the behaviour that was chosen for missed ticks. The future of `tick` may be dropped
while it waits.
-/

namespace Eddy.Ticks
open Interleaving

inductive MissedTickBehavior where
  | burst
  | delay
  | skip
  deriving DecidableEq

/-- `interval_at` asserts that the period is not zero. -/
structure Interval where
  period : ℕ
  positive : 0 < period
  next : ℕ
  missedTickBehavior : MissedTickBehavior

/-- The loop `while next <= now`. -/
def skipTo (period : ℕ) (positive : 0 < period) (now next : ℕ) : ℕ :=
  if next ≤ now then skipTo period positive now (next + period) else next
termination_by now + 1 - next

/-- A tick that was returned, and the reading of the clock after its sleep. -/
structure Tick where
  deadline : ℕ
  now : ℕ
  behavior : MissedTickBehavior
  deriving DecidableEq

namespace Interval

/-- `interval_at` -/
def new (start period : ℕ) (positive : 0 < period) : Interval := ⟨period, positive, start, .burst⟩

/-- What `tick` does after its sleep. -/
def finish (i : Interval) (deadline now : ℕ) : Interval :=
  { i with next := match i.missedTickBehavior with
    | .burst => deadline + i.period
    | .delay => now + i.period
    | .skip => skipTo i.period i.positive now (deadline + i.period) }

end Interval

structure State where
  interval : Interval
  /-- The deadline that the live future of `tick` has captured. -/
  ticking : Option ℕ
  ticks : List Tick

def State.new (start period : ℕ) (positive : 0 < period) : State :=
  ⟨.new start period positive, none, []⟩

inductive Label where
  /-- `set_missed_tick_behavior`, while no future borrows the interval. -/
  | setBehavior (behavior : MissedTickBehavior)
  | tick
  | dropTick
  /-- The sleep is ready, and the clock is read. -/
  | ready (now : ℕ)

def step (s : State) : Label → Option State
  | .setBehavior behavior =>
    if s.ticking = none then
      some { s with interval := { s.interval with missedTickBehavior := behavior } }
    else none
  | .tick => if s.ticking = none then some { s with ticking := s.interval.next } else none
  | .dropTick => s.ticking.map fun _ => { s with ticking := none }
  | .ready now =>
    s.ticking.map fun deadline =>
      { s with
        interval := s.interval.finish deadline now
        ticking := none
        ticks := s.ticks ++ [⟨deadline, now, s.interval.missedTickBehavior⟩] }

/-- The instants at which there may be a tick after this one. -/
def grid (period first : ℕ) : Set ℕ := {d | ∃ k, d = first + k * period}

theorem skipTo_isLeast {period : ℕ} (positive : 0 < period) (now next : ℕ) :
    IsLeast {d ∈ grid period next | now < d} (skipTo period positive now next) := by
  fun_induction skipTo period positive now next with
  | case1 next hle ih =>
    obtain ⟨⟨⟨k, hk⟩, hlt⟩, hleast⟩ := ih
    refine ⟨⟨⟨k + 1, by rw [hk, Nat.succ_mul]; omega⟩, hlt⟩, ?_⟩
    rintro d ⟨⟨m, rfl⟩, hd⟩
    apply hleast
    cases m with
    | zero => omega
    | succ m => exact ⟨⟨m, by rw [Nat.succ_mul]; omega⟩, hd⟩
  | case2 next hlt =>
    refine ⟨⟨⟨0, by simp⟩, by omega⟩, ?_⟩
    rintro d ⟨⟨m, rfl⟩, -⟩
    exact Nat.le_add_right _ _

/-- The deadline after a tick. -/
def Follows (period : ℕ) (t : Tick) (next : ℕ) : Prop :=
  match t.behavior with
  | .burst => next = t.deadline + period
  | .delay => next = t.now + period
  | .skip => IsLeast {d ∈ grid period (t.deadline + period) | t.now < d} next

theorem follows_finish (i : Interval) (deadline now : ℕ) :
    Follows i.period ⟨deadline, now, i.missedTickBehavior⟩ (i.finish deadline now).next := by
  cases hbehavior : i.missedTickBehavior with
  | burst | delay => simp [Follows, Interval.finish, hbehavior]
  | skip =>
    simp only [Follows, Interval.finish, hbehavior]
    exact skipTo_isLeast i.positive now _

/-- The ticks, each of them with the deadline that the one before it has set, and the next one. -/
inductive Paced (start period : ℕ) : List Tick → ℕ → Prop where
  | start : Paced start period [] start
  | tick {ticks : List Tick} {t : Tick} {next : ℕ} (before : Paced start period ticks t.deadline)
      (follows : Follows period t next) : Paced start period (ticks ++ [t]) next

section
variable {start period next : ℕ} {ticks : List Tick} {t : Tick}

theorem mem_grid_trans {first second third : ℕ} (h : second ∈ grid period first)
    (h' : third ∈ grid period second) : third ∈ grid period first := by
  obtain ⟨k, rfl⟩ := h
  obtain ⟨m, rfl⟩ := h'
  exact ⟨k + m, by rw [Nat.add_mul]; omega⟩

/-- Only `delay` leaves the grid. -/
theorem Follows.mem_grid (h : Follows period t next) (hbehavior : t.behavior ≠ .delay) :
    next ∈ grid period (t.deadline + period) := by
  cases hcase : t.behavior with
  | delay => exact absurd hcase hbehavior
  | burst =>
    rw [Follows, hcase] at h
    exact ⟨0, by simpa using h⟩
  | skip =>
    rw [Follows, hcase] at h
    exact h.1.1

/-- A tick that is not early is followed by one that is a period later or more. -/
theorem Follows.le (h : Follows period t next) (hlate : t.deadline ≤ t.now) :
    t.deadline + period ≤ next := by
  by_cases hbehavior : t.behavior = .delay
  · rw [Follows, hbehavior] at h
    have h : next = t.now + period := h
    omega
  · obtain ⟨k, hk⟩ := h.mem_grid hbehavior
    omega

/-- A property of a tick that depends on how many were before it. -/
theorem Paced.forall_of {P : ℕ → Tick → Prop} (h : Paced start period ticks next)
    (hlast : ∀ earlier t, earlier ++ [t] <+: ticks → Paced start period earlier t.deadline →
      P earlier.length t) : ∀ k t, ticks[k]? = some t → P k t := by
  induction h with
  | start => simp
  | @tick earlier t next before follows ih =>
    intro k u hu
    rcases Nat.lt_trichotomy k earlier.length with hlt | rfl | hgt
    · rw [List.getElem?_append_left hlt] at hu
      refine ih (fun first u hinitial => ?_) k u hu
      exact hlast first u (hinitial.trans (List.prefix_append _ _))
    · obtain rfl : t = u := by simpa using hu
      exact hlast earlier t List.prefix_rfl before
    · rw [List.getElem?_eq_none (by simp; omega)] at hu
      cases hu

theorem Paced.le_next (h : Paced start period ticks next)
    (hlate : ∀ t ∈ ticks, t.deadline ≤ t.now) : start + ticks.length * period ≤ next := by
  induction h with
  | start => simp
  | @tick earlier t next before follows ih =>
    have hle := ih fun u hu => hlate u (List.mem_append_left _ hu)
    have hnext := follows.le (hlate t (by simp))
    rw [List.length_append, List.length_singleton, Nat.succ_mul]
    omega

theorem Paced.next_eq (h : Paced start period ticks next)
    (hburst : ∀ t ∈ ticks, t.behavior = .burst) : next = start + ticks.length * period := by
  induction h with
  | start => simp
  | @tick earlier t next before follows ih =>
    have heq := ih fun u hu => hburst u (List.mem_append_left _ hu)
    rw [Follows, hburst t (by simp)] at follows
    have hnext : next = t.deadline + period := follows
    rw [List.length_append, List.length_singleton, Nat.succ_mul]
    omega

theorem Paced.mem_grid (h : Paced start period ticks next)
    (hgrid : ∀ t ∈ ticks, t.behavior ≠ .delay) : next ∈ grid period start := by
  induction h with
  | start => exact ⟨0, by simp⟩
  | @tick earlier t next before follows ih =>
    have hdeadline := ih fun u hu => hgrid u (List.mem_append_left _ hu)
    have hstep : t.deadline + period ∈ grid period t.deadline := ⟨1, by simp⟩
    exact mem_grid_trans hdeadline
      (mem_grid_trans hstep (follows.mem_grid (hgrid t (by simp))))

end

/-- The ticks of an interval, under any changes of the behaviour and with any futures dropped. -/
structure State.Keeps (start period : ℕ) (s : State) : Prop where
  /-- Each deadline is set by the tick before it, from its behaviour. -/
  paced : Paced start period s.ticks s.interval.next
  ticking : ∀ deadline ∈ s.ticking, deadline = s.interval.next
  /-- The interval is never faster than its period. -/
  spaced : (∀ t ∈ s.ticks, t.deadline ≤ t.now) →
    ∀ (k : ℕ) (t : Tick), s.ticks[k]? = some t → start + k * period ≤ t.deadline
  /-- With `Burst` alone no tick is skipped and none drifts. -/
  burst : (∀ t ∈ s.ticks, t.behavior = .burst) →
    ∀ (k : ℕ) (t : Tick), s.ticks[k]? = some t → t.deadline = start + k * period
  /-- Without `Delay` the ticks stay on the grid. -/
  grid : (∀ t ∈ s.ticks, t.behavior ≠ .delay) →
    ∀ (k : ℕ) (t : Tick), s.ticks[k]? = some t → t.deadline ∈ grid period start

theorem Paced.keeps {start period : ℕ} {s : State} (h : Paced start period s.ticks s.interval.next)
    (hticking : ∀ deadline ∈ s.ticking, deadline = s.interval.next) : s.Keeps start period := by
  refine ⟨h, hticking, fun hlate => h.forall_of ?_, fun hburst => h.forall_of ?_,
    fun hgrid => h.forall_of ?_⟩
  · intro earlier t hinitial before
    exact before.le_next fun u hu => hlate u (hinitial.subset (List.mem_append_left _ hu))
  · intro earlier t hinitial before
    exact before.next_eq fun u hu => hburst u (hinitial.subset (List.mem_append_left _ hu))
  · intro earlier t hinitial before
    exact before.mem_grid fun u hu => hgrid u (hinitial.subset (List.mem_append_left _ hu))

structure Sound (start period : ℕ) (s : State) : Prop where
  kept : s.interval.period = period
  paced : Paced start period s.ticks s.interval.next
  ticking : ∀ deadline ∈ s.ticking, deadline = s.interval.next

theorem Sound.step {start period : ℕ} {s t : State} {label : Label} (h : Sound start period s)
    (hstep : step s label = some t) : Sound start period t := by
  obtain ⟨hperiod, hpaced, hticking⟩ := h
  cases label with
  | setBehavior behavior =>
    simp only [Ticks.step] at hstep
    split_ifs at hstep
    cases hstep
    exact ⟨hperiod, hpaced, hticking⟩
  | tick =>
    simp only [Ticks.step] at hstep
    split_ifs at hstep
    cases hstep
    exact ⟨hperiod, hpaced, fun deadline h => (Option.some.inj h).symm⟩
  | dropTick =>
    obtain ⟨deadline, -, rfl⟩ := Option.map_eq_some_iff.mp hstep
    exact ⟨hperiod, hpaced, fun deadline h => absurd h (by simp)⟩
  | ready now =>
    obtain ⟨deadline, hdeadline, rfl⟩ := Option.map_eq_some_iff.mp hstep
    obtain rfl := hticking deadline hdeadline
    refine ⟨hperiod, ?_, fun deadline h => absurd h (by simp)⟩
    have hfollows := follows_finish s.interval s.interval.next now
    rw [hperiod] at hfollows
    exact .tick hpaced hfollows

theorem ticks_kept {start period : ℕ} {positive : 0 < period} {s : State}
    (h : Reachable step anyStep (.new start period positive) s) : s.Keeps start period := by
  have hsound : Sound start period s := by
    apply h.invariant
    · exact ⟨rfl, .start, fun deadline h => absurd h (by simp [State.new])⟩
    · exact fun s label t hs _ hstep => hs.step hstep
  exact hsound.paced.keeps hsound.ticking

/-- A tick is late by more than two periods, and the ticks that were missed are skipped. -/
theorem ticks_kept_skipping : ∃ s, Reachable step anyStep (.new 10 5 (by decide)) s ∧
    s.ticks = [⟨10, 11, .burst⟩, ⟨15, 27, .skip⟩, ⟨30, 30, .skip⟩] ∧ s.Keeps 10 5 := by
  have hrun : run (guarded step anyStep) (State.new 10 5 (by decide))
      [.tick, .ready 11, .setBehavior .skip, .tick, .dropTick, .tick, .ready 27, .tick, .ready 30] =
        some ⟨⟨5, by decide, 35, .skip⟩, none, [⟨10, 11, .burst⟩, ⟨15, 27, .skip⟩,
          ⟨30, 30, .skip⟩]⟩ := by
    have hlate : skipTo 5 (by decide) 27 20 = 30 := by
      rw [skipTo, if_pos (by decide), skipTo, if_pos (by decide), skipTo, if_neg (by decide)]
    have hpunctual : skipTo 5 (by decide) 30 35 = 35 := by rw [skipTo, if_neg (by decide)]
    simp [run, guarded, anyStep, step, State.new, Interval.new, Interval.finish, hlate, hpunctual]
  have hreach := reachable_of_run hrun
  exact ⟨_, hreach, rfl, ticks_kept hreach⟩

end Eddy.Ticks
