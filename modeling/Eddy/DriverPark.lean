import Eddy.Driver

/-!
# Timers reach the parked driver

A kernel wait never outlasts the next event of the wheel without the poller having been woken or a
thread being about to wake it, unless a thread that has armed a timer notified a sleeper on the
condvar instead.
-/

namespace Eddy.Driver
open Interleaving TimerWheel

def Worker.holds : Worker → ℕ
  | .running | .sleeps => 0
  | .claimed | .clears | .advances | .swaps | .reads | .enters _ | .waits _ | .returned
  | .releases => 1

def Worker.wait : Worker → Option KernelWait
  | .enters wait | .waits wait => some wait
  | .running | .claimed | .clears | .advances | .swaps | .reads | .returned | .releases
  | .sleeps => none

theorem Worker.holds_of_wait {p : Worker} {w : KernelWait} (h : p.wait = some w) : p.holds = 1 := by
  cases p with
  | enters | waits => rfl
  | running | claimed | clears | advances | swaps | reads | returned | releases | sleeps => cases h

namespace KernelWait

theorem outlasts_of_zero (now time : ℕ) : outlasts ⟨now, some 0⟩ time = false := rfl

/-- A timeout that was just computed ends no later than the event of any timer. -/
theorem outlasts_of_nextTimeout {s : TimerShared} (h : s.Sound) {id : ℕ}
    (hlinked : (s.wheel.entries id).linked = true) :
    outlasts ⟨s.nowMs, s.nextTimeout⟩ (s.wheel.eventOf id) = false := by
  obtain ⟨time, hle, hnext⟩ := h.clear.valid.nextEventAt_le h.clear.pending hlinked
  unfold TimerShared.nextTimeout
  rw [hnext]
  simp only [Option.map_some, outlasts, Bool.and_eq_false_iff, bne_eq_false_iff_eq,
    decide_eq_false_iff_not, Nat.not_lt]
  omega

end KernelWait

namespace DriverShared
variable {s s' : DriverShared} {i j id : ℕ} {p q : Worker} {w : KernelWait}

def Delays (s : DriverShared) (w : KernelWait) (id : ℕ) : Prop :=
  (s.timer.wheel.entries id).linked = true ∧ w.outlasts (s.timer.wheel.eventOf id) = true

instance : Decidable (s.Delays w id) := inferInstanceAs (Decidable (_ ∧ _))

/-- The poller was woken, or the thread that has armed the timer may still wake it. -/
def Covered (s : DriverShared) (id : ℕ) : Prop :=
  s.pollerWoken = true ∨ ∃ c ∈ s.callers, c.timer = some id ∧ c.notify ≠ .decided true

structure Sound (s : DriverShared) : Prop where
  timer : s.timer.Sound
  holders : total Worker.holds s.workers = if s.holder.isSome then 1 else 0
  covered : ∀ (j : ℕ) (p : Worker) w, s.workers[j]? = some p → p.wait = some w →
    ∀ id, s.Delays w id → s.Covered id

theorem Sound.new (workers : ℕ) : (DriverShared.new workers).Sound := by
  have hrunning : ∀ {j : ℕ} {p : Worker},
      (List.replicate workers Worker.running)[j]? = some p → p = .running := by
    intro j p hp
    exact List.eq_of_mem_replicate (List.mem_of_getElem? hp)
  refine ⟨.new, ?_, fun j p w hp hw => ?_⟩
  · exact total_eq_zero_iff.mpr fun p hp => by rw [List.eq_of_mem_replicate hp]; rfl
  · rw [hrunning hp] at hw
    cases hw

theorem Sound.alone (h : s.Sound) (hi : s.workers[i]? = some p) (hp : p.holds = 1)
    (hj : s.workers[j]? = some q) (hq : q.wait = some w) : j = i := by
  by_contra hne
  have hle := add_le_total Worker.holds hne hj hi
  rw [Worker.holds_of_wait hq, hp, h.holders] at hle
  split_ifs at hle <;> omega

theorem Sound.hold (h : s.Sound) (hi : s.workers[i]? = some p) (hp : p.holds = 1)
    (hworkers : s'.workers = s.workers.set i q) (htimer : s'.timer.Sound)
    (hq : q.holds = if s'.holder.isSome then 1 else 0)
    (hwait : ∀ w, q.wait = some w → ∀ id, s'.Delays w id → s'.Covered id) : s'.Sound := by
  refine ⟨htimer, ?_, fun j p' w hj hw id hdelays => ?_⟩
  · have hset := total_set Worker.holds hi q
    have hle := le_total Worker.holds hi
    have hholders := h.holders
    rw [hworkers, ← hq]
    split_ifs at hholders <;> omega
  · rw [hworkers] at hj
    by_cases hji : j = i
    · subst hji
      rw [List.getElem?_set_self' , hi] at hj
      cases hj
      exact hwait w hw id hdelays
    · rw [List.getElem?_set_ne (Ne.symm hji)] at hj
      exact absurd (h.alone hi hp hj hw) hji

/-- A worker that is not the holder moves. -/
theorem Sound.aside (h : s.Sound) (hi : s.workers[i]? = some p) (hp : p.holds = 0)
    (hq : q.holds = 0) (waiters : ℕ) :
    Sound ({ s with waiters := waiters }.setWorker i q) := by
  refine ⟨h.timer, ?_, fun j p' w hj hw id hdelays => ?_⟩
  · have hset := total_set Worker.holds hi q
    have hholders := h.holders
    change total Worker.holds (s.workers.set i q) = if s.holder.isSome then 1 else 0
    omega
  · change (s.workers.set i q)[j]? = some p' at hj
    by_cases hji : j = i
    · subst hji
      rw [List.getElem?_set_self', hi] at hj
      cases hj
      rw [Worker.holds_of_wait (show q.wait = some w from hw)] at hq
      cases hq
    · rw [List.getElem?_set_ne (Ne.symm hji)] at hj
      exact h.covered j p' w hj hw id hdelays

theorem Sound.claim (h : s.Sound) (hi : s.workers[i]? = some p) (hholder : s.holder = none) :
    Sound ({ s with holder := some i }.setWorker i .claimed) := by
  have hzero : total Worker.holds s.workers = 0 := by
    rw [h.holders, hholder]
    rfl
  have hnone : ∀ q ∈ s.workers, q.holds = 0 := total_eq_zero_iff.mp hzero
  refine ⟨h.timer, ?_, fun j q w hj hw => ?_⟩
  · have hset := total_set Worker.holds hi .claimed
    have := hnone p (List.mem_of_getElem? hi)
    change total Worker.holds (s.workers.set i .claimed) = 1
    simp only [Worker.holds] at hset this
    omega
  · change (s.workers.set i .claimed)[j]? = some q at hj
    by_cases hji : j = i
    · subst hji
      rw [List.getElem?_set_self', hi] at hj
      cases hj
      cases hw
    · rw [List.getElem?_set_ne (Ne.symm hji)] at hj
      have := hnone q (List.mem_of_getElem? hj)
      rw [Worker.holds_of_wait hw] at this
      cases this

theorem Sound.holder_isSome (h : s.Sound) (hi : s.workers[i]? = some p) (hp : p.holds = 1) :
    (if s.holder.isSome then 1 else 0) = 1 := by
  have hle := le_total Worker.holds hi
  rw [h.holders] at hle
  split_ifs at hle ⊢ <;> omega

theorem Sound.holdStep (h : s.Sound) (hi : s.workers[i]? = some p) (hstep : s.hold i p = some s') :
    s'.Sound := by
  cases p with
  | running | waits | sleeps => cases hstep
  | claimed =>
    cases hstep
    have hholder := h.holder_isSome hi rfl
    refine h.hold hi rfl rfl h.timer ?_ fun w hw => ?_
    · refine Eq.trans ?_ hholder.symm
      split_ifs <;> rfl
    · split_ifs at hw <;> cases hw
  | clears =>
    cases hstep
    exact h.hold hi rfl rfl h.timer (h.holder_isSome hi rfl).symm nofun
  | advances =>
    obtain ⟨timer, htimer, rfl⟩ := Option.map_eq_some_iff.mp hstep
    exact h.hold hi rfl rfl (h.timer.step htimer) (h.holder_isSome hi rfl).symm nofun
  | swaps =>
    cases hstep
    refine h.hold hi rfl rfl h.timer ?_ fun w hw id hdelays => ?_
    · refine Eq.trans ?_ (h.holder_isSome hi rfl).symm
      split_ifs <;> rfl
    · split_ifs at hw
      · cases hw
        cases (KernelWait.outlasts_of_zero ..).symm.trans hdelays.2
      · cases hw
  | reads =>
    cases hstep
    refine h.hold hi rfl rfl h.timer (h.holder_isSome hi rfl).symm fun w hw id hdelays => ?_
    cases hw
    have hends := KernelWait.outlasts_of_nextTimeout h.timer hdelays.1
    cases hends.symm.trans hdelays.2
  | enters wait =>
    cases hstep
    refine h.hold hi rfl rfl h.timer (h.holder_isSome hi rfl).symm fun w hw id hdelays => ?_
    exact h.covered i (.enters wait) w hi hw id hdelays
  | returned =>
    obtain ⟨timer, htimer, rfl⟩ := Option.map_eq_some_iff.mp hstep
    exact h.hold hi rfl rfl (h.timer.step htimer) (h.holder_isSome hi rfl).symm nofun
  | releases =>
    cases hstep
    exact h.hold hi rfl rfl h.timer rfl nofun

theorem Sound.returns (h : s.Sound) {wait : KernelWait} (hi : s.workers[i]? = some (.waits wait))
    (woken : Bool) : Sound ({ s with pollerWoken := woken }.setWorker i .returned) :=
  h.hold hi rfl rfl h.timer (h.holder_isSome hi rfl).symm nofun

/-- A timer is armed or cancelled; if it is in the wheel, a thread will notify the driver. -/
theorem Sound.alter (h : s.Sound) {timer : TimerShared} {callers : List Caller}
    (htimer : timer.Sound) (halters : TimerShared.Alters id s.timer.wheel timer.wheel)
    (hcallers : ∀ c ∈ s.callers, c ∈ callers)
    (hlinked : (timer.wheel.entries id).linked = true → ⟨some id, .starts⟩ ∈ callers) :
    Sound { s with timer := timer, callers := callers } := by
  refine ⟨htimer, h.holders, fun j p w hj hw id' hdelays => ?_⟩
  by_cases hid : id' = id
  · subst hid
    exact .inr ⟨_, hlinked hdelays.1, rfl, nofun⟩
  · have hentry := halters.entries id' hid
    have hbefore : s.Delays w id' := by
      refine ⟨?_, ?_⟩
      · rw [← hentry]
        exact hdelays.1
      · rw [← Wheel.eventOf_congr halters.elapsed hentry]
        exact hdelays.2
    rcases h.covered j p w hj hw id' hbefore with hwoken | ⟨c, hc, hown⟩
    · exact .inl hwoken
    · exact .inr ⟨c, hcallers c hc, hown⟩

theorem Sound.arm (h : s.Sound) (id : ℕ) (deadline : ℤ) (waker : ℕ) :
    (s.arm id deadline waker).Sound := by
  have htimer := h.timer.arm id deadline waker
  have halters := s.timer.arm_alters id deadline waker
  have hfired : (s.timer.arm id deadline waker).1 = true → _ := h.timer.arm_fired
  unfold DriverShared.arm
  generalize s.timer.arm id deadline waker = result at htimer halters hfired
  obtain ⟨fired, timer⟩ := result
  cases fired with
  | true =>
    refine h.alter htimer halters (fun c hc => hc) fun hlinked => ?_
    rw [hfired rfl] at hlinked
    cases hlinked
  | false =>
    exact h.alter htimer halters (fun c hc => List.mem_append_left _ hc) fun _ =>
      List.mem_append_right _ (List.mem_singleton.mpr rfl)

theorem Sound.cancel (h : s.Sound) (id : ℕ) : Sound { s with timer := s.timer.cancel id } := by
  refine h.alter (h.timer.cancel id) (s.timer.cancel_alters id) (fun c hc => hc) fun hlinked => ?_
  rw [h.timer.cancel_linked id] at hlinked
  cases hlinked

/-- Only the clock changes. -/
theorem Sound.sameWheel (h : s.Sound) {timer : TimerShared} (htimer : timer.Sound)
    (hwheel : timer.wheel = s.timer.wheel) : Sound { s with timer := timer } := by
  refine ⟨htimer, h.holders, fun j p w hj hw id hdelays => ?_⟩
  refine h.covered j p w hj hw id ?_
  unfold Delays at hdelays ⊢
  rw [← hwheel]
  exact hdelays

/-- A thread in `notify_driver` moves. -/
theorem Sound.call (h : s.Sound) {c : Caller} {callers : List Caller} {pending woken : Bool}
    (hj : s.callers[j]? = some c) (hwoken : s.pollerWoken = true → woken = true)
    (hothers : ∀ k c', k ≠ j → s.callers[k]? = some c' → c' ∈ callers)
    (hown : ∀ id, c.timer = some id → c.notify ≠ .decided true →
      (∃ (i : ℕ) (p : Worker) (w : KernelWait), s.workers[i]? = some p ∧ p.wait = some w ∧
        s.Delays w id) →
      woken = true ∨ ∃ c' ∈ callers, c'.timer = some id ∧ c'.notify ≠ .decided true) :
    Sound { s with wakePending := pending, pollerWoken := woken, callers := callers } := by
  refine ⟨h.timer, h.holders, fun i p w hi hw id hdelays => ?_⟩
  rcases h.covered i p w hi hw id hdelays with hbefore | ⟨c', hc', htimer, hnotify⟩
  · exact .inl (hwoken hbefore)
  · obtain ⟨k, hk⟩ := List.mem_iff_getElem?.mp hc'
    by_cases hkj : k = j
    · subst hkj
      rw [hj] at hk
      cases hk
      exact hown id htimer hnotify ⟨i, p, w, hi, hw, hdelays⟩
    · exact .inr ⟨c', hothers k c' hkj hk, htimer, hnotify⟩

/-- An arm that notifies a sleeper leaves no worker behind that has computed a timeout beyond the
timer and is about to enter the kernel wait or in it, unless the poller was woken. -/
def Reaches (s : DriverShared) : Label → Prop
  | .caller j => ∀ c ∈ s.callers[j]?, ∀ id ∈ c.timer, c.notify = .stored → 0 < s.waiters →
    ∀ p ∈ s.workers, ∀ w ∈ p.wait, s.Delays w id → s.pollerWoken = true
  | .park _ | .worker _ | .returns .. | .wakes _ | .arm .. | .cancel _ | .unpark | .clock _ | .pause
  | .resume | .setAutoAdvance _ => True

instance (s : DriverShared) : (a : Label) → Decidable (s.Reaches a)
  | .caller j => inferInstanceAs (Decidable (∀ c ∈ s.callers[j]?, _))
  | .park _ | .worker _ | .returns .. | .wakes _ | .arm .. | .cancel _ | .unpark | .clock _ | .pause
  | .resume | .setAutoAdvance _ => .isTrue trivial

theorem Sound.notify (h : s.Sound) {c : Caller} (hj : s.callers[j]? = some c)
    (hreaches : s.Reaches (.caller j)) : (s.notify j c).Sound := by
  have hset : ∀ d k c', k ≠ j → s.callers[k]? = some c' → c' ∈ s.callers.set j d := by
    intro d k c' hkj hk
    rw [← List.getElem?_set_ne (Ne.symm hkj)] at hk
    exact List.mem_of_getElem? hk
  have herase : ∀ k c', k ≠ j → s.callers[k]? = some c' → c' ∈ s.callers.eraseIdx j := by
    intro k c' hkj hk
    exact List.mem_eraseIdx_iff_getElem?.mpr ⟨k, hkj, hk⟩
  have hmem : ∀ d, d ∈ s.callers.set j d := by
    intro d
    obtain ⟨hlt, -⟩ := List.getElem?_eq_some_iff.mp hj
    exact List.mem_set hlt d
  unfold DriverShared.notify
  split
  · exact h.call hj id (hset _) fun id hid _ _ => .inr ⟨_, hmem _, hid, nofun⟩
  · rename_i hstored
    refine h.call hj id (hset _) fun id hid _ hwaits => ?_
    by_cases hwaiters : 0 < s.waiters
    · obtain ⟨i, p, w, hi, hw, hdelays⟩ := hwaits
      exact .inl (hreaches c hj id hid hstored hwaiters p (List.mem_of_getElem? hi) w hw hdelays)
    · refine .inr ⟨_, hmem _, hid, ?_⟩
      simp [hwaiters]
  · rename_i hdecided
    exact h.call hj id herase fun _ _ hnotify => absurd hdecided hnotify
  · exact h.call hj (fun _ => rfl) herase fun _ _ _ _ => .inl rfl

theorem Sound.step {a : Label} (h : s.Sound) (hreaches : s.Reaches a) (hstep : s.step a = some s') :
    s'.Sound := by
  cases DriverShared.steps hstep with
  | claims hi hholder => exact h.claim hi hholder
  | sleeps hi | wakes hi => exact h.aside hi rfl rfl _
  | worker hi hhold => exact h.holdStep hi hhold
  | returns hi drains => exact h.returns hi _
  | @arm id waker deadline => exact h.arm id deadline waker
  | unpark =>
    refine ⟨h.timer, h.holders, fun j p w hj hw id hdelays => ?_⟩
    rcases h.covered j p w hj hw id hdelays with hwoken | ⟨c, hc, hown⟩
    · exact .inl hwoken
    · exact .inr ⟨c, List.mem_append_left _ hc, hown⟩
  | caller hj => exact h.notify hj hreaches
  | clock htimer =>
    refine h.sameWheel (h.timer.step htimer) ?_
    simp only [TimerShared.step] at htimer
    split_ifs at htimer
    cases htimer
    rfl
  | pause =>
    refine h.sameWheel (h.timer.step (a := .pause) rfl) ?_
    unfold TimerShared.pause
    split_ifs <;> rfl
  | resume => exact h.sameWheel (h.timer.step (a := .resume) rfl) rfl
  | setAutoAdvance enabled =>
    exact h.sameWheel (h.timer.step (a := .setAutoAdvance enabled) rfl) rfl
  | cancel id => exact h.cancel id

def Next (s : DriverShared) (id : ℕ) : Prop :=
  (s.timer.wheel.entries id).linked = true ∧
    s.timer.wheel.nextEventAt = some (s.timer.wheel.eventOf id)

/-- For a worker in a kernel wait beyond the next event the poller was woken, or all those who have
armed a timer of that event have yet to finish. -/
def Reached (s : DriverShared) : Prop :=
  ∀ (i : ℕ) (w : KernelWait), s.workers[i]? = some (.waits w) →
    w.late s.timer.wheel.nextEventAt = true → s.pollerWoken = true ∨
      (∃ id, s.Next id) ∧ ∀ id, s.Next id → ∃ c ∈ s.callers, c.timer = some id

theorem Sound.reached (h : s.Sound) : s.Reached := by
  intro i w hi hlate
  obtain ⟨time, hnext, houtlasts⟩ := (Option.any_eq_true ..).mp hlate
  by_cases hwoken : s.pollerWoken = true
  · exact .inl hwoken
  · refine .inr ⟨?_, fun id hid => ?_⟩
    · obtain ⟨id, hlinked, hevent⟩ := h.timer.clear.valid.exists_eventOf h.timer.clear.pending hnext
      exact ⟨id, hlinked, hevent ▸ hnext⟩
    · have hdelays : s.Delays w id := by
        refine ⟨hid.1, ?_⟩
        rw [← Option.some.inj (hnext.symm.trans hid.2)]
        exact houtlasts
      obtain ⟨c, hc, htimer, -⟩ := (h.covered i _ w hi rfl id hdelays).resolve_left hwoken
      exact ⟨c, hc, htimer⟩

/-- In a run whose arms reach the driver, no kernel wait lasts beyond the next event unnoticed. -/
theorem reached_of_reachable {workers : ℕ}
    (h : Reachable DriverShared.step DriverShared.Reaches (.new workers) s) : s.Reached := by
  refine Sound.reached (h.invariant (I := Sound) (.new workers) ?_)
  intro s a t hs hreaches hstep
  exact hs.step hreaches hstep

/-- Worker 1 had left the condvar when the timer at 5 ms was armed, so that the poller is woken. -/
theorem woken_poller_reached :
    ∃ s, Reachable DriverShared.step DriverShared.Reaches (.new 2) s ∧
      s.workers[0]? = some (.waits ⟨0, none⟩) ∧ s.timer.wheel.nextEventAt = some 5 ∧ s.Reached := by
  have hrun : (run (guarded DriverShared.step DriverShared.Reaches) (.new 2)
      [.park 0, .worker 0, .worker 0, .worker 0, .worker 0, .park 1, .wakes 1,
        .arm 0 5000000 0, .caller 0, .caller 0, .caller 0]).any (fun s =>
          decide (s.workers[0]? = some (.waits ⟨0, none⟩) ∧
            s.timer.wheel.nextEventAt = some 5)) = true := by
    decide +kernel
  obtain ⟨s, hreach, hs⟩ := exists_reachable_of_run hrun
  obtain ⟨hwaits, hnext⟩ := of_decide_eq_true hs
  exact ⟨s, hreach, hwaits, hnext, reached_of_reachable hreach⟩

/-- Worker 0 is in the kernel wait without a timeout and worker 1 sleeps on the condvar. The timer
at 5 ms is armed, and only the sleeper is notified. -/
theorem sleeper_notified_instead :
    ¬ ∀ s, Reachable DriverShared.step anyStep (.new 2) s → s.Reached := by
  intro h
  have hrun : (run (guarded DriverShared.step anyStep) (.new 2)
      [.park 0, .worker 0, .worker 0, .worker 0, .worker 0, .park 1,
        .arm 0 5000000 0, .caller 0, .caller 0, .caller 0]).any (fun s =>
          decide (s.workers[0]? = some (.waits ⟨0, none⟩) ∧ s.timer.wheel.nextEventAt = some 5 ∧
            s.pollerWoken = false ∧ s.callers = [])) = true := by
    decide +kernel
  obtain ⟨s, hreach, hs⟩ := exists_reachable_of_run hrun
  obtain ⟨hwaits, hnext, hwoken, hcallers⟩ := of_decide_eq_true hs
  have hlate : KernelWait.late ⟨0, none⟩ s.timer.wheel.nextEventAt = true := by
    rw [hnext]
    rfl
  rcases h s hreach 0 _ hwaits hlate with hwoken' | ⟨⟨id, hid⟩, harming⟩
  · rw [hwoken] at hwoken'
    cases hwoken'
  · obtain ⟨c, hc, -⟩ := harming id hid
    rw [hcallers] at hc
    cases hc

end DriverShared

end Eddy.Driver
