import Eddy.SleepSteps

/-!
# A reset takes effect

While no call is under way the timer is in the wheel until a call of `advance_to_now` takes it at
its deadline; that call sets the flag and takes the waker, and wakes the task after its section.
-/

namespace Eddy.Sleeps
open Interleaving TimerWheel FairRuns

namespace State

variable {s t : State}

/-- What can happen while neither `reset` nor `poll` is called. -/
inductive Quiet (s : State) : Option Label → State → Prop
  | stay : Quiet s none s
  | driver {l timers} (hpermits : s.permits l = true) (htimers : s.timers.step l = some timers) :
      Quiet s (some (.driver l)) { s with timers }
  | wake {i id waker timers} (htimers : s.timers.wake i = some ((id, waker), timers)) :
      Quiet s (some (.wake i)) { s with timers, woken := s.woken ++ [(waker, s.now)] }

variable {a : Option Label}

theorem quiet_of_moment (h : Moment (guarded step Heeds) s a t)
    (hplace : s.place = .idle) (hcall : ∀ l ∈ a, ¬ l.IsCall) : Quiet s a t := by
  cases a with
  | none =>
    cases h
    exact .stay
  | some l =>
    obtain ⟨-, hstep⟩ := guarded_eq_some h
    cases step_takes hstep with
    | reset | ready | poll => exact absurd trivial (hcall _ rfl)
    | clone hbusy | cancel hbusy | read hbusy | arm hbusy | wakeTask hbusy =>
      cases hplace.symm.trans hbusy
    | driver hpermits htimers => exact .driver hpermits htimers
    | wake htimers => exact .wake htimers

/-- The sleep and its registration are the same. -/
structure Rests (s t : State) : Prop where
  place : t.place = .idle
  sleep : t.sleep = s.sleep
  registered : t.registered = s.registered
  mark : t.mark = s.mark

theorem Quiet.rests (h : Quiet s a t) (hplace : s.place = .idle) :
    Rests s t := by
  cases h with
  | stay | driver | wake => exact ⟨hplace, rfl, rfl, rfl⟩

theorem Quiet.now_le (h : Quiet s a t) (hk : Kept s) : s.now ≤ t.now := by
  cases h with
  | stay => exact le_rfl
  | driver hpermits htimers =>
    exact hk.timers.step_nowMs (Bool.and_eq_true_iff.mp hpermits).1 htimers
  | wake htimers =>
    obtain ⟨hshared, -⟩ := Timers.wake_eq_some htimers
    rw [now, now, hshared]

theorem Quiet.follows (h : Quiet s a t) (hk : Kept s) :
    Timers.Follows s.sleep.entry s.timers t.timers := by
  cases h with
  | stay => exact .aside rfl ⟨[], (List.append_nil _).symm, nofun⟩ rfl fun _ hw => hw
  | driver hpermits htimers =>
    have hid := of_decide_eq_true (Bool.and_eq_true_iff.mp hpermits).2
    exact hk.timers.follows htimers hid
  | wake htimers => exact .wake htimers

/-- Without a section of `advance_to_now` the wheel stays as far from a due timer. -/
theorem Quiet.remaining_eq (h : Quiet s a t) (hk : Kept s)
    (hlock : ∀ l ∈ a, ¬ l.IsLock) {deadline : ℕ} (hdue : deadline ≤ s.now) :
    t.timers.remaining deadline = s.timers.remaining deadline := by
  cases h with
  | stay => rfl
  | @driver l timers hpermits htimers =>
    refine hk.timers.remaining_step htimers ?_ hdue
    rintro i rfl
    exact hlock _ rfl trivial
  | wake htimers =>
    obtain ⟨hshared, hentering, -⟩ := Timers.wake_eq_some htimers
    rw [Timers.remaining, hshared, hentering, Timers.remaining]

/-- A section of `advance_to_now` takes the timer, or brings the wheel closer to it. -/
theorem Quiet.remaining_lt (h : Quiet s a t) (hk : Kept s)
    (hlock : ∃ l ∈ a, l.IsLock) (hlinked : t.entry.linked = true) :
    t.timers.remaining s.entry.deadline < s.timers.remaining s.entry.deadline := by
  obtain ⟨l, hl, hlock⟩ := hlock
  cases h with
  | stay => cases hl
  | @driver l timers hpermits htimers =>
    cases hl
    cases hk.timers.step_takes htimers with
    | @lock i now ids shared hholder hi hlocked =>
      apply Timers.remaining_lock hk.timers hi hlocked hlinked
      · rfl
      · rfl
    | clock hclock =>
      unfold Label.IsLock at hlock
      split at hlock
      case h_1 heq =>
        cases heq
        cases hclock
      case h_2 => exact absurd hlock id
    | read | take | store | unlock | arm | cancel => exact absurd hlock id
  | wake => cases hl; exact absurd hlock id

theorem Quiet.holder_eq (h : Quiet s a t) (hk : Kept s)
    (hfire : ∀ l ∈ a, l ≠ .driver .fire) {f : Fires} (hf : s.timers.holder = some f) :
    t.timers.holder = some f := by
  cases h with
  | stay => exact hf
  | @driver l timers hpermits htimers =>
    refine hk.timers.step_holder htimers ?_ hf
    rintro rfl
    exact hfire _ rfl rfl
  | wake htimers =>
    obtain ⟨-, -, hholder, -⟩ := Timers.wake_eq_some htimers
    exact hholder.trans hf

/-- The call in its section goes on. -/
theorem Quiet.left_lt (h : Quiet s a t) (hk : Kept s)
    (hfire : a = some (.driver .fire)) {f : Fires} (hf : s.timers.holder = some f) :
    t.timers.holder = none ∨ ∃ f', t.timers.holder = some f' ∧ f'.left < f.left := by
  cases h with
  | stay => cases hfire
  | driver hpermits htimers =>
    cases hfire
    exact hk.timers.left_fire htimers hf
  | wake => cases hfire

theorem Quiet.waking_eq (h : Quiet s a t) (hk : Kept s) {i : ℕ}
    (hwake : ∀ l ∈ a, l ≠ .wake i) {wakers : List (ℕ × ℕ)}
    (hi : s.timers.waking[i]? = some wakers) : t.timers.waking[i]? = some wakers := by
  cases h with
  | stay => exact hi
  | driver hpermits htimers => exact hk.timers.step_waking htimers hi
  | @wake j id waker timers htimers =>
    obtain ⟨rest, -, hwaking⟩ := Timers.wake_waking htimers
    have hij : j ≠ i := by
      rintro rfl
      exact hwake _ rfl rfl
    exact (congrArg (·[i]?) hwaking).trans ((List.getElem?_set_ne hij).trans hi)

/-- A call wakes, and the waker that is next comes closer. -/
theorem Quiet.wakes (h : Quiet s a t) (hk : Kept s) {i k id waker : ℕ}
    (hwake : a = some (.wake i)) {wakers : List (ℕ × ℕ)}
    (hi : s.timers.waking[i]? = some wakers) (hwaker : wakers[k]? = some (id, waker)) :
    (waker, s.now) ∈ t.woken.drop s.mark ∨ ∃ j < k, ∃ rest, t.timers.waking[i]? = some rest ∧
      rest[j]? = some (id, waker) := by
  cases h with
  | stay => cases hwake
  | driver => cases hwake
  | wake htimers =>
    cases hwake
    obtain ⟨rest, hi', hwaking⟩ := Timers.wake_waking htimers
    cases hi.symm.trans hi'
    cases k with
    | zero =>
      cases hwaker
      left
      rw [List.drop_append_of_le_length hk.mark_le]
      exact List.mem_append_right _ (List.mem_singleton_self _)
    | succ k =>
      refine .inr ⟨k, Nat.lt_succ_self k, rest, ?_, hwaker⟩
      have hlt := (List.getElem?_eq_some_iff.mp hi).1
      exact (congrArg (·[i]?) hwaking).trans (List.getElem?_set_self hlt)

end State

section Run

open State

variable {ρ : ℕ → State} {act : ℕ → Option Label}

theorem kept_of_runs {entry : ℕ} {deadline : ℤ} (hstart : ρ 0 = .new entry deadline)
    (hruns : Runs (guarded step Heeds) ρ act) (n : ℕ) : Kept (ρ n) := by
  apply hruns.invariant (I := Kept)
  · rw [hstart]
    exact .new entry deadline
  · intro n l _ hkept hstep
    obtain ⟨hguard, hstep⟩ := guarded_eq_some hstep
    exact hkept.step hguard hstep

/-- From the moment `n` on no call is under way, and none begins. -/
structure Resting (ρ : ℕ → State) (act : ℕ → Option Label) (n : ℕ) : Prop where
  kept : ∀ m, Kept (ρ m)
  quiet : ∀ m, n ≤ m → Quiet (ρ m) (act m) (ρ (m + 1))
  rests : ∀ m, n ≤ m → Rests (ρ n) (ρ m)

variable {n : ℕ}

theorem resting (hkept : ∀ m, Kept (ρ m)) (hruns : Runs (guarded step Heeds) ρ act)
    (hplace : (ρ n).place = .idle) (hcall : ∀ m, n ≤ m → ¬ Acts Label.IsCall act m) :
    Resting ρ act n := by
  have hquiet : ∀ m, n ≤ m → (ρ m).place = .idle → Quiet (ρ m) (act m) (ρ (m + 1)) :=
    fun m hm hidle => quiet_of_moment (hruns m) hidle fun l hl hl' => hcall m hm ⟨l, hl, hl'⟩
  have hrests : ∀ m, n ≤ m → Rests (ρ n) (ρ m) := by
    intro m hm
    induction m, hm using Nat.le_induction with
    | base => exact ⟨hplace, rfl, rfl, rfl⟩
    | succ m hm ih =>
      have hnext := (hquiet m hm ih.place).rests ih.place
      exact ⟨hnext.place, hnext.sleep.trans ih.sleep, hnext.registered.trans ih.registered,
        hnext.mark.trans ih.mark⟩
  exact ⟨hkept, fun m hm => hquiet m hm (hrests m hm).place, hrests⟩

namespace Resting

variable {m waker : ℕ}

theorem deadlineMs (h : Resting ρ act n) (hm : n ≤ m) :
    (ρ m).deadlineMs = (ρ n).deadlineMs := by
  rw [State.deadlineMs, (h.rests m hm).sleep, State.deadlineMs]

theorem current (h : Resting ρ act n) (hm : n ≤ m) : (ρ m).Current := by
  have hfits := (h.kept m).fits
  rw [(h.rests m hm).place] at hfits
  exact hfits.1

theorem waits (h : Resting ρ act n) (hm : n ≤ m)
    (hwaker : (ρ n).registered = some waker) : (ρ m).Waits waker := by
  have hfits := (h.kept m).fits
  rw [(h.rests m hm).place] at hfits
  exact hfits.2 waker ((h.rests m hm).registered.trans hwaker)

theorem now_le (h : Resting ρ act n) {m' : ℕ} (hm : n ≤ m) (hm' : m ≤ m') :
    (ρ m).now ≤ (ρ m').now := by
  induction m', hm' using Nat.le_induction with
  | base => exact le_rfl
  | succ m' hm' ih => exact ih.trans ((h.quiet m' (hm.trans hm')).now_le (h.kept m'))

theorem later (h : Resting ρ act n) (hm : n ≤ m) : Resting ρ act m where
  kept := h.kept
  quiet m' hm' := h.quiet m' (hm.trans hm')
  rests m' hm' := by
    have hfirst := h.rests m hm
    have hnext := h.rests m' (hm.trans hm')
    exact ⟨hnext.place, hnext.sleep.trans hfirst.sleep.symm,
      hnext.registered.trans hfirst.registered.symm, hnext.mark.trans hfirst.mark.symm⟩

theorem step_entry (h : Resting ρ act n) (hm : n ≤ m) :
    (ρ (m + 1)).entry = (ρ (m + 1)).timers.entry (ρ m).sleep.entry := by
  rw [State.entry, ((h.later hm).rests (m + 1) (Nat.le_succ m)).sleep]

theorem follows (h : Resting ρ act n) (hm : n ≤ m) :
    Timers.Follows (ρ m).sleep.entry (ρ m).timers (ρ (m + 1)).timers :=
  (h.quiet m hm).follows (h.kept m)

theorem step_unlinked (h : Resting ρ act n) (hm : n ≤ m)
    (hlinked : (ρ m).entry.linked = false) : (ρ (m + 1)).entry.linked = false := by
  rw [h.step_entry hm, ← Bool.not_eq_true]
  intro hnext
  cases hlinked.symm.trans ((h.follows hm).linked hnext)

theorem step_fired (h : Resting ρ act n) (hm : n ≤ m)
    (hfired : (ρ m).entry.fired = true) : (ρ (m + 1)).entry.fired = true := by
  rw [h.step_entry hm]
  obtain ⟨hsame, -⟩ | ⟨-, -, hset, -⟩ := (h.follows hm).fired
  · exact hsame.trans hfired
  · exact hset

/-- The timer leaves the wheel once it is due. -/
theorem exists_unlinked (h : Resting ρ act n) (hdrives : Drives ρ act)
    (hdue : (ρ n).deadlineMs ≤ (ρ n).now) : ∃ m, n ≤ m ∧ (ρ m).entry.linked = false := by
  by_cases hfirst : (ρ n).entry.linked = false
  · exact ⟨n, le_rfl, hfirst⟩
  rw [Bool.not_eq_false] at hfirst
  apply hdrives.locks.eventually (P := fun k m => n ≤ m ∧ (ρ m).entry.linked = true ∧
    (ρ m).timers.remaining (ρ n).deadlineMs = k)
  · rintro k m ⟨hm, hlinked, -⟩
    have hdeadline := (h.current hm).deadline (.inl hlinked)
    refine ⟨hlinked, ?_⟩
    rw [hdeadline, h.deadlineMs hm]
    exact hdue.trans (h.now_le le_rfl hm)
  · rintro k m ⟨hm, -, rfl⟩ hidle
    cases hnext : (ρ (m + 1)).entry.linked with
    | false => exact .inl rfl
    | true =>
      refine .inr ⟨Nat.le_succ_of_le hm, rfl, ?_⟩
      apply (h.quiet m hm).remaining_eq (h.kept m)
      · exact fun l hl hlock => hidle ⟨l, hl, hlock⟩
      · exact hdue.trans (h.now_le le_rfl hm)
  · rintro k m ⟨hm, hlinked, rfl⟩ hacts
    cases hnext : (ρ (m + 1)).entry.linked with
    | false => exact .inl rfl
    | true =>
      refine .inr ⟨_, ?_, Nat.le_succ_of_le hm, rfl, rfl⟩
      have hless := (h.quiet m hm).remaining_lt (h.kept m) hacts hnext
      rwa [(h.current hm).deadline (.inl hlinked), h.deadlineMs hm] at hless
  · exact ⟨le_rfl, hfirst, rfl⟩

/-- The section that took the timer ends. -/
theorem exists_released (h : Resting ρ act n) (hdrives : Drives ρ act)
    (hlinked : (ρ n).entry.linked = false) :
    ∃ m, n ≤ m ∧ (ρ m).entry.linked = false ∧ (ρ m).timers.holder = none := by
  cases hholder : (ρ n).timers.holder with
  | none => exact ⟨n, le_rfl, hlinked, hholder⟩
  | some f =>
    apply hdrives.fires.eventually (P := fun k m => n ≤ m ∧ (ρ m).entry.linked = false ∧
      ∃ f, (ρ m).timers.holder = some f ∧ f.left = k)
    · rintro k m ⟨-, -, f, hf, -⟩
      rw [hf]
      rfl
    · rintro k m ⟨hm, hunlinked, f, hf, rfl⟩ hidle
      refine .inr ⟨Nat.le_succ_of_le hm, h.step_unlinked hm hunlinked, f, ?_, rfl⟩
      apply (h.quiet m hm).holder_eq (h.kept m) _ hf
      rintro l hl rfl
      exact hidle ⟨_, hl, rfl⟩
    · rintro k m ⟨hm, hunlinked, f, hf, rfl⟩ ⟨l, hl, rfl⟩
      have hnext := h.step_unlinked hm hunlinked
      obtain hnone | ⟨f', hf', hless⟩ := (h.quiet m hm).left_lt (h.kept m) hl hf
      · exact .inl ⟨hnext, hnone⟩
      · exact .inr ⟨_, hless, Nat.le_succ_of_le hm, hnext, f', hf', rfl⟩
    · exact ⟨le_rfl, hlinked, f, hholder, rfl⟩

theorem exists_woken (h : Resting ρ act n) (hdrives : Drives ρ act)
    (hfired : (ρ n).entry.fired = true)
    (hheld : ∃ wakers ∈ (ρ n).timers.waking, ((ρ n).sleep.entry, waker) ∈ wakers) :
    ∃ m, n ≤ m ∧ (ρ m).Woken waker := by
  obtain ⟨wakers, hmem, hwaker⟩ := hheld
  obtain ⟨i, hi⟩ := List.mem_iff_getElem?.mp hmem
  obtain ⟨k, hk⟩ := List.mem_iff_getElem?.mp hwaker
  apply (hdrives.wakes i).eventually (P := fun k m => n ≤ m ∧ (ρ m).entry.fired = true ∧
    ∃ wakers, (ρ m).timers.waking[i]? = some wakers ∧
      wakers[k]? = some ((ρ n).sleep.entry, waker))
  · rintro k m ⟨-, -, wakers, hi, hk⟩
    refine ⟨wakers, hi, ?_⟩
    rintro rfl
    cases hk
  · rintro k m ⟨hm, hset, wakers, hi, hk⟩ hidle
    refine .inr ⟨Nat.le_succ_of_le hm, h.step_fired hm hset, wakers, ?_, hk⟩
    apply (h.quiet m hm).waking_eq (h.kept m) _ hi
    rintro l hl rfl
    exact hidle ⟨_, hl, rfl⟩
  · rintro k m ⟨hm, hset, wakers, hi, hk⟩ ⟨l, hl, rfl⟩
    obtain hwoken | ⟨j, hj, rest, hi', hk'⟩ := (h.quiet m hm).wakes (h.kept m) hl hi hk
    · left
      have hcurrent := h.current hm
      refine ⟨(ρ m).now, ?_, ?_⟩
      · rwa [((h.later hm).rests (m + 1) (Nat.le_succ m)).mark]
      · rw [h.deadlineMs (Nat.le_succ_of_le hm), ← h.deadlineMs hm]
        exact (hcurrent.deadline (.inr (.inr hset))).symm.trans_le (hcurrent.reached hset)
    · exact .inr ⟨j, hj, Nat.le_succ_of_le hm, h.step_fired hm hset, rest, hi', hk'⟩
  · exact ⟨le_rfl, hfired, wakers, hi, hk⟩

/-- A pending poll is woken. -/
theorem exists_woken_of_due (h : Resting ρ act n) (hdrives : Drives ρ act)
    (hwaker : (ρ n).registered = some waker) (hdue : (ρ n).deadlineMs ≤ (ρ n).now) :
    ∃ m, n ≤ m ∧ (ρ m).Woken waker := by
  obtain ⟨m₁, hm₁, hunlinked⟩ := h.exists_unlinked hdrives hdue
  obtain ⟨m₂, hm₂, hunlinked, hholder⟩ := (h.later hm₁).exists_released hdrives hunlinked
  have hm := hm₁.trans hm₂
  obtain ⟨hin, -⟩ | ⟨hfired, ⟨⟨f, hf, -⟩, -⟩ | hheld | hwoken⟩ := h.waits hm hwaker
  · obtain hlinked | ⟨f, hf, -⟩ := hin
    · cases hunlinked.symm.trans hlinked
    · cases hholder.symm.trans hf
  · cases hholder.symm.trans hf
  · rw [Timers.held, hholder] at hheld
    obtain ⟨m, hm', hwoken⟩ := (h.later hm).exists_woken hdrives hfired (List.mem_flatten.mp hheld)
    exact ⟨m, hm.trans hm', hwoken⟩
  · exact ⟨m₂, hm, hwoken⟩

end Resting

/-- A reset takes effect: no poll is ready before the deadline, and the waker of a pending poll is
woken at it. -/
theorem reset_effective {entry : ℕ} {deadline : ℤ} (hstart : ρ 0 = .new entry deadline)
    (hruns : Runs (guarded step Heeds) ρ act) :
    (∀ n, (ρ n).NeverEarly) ∧ (Drives ρ act → WokenInTime ρ act) := by
  have hkept := kept_of_runs hstart hruns
  refine ⟨fun n => (hkept n).early, fun hdrives n waker hplace hwaker ⟨m, hm, hdue⟩ => ?_⟩
  by_cases hcall : ∃ m, n ≤ m ∧ Acts Label.IsCall act m
  · obtain ⟨m, hm, hacts⟩ := hcall
    exact ⟨m, hm, .inr hacts⟩
  · have hresting := resting hkept hruns hplace fun m hm hacts => hcall ⟨m, hm, hacts⟩
    have hlater := hresting.later hm
    rw [← hresting.deadlineMs hm] at hdue
    obtain ⟨m', hm', hwoken⟩ := hlater.exists_woken_of_due hdrives
      ((hresting.rests m hm).registered.trans hwaker) hdue
    exact ⟨m', hm.trans hm', .inl hwoken⟩

end Run

open State in
/-- A sleep of 5 ms is polled and reset to 20 ms, and the task is woken then. -/
theorem reset_effective_once : ∃ ρ act, ρ 0 = .new 0 5000000 ∧
    Runs (guarded step Heeds) ρ act ∧ Drives ρ act ∧
      (∃ n, (ρ n).registered = some 1 ∧ (ρ n).woken = [(1, 20)]) ∧
        (∀ n, (ρ n).NeverEarly) ∧ WokenInTime ρ act := by
  have hrun : (run (guarded step Heeds) (.new 0 5000000) [.poll 1, .go, .go, .reset 20000000, .go,
      .go, .go, .go, .driver (.clock 20000000), .driver .read, .driver (.lock 0), .driver .fire,
      .driver .fire, .driver .fire, .wake 0]).any (fun s => decide (s.registered = some 1 ∧
        s.woken = [(1, 20)] ∧ s.entry.linked = false ∧ s.timers.holder = none ∧
        s.timers.waking = [[]])) = true := by decide +kernel
  obtain ⟨s, hs, hcheck⟩ := (Option.any_eq_true _ _).mp hrun
  obtain ⟨hregistered, hwoken, hlinked, hholder, hwaking⟩ := of_decide_eq_true hcheck
  obtain ⟨ρ, act, hfirst, hruns, hlast, -⟩ := exists_runs_of_run hs
  have hend : ∀ n, ∃ m, n ≤ m ∧ ρ m = s := fun n =>
    ⟨max n 15, Nat.le_max_left n 15, hlast _ (Nat.le_max_right n 15)⟩
  have hdrives : Drives ρ act := by
    refine ⟨fun n hready => ?_, fun n hready => ?_, fun i n hready => ?_⟩
    all_goals
      obtain ⟨m, hm, heq⟩ := hend n
      have hbusy := hready m hm
      rw [heq] at hbusy
    · cases hlinked.symm.trans hbusy.1
    · rw [hholder] at hbusy
      cases hbusy
    · obtain ⟨wakers, hi, hne⟩ := hbusy
      rw [hwaking] at hi
      exact absurd (List.mem_singleton.mp (List.mem_of_getElem? hi)) hne
  obtain ⟨hearly, hwakes⟩ := reset_effective hfirst hruns
  obtain ⟨n, -, heq⟩ := hend 0
  exact ⟨ρ, act, hfirst, hruns, hdrives, ⟨n, heq ▸ ⟨hregistered, hwoken⟩⟩, hearly, hwakes hdrives⟩

open State in
/-- The timer fires for its old deadline of 5 ms once `reset` to 20 ms has cleared the flag, and
before it clones the waker: the next poll is ready at 5 ms. -/
theorem reset_undone_by_fire : ¬ ∀ (entry : ℕ) (deadline : ℤ) (ρ : ℕ → State)
    (act : ℕ → Option Label), ρ 0 = .new entry deadline → Runs step ρ act →
      (∀ n, (ρ n).NeverEarly) ∧ (Drives ρ act → WokenInTime ρ act) := by
  intro hall
  have hrun : (run step (.new 0 5000000) [.poll 1, .go, .go, .driver (.clock 5000000),
      .driver .read, .driver (.lock 0), .reset 20000000, .driver .fire, .driver .fire, .go,
      .driver .fire, .go, .poll 1]).any
      (fun s => decide (s.readies = [(20000000, 5)])) = true := by decide +kernel
  obtain ⟨s, hs, hcheck⟩ := (Option.any_eq_true _ _).mp hrun
  obtain ⟨ρ, act, hfirst, hruns, hlast, -⟩ := exists_runs_of_run hs
  have hearly := (hall 0 5000000 ρ act hfirst hruns).1 13
  rw [hlast 13 (by decide), NeverEarly, of_decide_eq_true hcheck] at hearly
  exact absurd (hearly _ (List.mem_singleton_self _)) (by decide)

end Eddy.Sleeps
