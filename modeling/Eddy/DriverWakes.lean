import Eddy.DriverPark

/-!
# Wakes of a worker that is about to block

A wake for a worker on its way into an unbounded kernel wait is either stored in `wake_pending`,
which the worker has yet to read, or in the poller, or it is still to be made by a thread in
`notify_driver`. It is not lost as long as no other worker is in the driver.
-/

namespace Eddy.Driver
open Interleaving

/-- On the condvar. -/
def Worker.sleeping : Worker → ℕ
  | .sleeps => 1
  | .running | .claimed | .clears | .advances | .swaps | .reads | .enters _ | .waits _ | .returned
  | .releases => 0

def Worker.blocks : Worker → Bool
  | .claimed | .swaps | .reads => true
  | .enters wait | .waits wait => wait.timeout.isNone
  | .running | .clears | .advances | .returned | .releases | .sleeps => false

def Worker.blocked : Worker → Bool
  | .waits wait => wait.timeout.isNone
  | .running | .claimed | .clears | .advances | .swaps | .reads | .enters _ | .returned | .releases
  | .sleeps => false

/-- About to park, or on the way into a kernel wait without a timeout. -/
def Worker.Bound (p : Worker) : Prop := p = .running ∨ p.blocks = true

/-- It has yet to read `wake_pending`. -/
def Worker.unread : Worker → Bool
  | .running | .claimed | .swaps => true
  | .clears | .advances | .reads | .enters _ | .waits _ | .returned | .releases | .sleeps => false

/-- Out of the driver but for the release of the holder. -/
def Worker.away : Worker → Bool
  | .running | .releases => true
  | .claimed | .clears | .advances | .swaps | .reads | .enters _ | .waits _ | .returned
  | .sleeps => false

theorem Worker.sleeping_of_away {p : Worker} (h : p.away = true) : p.sleeping = 0 := by
  cases p <;> first | rfl | cases h

theorem Worker.sleeping_of_blocks {p : Worker} (h : p.blocks = true) : p.sleeping = 0 := by
  cases p <;> first | rfl | cases h

theorem Worker.holds_of_blocks {p : Worker} (h : p.blocks = true) : p.holds = 1 := by
  cases p <;> first | rfl | cases h

def Label.worker? : Label → Option ℕ
  | .park i | .worker i | .returns i _ | .wakes i => some i
  | .arm .. | .cancel _ | .unpark | .caller _ | .clock _ | .pause | .resume
  | .setAutoAdvance _ => none

theorem Worker.blocks_of_blocked {p : Worker} (h : p.blocked = true) : p.blocks = true := by
  cases p <;> first | exact h | cases h

namespace DriverShared
variable {s s' : DriverShared} {i j v : ℕ} {p q : Worker} {n : Notify}

/-- A step of a worker in the driver leaves the other workers alone. -/
theorem hold_workers (hi : s.workers[i]? = some p) (hstep : s.hold i p = some s') :
    ∃ q, s'.workers = s.workers.set i q := by
  cases p with
  | running | waits | sleeps => cases hstep
  | claimed | clears | swaps | reads | enters | releases =>
    cases hstep
    exact ⟨_, rfl⟩
  | advances | returned =>
    obtain ⟨timer, -, rfl⟩ := Option.map_eq_some_iff.mp hstep
    exact ⟨_, rfl⟩

theorem park_workers (hstep : s.step (.park i) = some s') :
    ∃ q, s'.workers = s.workers.set i q ∧ (q = .claimed ∨ q = .sleeps) := by
  cases steps hstep with
  | claims => exact ⟨_, rfl, .inl rfl⟩
  | sleeps => exact ⟨_, rfl, .inr rfl⟩

theorem notify_workers (s : DriverShared) (j : ℕ) (c : Caller) :
    (s.notify j c).workers = s.workers := by
  unfold DriverShared.notify
  split <;> rfl

theorem step_workers {l : Label} (hstep : s.step l = some s') :
    s'.workers.length = s.workers.length ∧
      ∀ j : ℕ, l.worker? ≠ some j → s'.workers[j]? = s.workers[j]? := by
  have hset : ∀ {i : ℕ} {q : Worker}, s'.workers = s.workers.set i q →
      s'.workers.length = s.workers.length ∧
        ∀ j : ℕ, some i ≠ some j → s'.workers[j]? = s.workers[j]? := by
    intro i q hworkers
    rw [hworkers]
    exact ⟨List.length_set, fun j hij => List.getElem?_set_ne fun e => hij (congrArg some e)⟩
  have hsame : s'.workers = s.workers → s'.workers.length = s.workers.length ∧
      ∀ j : ℕ, none ≠ some j → s'.workers[j]? = s.workers[j]? := by
    intro hworkers
    rw [hworkers]
    exact ⟨rfl, fun _ _ => rfl⟩
  cases steps hstep with
  | claims | sleeps | returns | wakes => exact hset rfl
  | worker hi hhold =>
    obtain ⟨q, hworkers⟩ := hold_workers hi hhold
    exact hset hworkers
  | @caller j c => exact hsame (s.notify_workers j c)
  | arm | unpark | clock | pause | resume | setAutoAdvance | cancel => exact hsame rfl

/-- A worker in the driver gets on the way into an unbounded wait only by parking. -/
theorem blocks_of_step {l : Label} (hstep : s.step l = some s') (hl : ∀ i, l ≠ .park i)
    (hv : s.workers[v]? = some p) (hv' : s'.workers[v]? = some q) (hq : q.blocks = true) :
    p.blocks = true := by
  by_cases hmoves : l.worker? = some v
  · have hself : ∀ {r : Worker}, s'.workers = s.workers.set v r → q = r := by
      intro r hworkers
      rw [hworkers, List.getElem?_set_self (List.getElem?_eq_some_iff.mp hv).1] at hv'
      exact (Option.some.inj hv').symm
    cases steps hstep with
    | claims | sleeps => exact absurd rfl (hl _)
    | worker hr hhold =>
      cases hmoves
      cases hv.symm.trans hr
      cases p with
      | claimed | swaps | reads => rfl
      | enters wait =>
        cases hhold
        rw [hself rfl] at hq
        exact hq
      | clears | releases =>
        cases hhold
        rw [hself rfl] at hq
        cases hq
      | advances | returned =>
        obtain ⟨timer, -, rfl⟩ := Option.map_eq_some_iff.mp hhold
        rw [hself rfl] at hq
        cases hq
      | running | waits | sleeps => cases hhold
    | returns | wakes =>
      cases hmoves
      rw [hself rfl] at hq
      cases hq
    | arm | unpark | caller | clock | pause | resume | setAutoAdvance | cancel => cases hmoves
  · rw [(step_workers hstep).2 v hmoves, hv] at hv'
    cases hv'
    exact hq

/-- A worker comes into the driver only by parking. -/
theorem away_of_step {l : Label} (hstep : s.step l = some s') (hl : ∀ i, l ≠ .park i)
    (hv : s.workers[v]? = some p) (hv' : s'.workers[v]? = some q) (hp : p.away = true) :
    q.away = true := by
  by_cases hmoves : l.worker? = some v
  · cases steps hstep with
    | claims | sleeps => exact absurd rfl (hl _)
    | worker hr hhold =>
      cases hmoves
      cases hv.symm.trans hr
      cases p with
      | releases =>
        cases hhold
        cases hv'.symm.trans (List.getElem?_set_self (List.getElem?_eq_some_iff.mp hv).1)
        rfl
      | running => cases hhold
      | claimed | clears | advances | swaps | reads | enters | waits | returned | sleeps => cases hp
    | returns hi | wakes hi =>
      cases hmoves
      cases hv.symm.trans hi
      cases hp
    | arm | unpark | caller | clock | pause | resume | setAutoAdvance | cancel => cases hmoves
  · rw [(step_workers hstep).2 v hmoves, hv] at hv'
    cases hv'
    exact hp

structure Tallied (s : DriverShared) : Prop where
  holders : total Worker.holds s.workers = if s.holder.isSome then 1 else 0
  waiters : total Worker.sleeping s.workers = s.waiters

theorem Tallied.new (workers : ℕ) : (DriverShared.new workers).Tallied := by
  refine ⟨?_, ?_⟩ <;>
    exact total_eq_zero_iff.mpr fun p hp => by rw [List.eq_of_mem_replicate hp]; rfl

/-- One worker moves. -/
theorem Tallied.move (h : s.Tallied) (hi : s.workers[i]? = some p)
    (hworkers : s'.workers = s.workers.set i q)
    (hholder : q.holds + (if s.holder.isSome then 1 else 0) =
      p.holds + if s'.holder.isSome then 1 else 0)
    (hwaiters : q.sleeping + s.waiters = p.sleeping + s'.waiters) : s'.Tallied := by
  have hholds := total_set Worker.holds hi q
  have hsleeping := total_set Worker.sleeping hi q
  rw [h.holders] at hholds
  rw [h.waiters] at hsleeping
  refine ⟨?_, ?_⟩
  · rw [hworkers]
    omega
  · rw [hworkers]
    omega

/-- One worker moves, and neither becomes nor ceases to be the holder or a sleeper. -/
theorem Tallied.keep (h : s.Tallied) (hi : s.workers[i]? = some p)
    (hworkers : s'.workers = s.workers.set i q) (hholder : s'.holder = s.holder)
    (hwaiters : s'.waiters = s.waiters) (hholds : q.holds = p.holds)
    (hsleeping : q.sleeping = p.sleeping) : s'.Tallied :=
  h.move hi hworkers (by rw [hholder, hholds]) (by rw [hwaiters, hsleeping])

/-- No worker moves. -/
theorem Tallied.stay (h : s.Tallied) (hworkers : s'.workers = s.workers)
    (hholder : s'.holder = s.holder) (hwaiters : s'.waiters = s.waiters) : s'.Tallied :=
  ⟨by rw [hworkers, hholder]; exact h.holders, by rw [hworkers, hwaiters]; exact h.waiters⟩

theorem Tallied.holder_isSome (h : s.Tallied) (hi : s.workers[i]? = some p) (hp : p.holds = 1) :
    s.holder.isSome = true := by
  have hle := le_total Worker.holds hi
  rw [h.holders, hp] at hle
  by_contra hnone
  rw [if_neg hnone] at hle
  omega

theorem Tallied.alone (h : s.Tallied) (hi : s.workers[i]? = some p) (hp : p.holds = 1)
    (hj : s.workers[j]? = some q) (hq : q.holds = 1) : j = i := by
  by_contra hne
  have hle := add_le_total Worker.holds hne hj hi
  rw [hq, hp, h.holders] at hle
  split_ifs at hle <;> omega

theorem Tallied.hold (h : s.Tallied) (hi : s.workers[i]? = some p)
    (hstep : s.hold i p = some s') : s'.Tallied := by
  cases p with
  | running | waits | sleeps => cases hstep
  | claimed | swaps =>
    cases hstep
    refine h.keep hi rfl rfl rfl ?_ ?_ <;> split_ifs <;> rfl
  | clears | reads | enters =>
    cases hstep
    exact h.keep hi rfl rfl rfl rfl rfl
  | advances | returned =>
    obtain ⟨timer, -, rfl⟩ := Option.map_eq_some_iff.mp hstep
    exact h.keep hi rfl rfl rfl rfl rfl
  | releases =>
    cases hstep
    refine h.move hi rfl ?_ rfl
    rw [if_pos (h.holder_isSome hi rfl)]
    rfl

theorem Tallied.step {a : Label} (h : s.Tallied) (hstep : s.step a = some s') : s'.Tallied := by
  cases steps hstep with
  | claims hi hholder =>
    refine h.move hi rfl ?_ rfl
    rw [hholder]
    rfl
  | sleeps hi =>
    refine h.move hi rfl rfl ?_
    show 1 + s.waiters = 0 + (s.waiters + 1)
    omega
  | worker hi hhold => exact h.hold hi hhold
  | returns hi => exact h.keep hi rfl rfl rfl rfl rfl
  | wakes hi =>
    refine h.move hi rfl rfl ?_
    have hle := le_total Worker.sleeping hi
    rw [h.waiters] at hle
    change 1 ≤ s.waiters at hle
    show 0 + s.waiters = 1 + (s.waiters - 1)
    omega
  | caller =>
    unfold DriverShared.notify
    split <;> exact h.stay rfl rfl rfl
  | arm | unpark | clock | pause | resume | setAutoAdvance | cancel => exact h.stay rfl rfl rfl

/-- The next step of a `notify_driver`; when it was the last one there is no next place. -/
def signal (s : DriverShared) : Notify → DriverShared × Option Notify
  | .starts => ({ s with wakePending := true }, some .stored)
  | .stored => (s, some (.decided (decide (0 < s.waiters))))
  | .decided true => (s, none)
  | .decided false => ({ s with pollerWoken := true }, none)

/-- The threads of the driver's model make the same steps. -/
theorem notify_eq_signal (s : DriverShared) (j : ℕ) (c : Caller) :
    s.notify j c = { (s.signal c.notify).1 with
      callers := match (s.signal c.notify).2 with
        | some n => s.callers.set j { c with notify := n }
        | none => s.callers.eraseIdx j } := by
  unfold DriverShared.notify
  split <;> simp_all [signal]

/-- A call of `notify_driver` that has not decided for the condvar. -/
def Notifying (s : DriverShared) : Prop := ∃ c ∈ s.callers, c.notify ≠ .decided true

instance (s : DriverShared) : Decidable s.Notifying :=
  inferInstanceAs (Decidable (∃ c ∈ s.callers, c.notify ≠ .decided true))

/-- Before it blocks, a worker at `p` will find a wake. -/
def Alerted (s : DriverShared) (p : Worker) : Prop :=
  s.pollerWoken = true ∨ s.wakePending = true ∧ p.unread = true ∨ s.Notifying

instance (s : DriverShared) (p : Worker) : Decidable (s.Alerted p) :=
  inferInstanceAs (Decidable (_ ∨ _ ∨ _))

/-- Only the worker `v` may be blocked. -/
def OnlyBound (s : DriverShared) (v : ℕ) : Prop :=
  ∀ (j : ℕ) (q : Worker), j ≠ v → s.workers[j]? = some q → q.away = true

theorem OnlyBound.waiters (hothers : s.OnlyBound v) (h : s.Tallied) (hv : s.workers[v]? = some p)
    (hp : p.Bound) : s.waiters = 0 := by
  rw [← h.waiters]
  refine total_eq_zero_iff.mpr fun q hq => ?_
  obtain ⟨j, hj⟩ := List.mem_iff_getElem?.mp hq
  by_cases hjv : j = v
  · rw [hjv, hv] at hj
    cases hj
    rcases hp with rfl | hblocks
    · rfl
    · exact Worker.sleeping_of_blocks hblocks
  · exact Worker.sleeping_of_away (hothers j q hjv hj)

/-- A step of a call that has not decided for the condvar. -/
theorem signal_cases (hwaiters : s.waiters = 0) (hn : n ≠ .decided true) :
    (s.signal n).1.pollerWoken = true ∨ ∃ m, (s.signal n).2 = some m ∧ m ≠ .decided true := by
  cases n with
  | starts => exact .inr ⟨_, rfl, nofun⟩
  | stored => exact .inr ⟨_, rfl, by simp [hwaiters]⟩
  | decided condvar =>
    cases condvar with
    | true => exact absurd rfl hn
    | false => exact .inl rfl

/-- A call takes back no wake. -/
theorem signal_mono (s : DriverShared) (n : Notify) :
    (s.pollerWoken = true → (s.signal n).1.pollerWoken = true) ∧
      (s.wakePending = true → (s.signal n).1.wakePending = true) ∧
      (s.signal n).1.callers = s.callers ∧ (s.signal n).1.workers = s.workers ∧
      (s.signal n).1.waiters = s.waiters ∧ (s.signal n).1.holder = s.holder := by
  cases n with
  | starts => exact ⟨id, fun _ => rfl, rfl, rfl, rfl, rfl⟩
  | stored => exact ⟨id, id, rfl, rfl, rfl, rfl⟩
  | decided condvar =>
    cases condvar with
    | true => exact ⟨id, id, rfl, rfl, rfl, rfl⟩
    | false => exact ⟨fun _ => rfl, id, rfl, rfl, rfl, rfl⟩

theorem Alerted.signal (h : s.Alerted p) (n : Notify) : (s.signal n).1.Alerted p := by
  obtain ⟨hwoken, hpending, hcallers, -⟩ := s.signal_mono n
  refine h.imp hwoken (.imp (.imp_left hpending) fun hnotifying => ?_)
  unfold Notifying
  rw [hcallers]
  exact hnotifying

theorem Alerted.caller (h : s.Alerted p) {c : Caller} (hj : s.callers[j]? = some c)
    (hwaiters : s.waiters = 0) : (s.notify j c).Alerted p := by
  obtain ⟨hwoken, hpending, -⟩ := s.signal_mono c.notify
  rw [notify_eq_signal]
  rcases h with h | h | ⟨c', hc', hnotify⟩
  · exact .inl (hwoken h)
  · exact .inr (.inl ⟨hpending h.1, h.2⟩)
  obtain ⟨k, hk⟩ := List.mem_iff_getElem?.mp hc'
  by_cases hkj : k = j
  · subst hkj
    cases hj.symm.trans hk
    rcases signal_cases hwaiters hnotify with hwoken | ⟨m, hm, hnotify⟩
    · exact .inl hwoken
    · refine .inr (.inr ⟨{ c with notify := m }, ?_, hnotify⟩)
      simp only [hm]
      exact List.mem_set (List.getElem?_eq_some_iff.mp hj).1 _
  · refine .inr (.inr ⟨c', ?_, hnotify⟩)
    split
    · rw [← List.getElem?_set_ne (Ne.symm hkj)] at hk
      exact List.mem_of_getElem? hk
    · exact List.mem_eraseIdx_iff_getElem?.mpr ⟨k, hkj, hk⟩

/-- Only the workers, the holder, the waiters and the timers change, and there may be more
callers. -/
theorem Alerted.congr (h : s.Alerted p) (hwoken : s'.pollerWoken = s.pollerWoken)
    (hpending : s'.wakePending = s.wakePending) (hcallers : ∀ c ∈ s.callers, c ∈ s'.callers)
    (hunread : p.unread = true → q.unread = true) : s'.Alerted q := by
  rw [Alerted, hwoken, hpending]
  refine h.imp_right (.imp (.imp_right hunread) fun ⟨c, hc, hnotify⟩ => ⟨c, hcallers c hc, hnotify⟩)

/-- The bound worker makes its next step. -/
theorem Alerted.hold (h : s.Alerted p) (hv : s.workers[v]? = some p) (hp : p.Bound)
    (hstep : s.hold v p = some s') (hv' : s'.workers[v]? = some q) (hq : q.Bound) :
    s'.Alerted q := by
  have hq' : ∀ r, s'.workers = s.workers.set v r → q = r := by
    intro r hworkers
    rw [hworkers, List.getElem?_set_self (List.getElem?_eq_some_iff.mp hv).1] at hv'
    exact (Option.some.inj hv').symm
  cases p with
  | running | waits | sleeps => cases hstep
  | claimed =>
    cases hstep
    have hq' := hq' _ rfl
    refine h.congr rfl rfl (fun _ hc => hc) fun _ => ?_
    split_ifs at hq' with hpaused
    · subst hq'
      rcases hq with hq | hq <;> cases hq
    · rw [hq']
      rfl
  | swaps =>
    cases hstep
    have hq' := hq' _ rfl
    split_ifs at hq' with hpending
    · subst hq'
      rcases hq with hq | hq <;> cases hq
    · rcases h with hwoken | hread | hnotifying
      · exact .inl hwoken
      · exact absurd hread.1 hpending
      · exact .inr (.inr hnotifying)
  | reads | enters =>
    cases hstep
    exact h.congr rfl rfl (fun _ hc => hc) fun hunread => by cases hunread
  | clears | releases | advances | returned => rcases hp with hp | hp <;> cases hp

theorem Alerted.step {l : Label} (h : s.Alerted p) (htallied : s.Tallied)
    (hv : s.workers[v]? = some p) (hp : p.Bound) (hothers : s.OnlyBound v)
    (hstep : s.step l = some s') (hv' : s'.workers[v]? = some q) (hq : q.Bound) :
    s'.Alerted q := by
  have hwaiters := hothers.waiters htallied hv hp
  have hsame : s'.workers[v]? = s.workers[v]? → q = p := by
    intro hworkers
    rw [hworkers, hv] at hv'
    exact (Option.some.inj hv').symm
  have hset : ∀ {i : ℕ} {r : Worker}, i ≠ v → s'.workers = s.workers.set i r → q = p := by
    intro i r hiv hworkers
    exact hsame (by rw [hworkers, List.getElem?_set_ne hiv])
  have hstay : s'.workers = s.workers → (p.unread = true → q.unread = true) := by
    intro hworkers hunread
    rw [hsame (by rw [hworkers])]
    exact hunread
  cases steps hstep with
  | @claims i hi =>
    refine h.congr rfl rfl (fun _ hc => hc) fun hunread => ?_
    by_cases hiv : i = v
    · subst hiv
      have hclaimed : q = .claimed := Option.some.inj (hv'.symm.trans
        (List.getElem?_set_self (List.getElem?_eq_some_iff.mp hi).1))
      rw [hclaimed]
      rfl
    · rw [hset hiv rfl]
      exact hunread
  | @sleeps i hi =>
    refine h.congr rfl rfl (fun _ hc => hc) fun hunread => ?_
    by_cases hiv : i = v
    · subst hiv
      have hsleeps : q = .sleeps := Option.some.inj (hv'.symm.trans
        (List.getElem?_set_self (List.getElem?_eq_some_iff.mp hi).1))
      subst hsleeps
      rcases hq with hq | hq <;> cases hq
    · rw [hset hiv rfl]
      exact hunread
  | @worker i r t hi hhold =>
    by_cases hiv : i = v
    · subst hiv
      cases hv.symm.trans hi
      exact h.hold hv hp hhold hv' hq
    · have haway := hothers i r hiv hi
      cases r with
      | releases =>
        cases hhold
        exact h.congr rfl rfl (fun _ hc => hc) fun hunread => hset hiv rfl ▸ hunread
      | running => cases hhold
      | claimed | clears | advances | swaps | reads | enters | waits | returned | sleeps =>
        cases haway
  | @returns i wait hi drains =>
    by_cases hiv : i = v
    · subst hiv
      have hreturned : q = .returned := Option.some.inj (hv'.symm.trans
        (List.getElem?_set_self (List.getElem?_eq_some_iff.mp hi).1))
      subst hreturned
      rcases hq with hq | hq <;> cases hq
    · cases hothers i _ hiv hi
  | @wakes i hi =>
    by_cases hiv : i = v
    · subst hiv
      cases hv.symm.trans hi
      rcases hp with hp | hp <;> cases hp
    · cases hothers i _ hiv hi
  | @arm id waker deadline =>
    refine h.congr rfl rfl (fun c hc => ?_) (hstay rfl)
    unfold DriverShared.arm
    generalize s.timer.arm id deadline waker = result
    obtain ⟨fired, timer⟩ := result
    cases fired with
    | true => exact hc
    | false => exact List.mem_append_left _ hc
  | unpark => exact h.congr rfl rfl (fun _ hc => List.mem_append_left _ hc) (hstay rfl)
  | @caller j c hj =>
    have hworkers : (s.notify j c).workers = s.workers := by
      rw [notify_eq_signal]
      exact (s.signal_mono c.notify).2.2.2.1
    rw [hsame (by rw [hworkers])]
    exact h.caller hj hwaiters
  | clock | pause | resume | setAutoAdvance | cancel =>
    exact h.congr rfl rfl (fun _ hc => hc) (hstay rfl)

end DriverShared

end Eddy.Driver
