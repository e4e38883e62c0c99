import Eddy.DelayQueueOrder
import Eddy.DelayQueueRaces

/-!
# The steps of the delay queue beside its timers

What a step of the queue or of the timer driver can do, and what every step keeps of the timers of
the queue: a timer that can still fire belongs to an item in the map, and its waker is the one of
the `FireSink`.
-/

namespace Eddy.DelayQueueRaces
open Interleaving TimerWheel
open DelayQueue (Queue Entry Expired FireSink)
open DelayQueue.System (sinkWaker)

variable {T : Type}

namespace State

def setSink (s : State T) (sink : FireSink) : State T :=
  { s with queue := { s.queue with sink } }

def collect (s : State T) (found : List ℕ) : State T := found.foldl moveExpired s

inductive Takes (s : State T) : Label T → State T → Prop
  | insert {when value} (hplace : s.place = .idle) (hopen : s.queue.closed = false) :
      Takes s (.insert when value) { s with
        queue := { s.queue with nextKey := (s.queue.nextKey + 1) % 2 ^ 64, driver := true }
        nextTimer := s.nextTimer + 1
        own := s.own ++ [s.nextTimer]
        place := .arms s.queue.nextKey ⟨when, s.nextTimer, value⟩
          (decide (when ≤ s.timers.shared.nowInstant)) }
  /-- `remove` and `remove_if` without a value. -/
  | refuse {l} (hplace : s.place = .idle) : Takes s l s
  | remove {l key entry} (hplace : s.place = .idle)
      (hlookup : s.queue.entries.lookup key = some entry) (hfired : s.isFired entry = false) :
      Takes s l { s with place := .removes key entry }
  | poll {iter cx} (hplace : s.place = .idle) (hiter : iter.Perm s.queue.entries.keys) :
      Takes s (.poll iter cx) { s with
        latest := none
        place := .scans ⟨cx, s.queue.sink.woken.length, s.queue.sink.woken.length,
          s.timers.shared.firings.length⟩ iter [] }
  | close (hplace : s.place = .idle) :
      Takes s .close { s with queue := { s.queue with closed := true } }
  | newTimer : Takes s .newTimer { s with nextTimer := s.nextTimer + 1 }
  | driver {l timers} (hpermits : s.permits l = true) (htimers : s.timers.step l = some timers) :
      Takes s (.driver l) { s with timers }
  | wake {i timer waker timers} (htimers : s.timers.wake i = some ((timer, waker), timers)) :
      Takes s (.wake i) ({ s with timers }.setSink
        (if waker = sinkWaker then s.queue.sink.notify else s.queue.sink))
  | arm {iter key entry alreadyDue due timers} (hplace : s.place = .arms key entry alreadyDue)
      (htimers : s.timers.arm alreadyDue entry.timer entry.when sinkWaker = some (due, timers)) :
      Takes s (.go iter) { s with timers, place := .inserts key entry due }
  | enqueueDue {iter key entry} (hplace : s.place = .inserts key entry true) :
      Takes s (.go iter) { s with
        queue := { s.queue with expired := s.queue.expired ++ [⟨key, entry.when, entry.value⟩] }
        place := .notifies entry.timer
        inserted := s.inserted ++ [logged key entry]
        expiry := s.expiry ++ [logged key entry] }
  | enqueue {iter key entry} (hplace : s.place = .inserts key entry false) :
      Takes s (.go iter) { s with
        queue := { s.queue with entries := s.queue.entries.insert key entry }
        place := .idle
        inserted := s.inserted ++ [logged key entry] }
  | notify {iter timer} (hplace : s.place = .notifies timer) :
      Takes s (.go iter) { s.setSink s.queue.sink.notify with place := .idle }
  | finishRemove {iter key entry timers} (hplace : s.place = .removes key entry)
      (htimers : (if s.queue.driver then s.timers.cancel entry.timer else some s.timers) =
        some timers) :
      Takes s (.go iter) { s with
        timers
        queue := { s.queue with entries := s.queue.entries.erase key }
        place := .idle
        removed := s.removed ++ [logged key entry] }
  | read {iter call key rest found} (hplace : s.place = .scans call (key :: rest) found) :
      Takes s (.go iter) (s.read call key rest found)
  | deliver {iter call found item expired} (hplace : s.place = .scans call [] found)
      (hexpired : (s.collect found).queue.expired = item :: expired) :
      Takes s (.go iter) { s.collect found with
        queue := { (s.collect found).queue with expired }
        place := .idle
        delivered := (s.collect found).delivered ++ [item] }
  | finish {iter call found} (hplace : s.place = .scans call [] found)
      (hexpired : (s.collect found).queue.expired = []) :
      Takes s (.go iter) { s.collect found with place := .idle }
  | empty {iter call found} (hplace : s.place = .scans call [] found)
      (hexpired : (s.collect found).queue.expired = []) :
      Takes s (.go iter) { s.collect found with place := .registers call }
  | register {iter call} (hplace : s.place = .registers call) :
      Takes s (.go iter) { s.setSink { s.queue.sink with waker := some call.cx } with
        place := .swaps call }
  | rescan {iter call} (hplace : s.place = .swaps call)
      (hnotified : s.queue.sink.notified = true) (hiter : iter.Perm s.queue.entries.keys) :
      Takes s (.go iter) { s.setSink { s.queue.sink with notified := false } with
        place := .scans { call with pass := s.queue.sink.woken.length } iter [] }
  | pend {iter call} (hplace : s.place = .swaps call)
      (hnotified : s.queue.sink.notified = false) :
      Takes s (.go iter) { s with place := .idle, latest := some call }

variable {s t : State T}

theorem isIdle_eq (h : s.isIdle = true) : s.place = .idle := by
  unfold isIdle at h
  split at h
  · assumption
  · cases h

theorem takes_removeIf {l : Label T} (hplace : s.place = .idle) (key : ℕ) (predicate : T → Bool) :
    Takes s l (s.removeIf key predicate) := by
  unfold removeIf
  split
  case h_1 => exact .refuse hplace
  case h_2 entry hlookup =>
    split
    case isTrue => exact .refuse hplace
    case isFalse hkeep =>
      simp only [Bool.or_eq_true, not_or, Bool.not_eq_true] at hkeep
      exact .remove hplace hlookup hkeep.1

theorem takes_popExpired {iter : List ℕ} {call : Call} {found : List ℕ}
    (hplace : s.place = .scans call [] found) :
    Takes s (.go iter) ((s.collect found).popExpired call) := by
  unfold popExpired
  split
  case h_1 hexpired => exact .deliver hplace hexpired
  case h_2 hexpired =>
    split
    case isTrue => exact .finish hplace hexpired
    case isFalse => exact .empty hplace hexpired

theorem takes_go {iter : List ℕ} (h : s.go iter = some t) : Takes s (.go iter) t := by
  unfold go at h
  split at h
  case h_1 => cases h
  case h_2 hplace =>
    obtain ⟨⟨due, timers⟩, htimers, rfl⟩ := Option.map_eq_some_iff.mp h
    exact .arm hplace htimers
  case h_3 due hplace =>
    cases h
    cases due with
    | true => exact .enqueueDue hplace
    | false => exact .enqueue hplace
  case h_4 hplace =>
    cases h
    exact .notify hplace
  case h_5 hplace =>
    obtain ⟨timers, htimers, rfl⟩ := Option.map_eq_some_iff.mp h
    exact .finishRemove hplace htimers
  case h_6 hplace =>
    cases h
    exact .read hplace
  case h_7 hplace =>
    cases h
    exact takes_popExpired hplace
  case h_8 hplace =>
    cases h
    exact .register hplace
  case h_9 hplace =>
    split at h
    case isTrue hnotified =>
      obtain ⟨hiter, h⟩ := Option.ite_none_right_eq_some.mp h
      cases h
      exact .rescan hplace hnotified hiter
    case isFalse hnotified =>
      cases h
      exact .pend hplace (Bool.eq_false_iff.mpr hnotified)

theorem step_takes {l : Label T} (h : s.step l = some t) : Takes s l t := by
  cases l with
  | go iter => exact takes_go h
  | newTimer =>
    cases h
    exact .newTimer
  | driver l =>
    obtain ⟨hpermits, h⟩ := Option.ite_none_right_eq_some.mp h
    obtain ⟨timers, htimers, rfl⟩ := Option.map_eq_some_iff.mp h
    exact .driver hpermits htimers
  | wake i =>
    obtain ⟨⟨⟨timer, waker⟩, timers⟩, htimers, rfl⟩ := Option.map_eq_some_iff.mp h
    exact .wake htimers
  | insert when value =>
    obtain ⟨hidle, h⟩ := Option.ite_none_right_eq_some.mp h
    obtain ⟨hopen, h⟩ := Option.ite_none_left_eq_some.mp h
    cases h
    exact .insert (isIdle_eq hidle) (Bool.eq_false_iff.mpr hopen)
  | remove key =>
    obtain ⟨hidle, h⟩ := Option.ite_none_right_eq_some.mp h
    cases h
    exact takes_removeIf (isIdle_eq hidle) key _
  | removeIf key predicate =>
    obtain ⟨hidle, h⟩ := Option.ite_none_right_eq_some.mp h
    cases h
    exact takes_removeIf (isIdle_eq hidle) key predicate
  | poll iter cx =>
    obtain ⟨hidle, h⟩ := Option.ite_none_right_eq_some.mp h
    obtain ⟨hiter, h⟩ := Option.ite_none_right_eq_some.mp h
    cases h
    exact .poll (isIdle_eq hidle) hiter
  | close =>
    obtain ⟨hidle, h⟩ := Option.ite_none_right_eq_some.mp h
    cases h
    exact .close (isIdle_eq hidle)

def Tracks (s : State T) (timer : ℕ) : Prop :=
  timer ∈ s.waiting.map Prod.fst ∨ s.Enters timer

structure Owns (s : State T) : Prop where
  timers : s.timers.Sound
  own_lt : ∀ x ∈ s.own, x < s.nextTimer
  known_lt : ∀ x, s.timers.Known x → x < s.nextTimer
  /-- A timer that can still fire. -/
  armed : ∀ x ∈ s.own, (s.timers.entry x).linked = true ∨ s.timers.Fireable x →
    s.Tracks x ∧ (s.timers.entry x).fired = false ∧ (s.timers.entry x).waker = some sinkWaker
  firing : ∀ x ∈ s.own, s.timers.Firing x → (s.timers.entry x).waker = some sinkWaker
  held : ∀ x ∈ s.own, ∀ waker, (x, waker) ∈ s.timers.held → waker = sinkWaker
  fired : ∀ x ∈ s.own, x ∈ s.timers.shared.firings.map Firing.id →
    (s.timers.entry x).fired = true

namespace Owns

theorem new : Owns (.new : State T) where
  timers := Timers.Sound.new
  own_lt := nofun
  known_lt x hx := by
    obtain hlinked | ⟨f, hf, -⟩ | (⟨f, hf, -⟩ | hheld) | hfirings := hx
    · cases hlinked
    · cases hf
    · cases hf
    · cases hheld
    · cases hfirings
  armed := nofun
  firing := nofun
  held := nofun
  fired := nofun

theorem congr (h : Owns s) (htimers : t.timers = s.timers) (hown : t.own = s.own)
    (hnext : s.nextTimer ≤ t.nextTimer)
    (htracks : ∀ x ∈ s.own, (s.timers.entry x).fired = false → s.Tracks x → t.Tracks x) :
    Owns t where
  timers := htimers ▸ h.timers
  own_lt x hx := (h.own_lt x (hown ▸ hx)).trans_le hnext
  known_lt x hx := (h.known_lt x (htimers ▸ hx)).trans_le hnext
  armed x hx hcan := by
    rw [htimers] at hcan ⊢
    obtain ⟨htrack, hfired, hwaker⟩ := h.armed x (hown ▸ hx) hcan
    exact ⟨htracks x (hown ▸ hx) hfired htrack, hfired, hwaker⟩
  firing x hx := by
    rw [htimers]
    exact h.firing x (hown ▸ hx)
  held x hx := by
    rw [htimers]
    exact h.held x (hown ▸ hx)
  fired x hx := by
    rw [htimers]
    exact h.fired x (hown ▸ hx)

variable {timers : Timers} {x : ℕ} {l : Timers.Label}

theorem follows (h : Owns s) (hsound : timers.Sound)
    (hfollows : ∀ x ∈ s.own, Timers.Follows x s.timers timers)
    (hknown : ∀ x, timers.Known x → x < s.nextTimer) : Owns { s with timers } where
  timers := hsound
  own_lt := h.own_lt
  known_lt := hknown
  armed x hx hcan := by
    have hstep := hfollows x hx
    have hfirst : (s.timers.entry x).linked = true ∨ s.timers.Fireable x := by
      obtain hlinked | hfireable := hcan
      · exact .inl (hstep.linked hlinked)
      · exact hstep.fireable hfireable
    obtain ⟨htrack, hfired, hwaker⟩ := h.armed x hx hfirst
    have hnot : ¬ timers.Firing x := by
      intro hfiring
      obtain hlinked | hfireable := hcan
      · rw [hsound.firing x hfiring] at hlinked
        cases hlinked
      · exact hsound.not_fireable hfiring hfireable
    have hnot' : ¬ s.timers.Firing x := by
      intro hfiring
      obtain hlinked | hfireable := hfirst
      · rw [h.timers.firing x hfiring] at hlinked
        cases hlinked
      · exact h.timers.not_fireable hfiring hfireable
    refine ⟨htrack, ?_, ?_⟩
    · obtain ⟨hsame, -⟩ | ⟨-, hfiring, -⟩ := hstep.fired
      · exact hsame.trans hfired
      · exact absurd hfiring hnot
    · obtain hsame | ⟨hfiring, -⟩ := hstep.waker
      · exact hsame.trans hwaker
      · exact absurd hfiring hnot'
  firing x hx hfiring := by
    have hstep := hfollows x hx
    obtain hsame | ⟨-, hnot, -⟩ := hstep.waker
    · refine hsame.trans ?_
      obtain hfiring | ⟨hfireable, -⟩ := hstep.firing hfiring
      · exact h.firing x hx hfiring
      · exact (h.armed x hx (.inr hfireable)).2.2
    · exact absurd hfiring hnot
  held x hx waker hw := by
    obtain hw | ⟨hfiring, hwaker⟩ := (hfollows x hx).took waker hw
    · exact h.held x hx waker hw
    · exact Option.some.inj (hwaker.symm.trans (h.firing x hx hfiring))
  fired x hx hmem := by
    obtain ⟨hsame, new, hnew, hne⟩ | ⟨-, -, hfired, -⟩ := (hfollows x hx).fired
    · rw [hsame]
      apply h.fired x hx
      rw [hnew, List.map_append, List.mem_append] at hmem
      obtain hmem | hmem := hmem
      · exact hmem
      · obtain ⟨f, hf, rfl⟩ := List.mem_map.mp hmem
        exact absurd rfl (hne f hf)
    · exact hfired

/-- The rest of the runtime does not touch the timers of the queue. -/
theorem permits_timer (hpermits : s.permits l = true) {id : ℕ}
    (hid : l.timer = some id) : id < s.nextTimer ∧ id ∉ s.own := by
  cases l with
  | arm alreadyDue id' deadline waker =>
    cases hid
    obtain ⟨hlt, hown, -⟩ := of_decide_eq_true hpermits
    exact ⟨hlt, hown⟩
  | cancel id' =>
    cases hid
    exact of_decide_eq_true hpermits
  | _ => cases hid

theorem driver_follows (h : Owns s)
    (hpermits : s.permits l = true) (htimers : s.timers.step l = some timers) :
    ∀ x ∈ s.own, Timers.Follows x s.timers timers := by
  intro x hx
  apply h.timers.follows htimers
  exact fun hid => (permits_timer hpermits hid).2 hx

theorem driver (h : Owns s) (hpermits : s.permits l = true)
    (htimers : s.timers.step l = some timers) : Owns { s with timers } := by
  apply h.follows (h.timers.step htimers) (h.driver_follows hpermits htimers)
  intro x hx
  by_cases hid : l.timer = some x
  · exact (permits_timer hpermits hid).1
  · exact h.known_lt x ((h.timers.follows htimers hid).known hx)

theorem wake (h : Owns s) {i : ℕ} {woken : ℕ × ℕ}
    (htimers : s.timers.wake i = some (woken, timers)) : Owns { s with timers } := by
  apply h.follows (h.timers.wake htimers)
  · exact fun x _ => .wake htimers
  · exact fun x hx => h.known_lt x ((Timers.Follows.wake htimers).known hx)

theorem insert (h : Owns s) (hown : t.own = s.own ++ [s.nextTimer])
    (htimers : t.timers = s.timers) (hnext : t.nextTimer = s.nextTimer + 1)
    (htracks : ∀ x, s.Tracks x → t.Tracks x) : Owns t := by
  have hnew : ¬ s.timers.Known s.nextTimer := fun hknown => lt_irrefl _ (h.known_lt _ hknown)
  refine ⟨htimers ▸ h.timers, ?_, ?_, ?_, ?_, ?_, ?_⟩
  · intro x hx
    rw [hown, List.mem_append, List.mem_singleton] at hx
    rw [hnext]
    obtain hx | rfl := hx
    · exact (h.own_lt x hx).trans (Nat.lt_succ_self _)
    · exact Nat.lt_succ_self _
  · intro x hx
    rw [hnext]
    exact (h.known_lt x (htimers ▸ hx)).trans (Nat.lt_succ_self _)
  all_goals
    intro x hx
    rw [hown, List.mem_append, List.mem_singleton] at hx
    rw [htimers]
  · intro hcan
    obtain hx | rfl := hx
    · obtain ⟨htrack, hrest⟩ := h.armed x hx hcan
      exact ⟨htracks x htrack, hrest⟩
    · refine absurd ?_ hnew
      obtain hlinked | hfireable := hcan
      · exact .inl hlinked
      · exact .inr (.inl hfireable)
  · intro hfiring
    obtain hx | rfl := hx
    · exact h.firing x hx hfiring
    · exact absurd (.inr (.inr (.inl (.inl hfiring)))) hnew
  · intro waker hw
    obtain hx | rfl := hx
    · exact h.held x hx waker hw
    · refine absurd (.inr (.inr (.inl (.inr ?_)))) hnew
      exact List.mem_map_of_mem hw
  · intro hmem
    obtain hx | rfl := hx
    · exact h.fired x hx hmem
    · exact absurd (.inr (.inr (.inr hmem))) hnew

/-- A section under the mutex of the wheel that is about one timer of the queue. -/
theorem locked (h : Owns s) {shared : TimerShared} (hx : x ∈ s.own)
    (hholder : s.timers.holder = none) (hsound : shared.Sound)
    (hother : ∀ y, y ≠ x → shared.wheel.entries y = s.timers.entry y)
    (hfirings : ∀ y ∈ shared.firings.map Firing.id,
      y ∈ s.timers.shared.firings.map Firing.id ∨ y = x)
    (htimers : t.timers = { s.timers with shared }) (hown : t.own = s.own)
    (hnext : t.nextTimer = s.nextTimer) (htracks : ∀ y, y ≠ x → s.Tracks y → t.Tracks y)
    (harmed : (shared.wheel.entries x).linked = true → t.Tracks x ∧
      (shared.wheel.entries x).fired = false ∧
        (shared.wheel.entries x).waker = some sinkWaker)
    (hfired : x ∈ shared.firings.map Firing.id → (shared.wheel.entries x).fired = true) :
    Owns t := by
  have hentry : ∀ y, t.timers.entry y = shared.wheel.entries y := by
    intro y
    rw [htimers]
    rfl
  have hsame : t.timers.holder = none ∧ t.timers.held = s.timers.held := by
    rw [htimers]
    exact ⟨hholder, rfl⟩
  have hnone : ∀ y, ¬ t.timers.Fireable y ∧ ¬ t.timers.Firing y := by
    intro y
    rw [Timers.Fireable, Timers.Firing, hsame.1]
    exact ⟨by rintro ⟨f, ⟨⟩, -⟩, by rintro ⟨f, ⟨⟩, -⟩⟩
  have hlog : t.timers.shared.firings = shared.firings := by rw [htimers]
  refine ⟨?_, ?_, ?_, ?_, ?_, ?_, ?_⟩
  · rw [htimers]
    exact h.timers.section hsound hholder
  · rw [hown, hnext]
    exact h.own_lt
  · intro y hy
    rw [hnext]
    by_cases hyx : y = x
    · rw [hyx]
      exact h.own_lt x hx
    · apply h.known_lt y
      obtain hlinked | hfireable | (hfiring | hwoken) | hmem := hy
      · rw [hentry, hother y hyx] at hlinked
        exact .inl hlinked
      · exact absurd hfireable (hnone y).1
      · exact absurd hfiring (hnone y).2
      · rw [hsame.2] at hwoken
        exact .inr (.inr (.inl (.inr hwoken)))
      · rw [hlog] at hmem
        exact .inr (.inr (.inr ((hfirings y hmem).resolve_right hyx)))
  · intro y hy hcan
    have hlinked := hcan.resolve_right (hnone y).1
    rw [hentry] at hlinked ⊢
    by_cases hyx : y = x
    · subst hyx
      exact harmed hlinked
    · rw [hother y hyx] at hlinked ⊢
      obtain ⟨htrack, hrest⟩ := h.armed y (hown ▸ hy) (.inl hlinked)
      exact ⟨htracks y hyx htrack, hrest⟩
  · exact fun y _ hfiring => absurd hfiring (hnone y).2
  · intro y hy
    rw [hsame.2]
    exact h.held y (hown ▸ hy)
  · intro y hy hmem
    rw [hlog] at hmem
    rw [hentry]
    by_cases hyx : y = x
    · subst hyx
      exact hfired hmem
    · rw [hother y hyx]
      exact h.fired y (hown ▸ hy) ((hfirings y hmem).resolve_right hyx)

theorem arm (h : Owns s) {alreadyDue due : Bool} {when : ℤ}
    (harm : s.timers.arm alreadyDue x when sinkWaker = some (due, timers))
    (hx : x ∈ s.own) (hunknown : ¬ s.timers.Known x) (htimers : t.timers = timers)
    (hown : t.own = s.own) (hnext : t.nextTimer = s.nextTimer)
    (htracks : ∀ y, s.Tracks y → t.Tracks y) (hself : due = false → t.Tracks x) : Owns t := by
  obtain ⟨hholder, rfl, rfl⟩ := Timers.arm_eq_some harm
  have harmed := h.timers.shared.armLocked alreadyDue x when sinkWaker
  obtain ⟨new, hfirings, hnew⟩ :=
    Timers.armLocked_firings s.timers.shared alreadyDue x when sinkWaker
  have hlog : ∀ y ∈ (s.timers.shared.armLocked alreadyDue x when sinkWaker).2.firings.map Firing.id,
      y ∈ s.timers.shared.firings.map Firing.id ∨ y ∈ new.map Firing.id := by
    intro y hy
    rwa [hfirings, List.map_append, List.mem_append] at hy
  refine h.locked hx hholder harmed.sound harmed.alters.entries (fun y hy => ?_) htimers hown hnext
    (fun y _ => htracks y) (fun hlinked => ?_) fun hmem => ?_
  · refine (hlog y hy).imp_right fun hy => ?_
    obtain ⟨f, hf, rfl⟩ := List.mem_map.mp hy
    exact (hnew f hf).1
  · have hdue : (s.timers.shared.armLocked alreadyDue x when sinkWaker).1 = false := by
      simpa using harmed.linked.symm.trans hlinked
    refine ⟨hself hdue, harmed.fired.trans hdue, harmed.waker.trans ?_⟩
    rw [hdue]
    rfl
  · obtain hmem | hmem := hlog x hmem
    · exact absurd (.inr (.inr (.inr hmem))) hunknown
    · obtain ⟨f, hf, -⟩ := List.mem_map.mp hmem
      exact harmed.fired.trans (hnew f hf).2

theorem cancel (h : Owns s) (hcancel : s.timers.cancel x = some timers)
    (hx : x ∈ s.own) (htimers : t.timers = timers) (hown : t.own = s.own)
    (hnext : t.nextTimer = s.nextTimer) (htracks : ∀ y, y ≠ x → s.Tracks y → t.Tracks y) :
    Owns t := by
  obtain ⟨hholder, rfl⟩ := Timers.cancel_eq_some hcancel
  refine h.locked hx hholder (h.timers.shared.cancel x) (s.timers.shared.cancel_alters x).entries
    (fun y hy => .inl hy) htimers hown hnext htracks (fun hlinked => ?_) fun hmem => ?_
  · cases (h.timers.shared.cancel_linked x).symm.trans hlinked
  · exact (s.timers.shared.cancel_fired x x).trans (h.fired x hx hmem)

end Owns

end State

end Eddy.DelayQueueRaces
