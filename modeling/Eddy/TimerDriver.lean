import Eddy.TimerSharedFirings

/-!
# The timer driver with its calls interleaved

`TimerShared` of `time/wheel.rs` with any number of calls at a time. A section under the mutex of
the wheel is one step, except for that of `advance_to_now`, whose accesses to the flags and the wakers
of the timers are a step each. A call reads the clock before it waits for the mutex, and wakes after
it.
-/

namespace Eddy.TimerWheel
open Interleaving

/-- `advance_to_now` under the mutex, after `take_pending`. -/
structure Fires where
  now : ℕ
  /-- The timer whose flag is set and whose waker is not taken yet. -/
  current : Option ℕ
  ids : List ℕ
  /-- The wakers taken so far, each with its timer. -/
  wakers : List (ℕ × ℕ)

structure Timers where
  shared : TimerShared
  /-- The clock readings of calls of `advance_to_now` that are before the mutex. -/
  entering : List ℕ
  /-- The call of `advance_to_now` that holds the mutex. -/
  holder : Option Fires
  /-- What each call after the mutex still has to wake. -/
  waking : List (List (ℕ × ℕ))

namespace Timers

def new : Timers := ⟨.new, [], none, []⟩

def entry (t : Timers) (id : ℕ) : TimerEntry := t.shared.wheel.entries id

def setEntry (s : TimerShared) (id : ℕ) (entry : TimerEntry) : TimerShared :=
  { s with wheel := { s.wheel with entries := Function.update s.wheel.entries id entry } }

/-- `advance_to` and `take_pending`. -/
def lock (t : Timers) (i : ℕ) : Option Timers :=
  if t.holder.isSome then none
  else t.entering[i]?.bind fun now => (t.shared.wheel.tick now).map fun (ids, wheel) =>
    { t with
      shared := { t.shared with wheel }
      entering := t.entering.eraseIdx i
      holder := some ⟨now, none, ids, []⟩ }

/-- The loop over the timers that are due, and the unlock. -/
def fire (t : Timers) (f : Fires) : Timers :=
  match f.current, f.ids with
  | some id, _ =>
    let waker := (t.entry id).waker
    { t with
      shared := setEntry t.shared id { t.entry id with waker := none }
      holder := some { f with
        current := none, wakers := f.wakers ++ (waker.map fun waker => (id, waker)).toList } }
  | none, id :: ids =>
    { t with
      shared := { setEntry t.shared id { t.entry id with fired := true } with
        firings := t.shared.firings ++ [⟨id, f.now, (t.entry id).deadline⟩] }
      holder := some { f with current := some id, ids } }
  | none, [] => { t with holder := none, waking := t.waking ++ [f.wakers] }

/-- A call wakes the next one. -/
def wake (t : Timers) (i : ℕ) : Option ((ℕ × ℕ) × Timers) :=
  t.waking[i]?.bind fun wakers =>
    match wakers with
    | [] => none
    | woken :: wakers => some (woken, { t with waking := t.waking.set i wakers })

/-- The section of `arm` under the mutex. -/
def arm (t : Timers) (alreadyDue : Bool) (id : ℕ) (deadline : ℤ) (waker : ℕ) :
    Option (Bool × Timers) :=
  if t.holder.isSome then none
  else
    let (due, shared) := t.shared.armLocked alreadyDue id deadline waker
    some (due, { t with shared })

def cancel (t : Timers) (id : ℕ) : Option Timers :=
  if t.holder.isSome then none else some { t with shared := t.shared.cancel id }

inductive Label where
  /-- Real time passes. -/
  | clock (real : ℕ)
  | pause
  | resume
  /-- `fetch_add` of `advance`. -/
  | addPaused (duration : ℕ)
  /-- A call of `advance_to_now` reads the clock. -/
  | read
  | lock (i : ℕ)
  | fire
  | arm (alreadyDue : Bool) (id : ℕ) (deadline : ℤ) (waker : ℕ)
  | cancel (id : ℕ)

/-- `TimerShared::advance` up to its `advance_to_now`. -/
def addPaused (t : Timers) (duration : ℕ) : Option Timers :=
  if t.shared.paused then
    some { t with shared := { t.shared with
      pausedElapsed := (t.shared.pausedElapsed + roundUpMs duration) % 2 ^ 64 } }
  else none

/-- The steps that wake nothing. -/
def step (t : Timers) : Label → Option Timers
  | .clock real => (t.shared.step (.clock real)).map fun shared => { t with shared }
  | .pause => some { t with shared := t.shared.pause }
  | .resume => some { t with shared := t.shared.resume }
  | .addPaused duration => t.addPaused duration
  | .read => some { t with entering := t.entering ++ [t.shared.nowMs] }
  | .lock i => t.lock i
  | .fire => t.holder.map t.fire
  | .arm alreadyDue id deadline waker => (t.arm alreadyDue id deadline waker).map Prod.snd
  | .cancel id => t.cancel id

/-- The timer was taken out of the wheel to be fired. -/
def Fireable (t : Timers) (id : ℕ) : Prop := ∃ f ∈ t.holder, id ∈ f.ids

/-- The flag of the timer was set, and its waker is to be taken. -/
def Firing (t : Timers) (id : ℕ) : Prop := ∃ f ∈ t.holder, f.current = some id

/-- The wakers that were taken and not woken yet. -/
def held (t : Timers) : List (ℕ × ℕ) := t.holder.elim [] Fires.wakers ++ t.waking.flatten

/-- A call has a waker of the timer, or is about to take it. -/
def Wakes (t : Timers) (id : ℕ) : Prop := t.Firing id ∨ id ∈ t.held.map Prod.fst

structure Sound (t : Timers) : Prop where
  shared : t.shared.Sound
  nodup : ∀ f ∈ t.holder, (f.current.toList ++ f.ids).Nodup
  fireable : ∀ id, t.Fireable id → (t.entry id).linked = false
  firing : ∀ id, t.Firing id → (t.entry id).linked = false
  entering : ∀ now ∈ t.entering, now < 2 ^ 64

/-- The timers `ids` were taken out of the wheel at a clock reading. -/
structure Locked (s s' : TimerShared) (now : ℕ) (ids : List ℕ) : Prop where
  sound : s'.Sound
  timer : ∀ id, s'.wheel.timer id = s.wheel.timer id
  linked : ∀ id, (s'.wheel.entries id).linked = true ↔
    (s.wheel.entries id).linked = true ∧ id ∉ ids
  nodup : ids.Nodup
  taken : ∀ id ∈ ids, (s.wheel.entries id).linked = true ∧ (s.wheel.entries id).deadline ≤ now
  advances : DeadlineMap.Advances s.wheel.abstract now ids s'.wheel.abstract

theorem locked_tick {s : TimerShared} {now : ℕ} {ids : List ℕ} {wheel : Wheel} (h : s.Sound)
    (hnow : now < 2 ^ 64) (htick : s.wheel.tick now = some (ids, wheel)) :
    Locked s { s with wheel } now ids := by
  obtain ⟨ids', wheel', htick', hclear, htimer, hadvances⟩ := h.clear.tick hnow
  cases htick.symm.trans htick'
  have hlinked : ∀ id, (wheel.entries id).linked = true ↔
      (s.wheel.entries id).linked = true ∧ id ∉ ids := by
    intro id
    have hdeadlines := hadvances.deadline_eq
    change wheel.deadlines = DeadlineMap.without s.wheel.deadlines ids at hdeadlines
    have hiff : ∀ d, wheel.deadlines id = some d ↔ s.wheel.deadlines id = some d ∧ id ∉ ids := by
      intro d
      rw [hdeadlines]
      exact DeadlineMap.without_eq_some
    have hsame := Wheel.deadline_eq_of_timer (htimer id)
    have := hiff (wheel.deadline id)
    rw [Wheel.deadlines_eq_some, Wheel.deadlines_eq_some] at this
    simpa [hsame] using this
  have hfired : ∀ id, (wheel.entries id).fired = (s.wheel.entries id).fired := fun id =>
    congrArg (fun timer => timer.2.1) (htimer id)
  refine ⟨⟨hclear, ?_, h.pausedElapsed_lt⟩, htimer, hlinked, hadvances.due.1, ?_, hadvances⟩
  · intro id hid
    exact (hfired id).trans (h.unfired id ((hlinked id).mp hid).1)
  · intro id hid
    obtain ⟨d, hd, hdeadline, -⟩ := hadvances.due.2 id hid
    obtain ⟨hlinked, rfl⟩ := Wheel.deadlines_eq_some.mp hdeadline
    exact ⟨hlinked, hd⟩

/-- The clock is not set. -/
def Label.isReal : Label → Bool
  | .pause | .resume | .addPaused _ => false
  | _ => true

def Label.isClock : Label → Bool
  | .clock _ | .pause | .resume | .addPaused _ => true
  | _ => false

inductive Takes (t : Timers) : Label → Timers → Prop
  | clock {l shared} (hl : l.isClock = true) (hwheel : shared.wheel = t.shared.wheel)
      (hfirings : shared.firings = t.shared.firings) (hsound : shared.Sound)
      (hreal : l.isReal = true →
        shared.paused = t.shared.paused ∧ t.shared.nowMs ≤ shared.nowMs) :
      Takes t l { t with shared }
  | read : Takes t .read { t with entering := t.entering ++ [t.shared.nowMs] }
  | lock {i now ids shared} (hholder : t.holder = none) (hi : t.entering[i]? = some now)
      (hlocked : Locked t.shared shared now ids) (hfirings : shared.firings = t.shared.firings)
      (hpaused : shared.paused = t.shared.paused) (hclock : shared.nowMs = t.shared.nowMs) :
      Takes t (.lock i) { t with
        shared, entering := t.entering.eraseIdx i, holder := some ⟨now, none, ids, []⟩ }
  | take {now id ids wakers} (hholder : t.holder = some ⟨now, some id, ids, wakers⟩) :
      Takes t .fire { t with
        shared := setEntry t.shared id { t.entry id with waker := none }
        holder := some ⟨now, none, ids,
          wakers ++ ((t.entry id).waker.map fun waker => (id, waker)).toList⟩ }
  | store {now id ids wakers} (hholder : t.holder = some ⟨now, none, id :: ids, wakers⟩) :
      Takes t .fire { t with
        shared := { setEntry t.shared id { t.entry id with fired := true } with
          firings := t.shared.firings ++ [⟨id, now, (t.entry id).deadline⟩] }
        holder := some ⟨now, some id, ids, wakers⟩ }
  | unlock {now wakers} (hholder : t.holder = some ⟨now, none, [], wakers⟩) :
      Takes t .fire { t with holder := none, waking := t.waking ++ [wakers] }
  | arm {alreadyDue id deadline waker} (hholder : t.holder = none) :
      Takes t (.arm alreadyDue id deadline waker)
        { t with shared := (t.shared.armLocked alreadyDue id deadline waker).2 }
  | cancel {id} (hholder : t.holder = none) :
      Takes t (.cancel id) { t with shared := t.shared.cancel id }

variable {t t' : Timers}

theorem nowMs_mono {s : TimerShared} {real : ℕ} (h : s.real ≤ real) :
    s.nowMs ≤ { s with real }.nowMs := by
  unfold TimerShared.nowMs TimerShared.realElapsedMs
  split
  · exact le_rfl
  · exact min_le_min_right _ (Nat.div_le_div_right h)

theorem takes_fire {f : Fires} (hf : t.holder = some f) : Takes t .fire (t.fire f) := by
  obtain ⟨now, current, ids, wakers⟩ := f
  cases current with
  | some id => exact .take hf
  | none =>
    cases ids with
    | nil => exact .unlock hf
    | cons id ids => exact .store hf

variable {id now i j : ℕ} {wakers : List (ℕ × ℕ)} {ids : List ℕ} {l : Label} {woken : ℕ × ℕ}
    {e : TimerEntry}
  {current : Option ℕ}

theorem arm_eq_some {alreadyDue due : Bool} {waker : ℕ} {deadline : ℤ}
    (harm : t.arm alreadyDue id deadline waker = some (due, t')) :
    t.holder = none ∧ due = (t.shared.armLocked alreadyDue id deadline waker).1 ∧
      t' = { t with shared := (t.shared.armLocked alreadyDue id deadline waker).2 } := by
  unfold Timers.arm at harm
  split_ifs at harm with hholder
  cases harm
  exact ⟨by simpa using hholder, rfl, rfl⟩

theorem cancel_eq_some (hcancel : t.cancel id = some t') :
    t.holder = none ∧ t' = { t with shared := t.shared.cancel id } := by
  unfold Timers.cancel at hcancel
  split_ifs at hcancel with hholder
  cases hcancel
  exact ⟨by simpa using hholder, rfl⟩

theorem Sound.step_takes (h : t.Sound) (hs : t.step l = some t') : Takes t l t' := by
  cases l with
  | clock real =>
    obtain ⟨shared, hshared, rfl⟩ := Option.map_eq_some_iff.mp hs
    have hsound := h.shared.step hshared
    obtain ⟨hle, hshared⟩ := Option.ite_none_right_eq_some.mp hshared
    cases hshared
    exact .clock rfl rfl rfl hsound fun _ => ⟨rfl, nowMs_mono hle⟩
  | pause =>
    cases hs
    refine .clock rfl ?_ ?_ (h.shared.step (a := .pause) rfl) nofun
    all_goals
      unfold TimerShared.pause
      split <;> rfl
  | resume =>
    cases hs
    exact .clock rfl rfl rfl (h.shared.step (a := .resume) rfl) nofun
  | addPaused duration =>
    simp only [Timers.step, addPaused] at hs
    split_ifs at hs
    cases hs
    refine .clock rfl rfl rfl ⟨h.shared.clear, h.shared.unfired, ?_⟩ nofun
    exact Nat.mod_lt _ (Nat.two_pow_pos 64)
  | read =>
    cases hs
    exact .read
  | lock i =>
    simp only [Timers.step, Timers.lock] at hs
    split_ifs at hs with hholder
    obtain ⟨now, hi, hs⟩ := Option.bind_eq_some_iff.mp hs
    obtain ⟨⟨ids, wheel⟩, htick, rfl⟩ := Option.map_eq_some_iff.mp hs
    have hnow := h.entering now (List.mem_of_getElem? hi)
    exact .lock (by simpa using hholder) hi (locked_tick h.shared hnow htick) rfl rfl rfl
  | fire =>
    obtain ⟨f, hf, rfl⟩ := Option.map_eq_some_iff.mp hs
    exact takes_fire hf
  | arm alreadyDue id deadline waker =>
    obtain ⟨⟨due, t''⟩, harm, rfl⟩ := Option.map_eq_some_iff.mp hs
    obtain ⟨hholder, -, rfl⟩ := arm_eq_some harm
    exact .arm hholder
  | cancel id =>
    obtain ⟨hholder, rfl⟩ := cancel_eq_some hs
    exact .cancel hholder

/-- The entry of one timer is another one. -/
theorem entry_of_update
    (h : t'.shared.wheel.entries = Function.update t.shared.wheel.entries id e) (j : ℕ) :
    t'.entry j = if j = id then e else t.entry j := by
  rw [Timers.entry, h, Function.update_apply]
  rfl

theorem linked_of_update
    (h : t'.shared.wheel.entries = Function.update t.shared.wheel.entries id e)
    (he : e.linked = (t.entry id).linked) (j : ℕ) : (t'.entry j).linked = (t.entry j).linked := by
  rw [entry_of_update h]
  split
  case isTrue hj => rw [hj, he]
  case isFalse => rfl

theorem sound_setEntry {s : TimerShared} (h : s.Sound)
    (hid : (s.wheel.entries id).linked = false) (he : e.linked = false) :
    (setEntry s id e).Sound := by
  have hlinked : ∀ j, ((setEntry s id e).wheel.entries j).linked =
      (s.wheel.entries j).linked := by
    intro j
    by_cases hjid : j = id
    · subst hjid
      simpa [setEntry] using he.trans hid.symm
    · simp [setEntry, hjid]
  refine ⟨⟨h.clear.valid.setEntries hlinked fun j hj => ?_, h.clear.pending⟩, fun j hj => ?_,
    h.pausedElapsed_lt⟩
  · have hjid : j ≠ id := by
      rintro rfl
      simp [hid] at hj
    simp [hjid]
  · rw [hlinked] at hj
    have hjid : j ≠ id := by
      rintro rfl
      simp [hid] at hj
    simpa [setEntry, hjid] using h.unfired j hj

theorem Sound.new : Timers.new.Sound where
  shared := TimerShared.Sound.new
  nodup := nofun
  fireable _ := by rintro ⟨f, hf, -⟩; cases hf
  firing _ := by rintro ⟨f, hf, -⟩; cases hf
  entering := nofun

/-- A section under the mutex that fires nothing. -/
theorem Sound.section (h : t.Sound) {shared : TimerShared} (hshared : shared.Sound)
    (hholder : t.holder = none) : Sound { t with shared } where
  shared := hshared
  nodup := h.nodup
  fireable id := by
    rintro ⟨f, hf, -⟩
    cases hholder.symm.trans hf
  firing id := by
    rintro ⟨f, hf, -⟩
    cases hholder.symm.trans hf
  entering := h.entering

/-- The flag of a timer is set once. -/
theorem Sound.not_fireable (h : t.Sound) (hid : t.Firing id) : ¬ t.Fireable id := by
  obtain ⟨f, hf, hcurrent⟩ := hid
  rintro ⟨f', hf', hmem⟩
  cases hf.symm.trans hf'
  have hnodup := h.nodup f hf
  rw [hcurrent] at hnodup
  exact (List.nodup_cons.mp hnodup).1 hmem

theorem Sound.step (h : t.Sound) (hs : t.step l = some t') : t'.Sound := by
  cases h.step_takes hs with
  | clock _ hwheel _ hsound =>
    refine ⟨hsound, h.nodup, fun id hid => ?_, fun id hid => ?_, h.entering⟩
    · rw [entry, hwheel]
      exact h.fireable id hid
    · rw [entry, hwheel]
      exact h.firing id hid
  | read =>
    refine ⟨h.shared, h.nodup, h.fireable, h.firing, fun now hnow => ?_⟩
    obtain hnow | hnow := List.mem_append.mp hnow
    · exact h.entering now hnow
    · rw [List.mem_singleton.mp hnow]
      exact h.shared.nowMs_lt
  | @lock i now ids shared hholder hi hlocked =>
    refine ⟨hlocked.sound, ?_, fun id hid => ?_, fun id hid => ?_, fun now hnow => ?_⟩
    · rintro f ⟨⟩
      exact hlocked.nodup
    · obtain ⟨f, ⟨⟩, hid⟩ := hid
      rw [← Bool.not_eq_true]
      exact fun hlinked => ((hlocked.linked id).mp hlinked).2 hid
    · obtain ⟨f, ⟨⟩, hid⟩ := hid
      cases hid
    · exact h.entering now (List.mem_of_mem_eraseIdx hnow)
  | @take now id ids wakers hholder =>
    have hid : (t.entry id).linked = false := h.firing id ⟨_, hholder, rfl⟩
    refine ⟨sound_setEntry h.shared hid hid, ?_, fun j hj => ?_, fun j hj => ?_, h.entering⟩
    · rintro f ⟨⟩
      exact (List.nodup_cons.mp (h.nodup _ hholder)).2
    · obtain ⟨f, ⟨⟩, hj⟩ := hj
      refine Eq.trans ?_ (h.fireable j ⟨_, hholder, hj⟩)
      exact linked_of_update (e := { t.entry id with waker := none }) rfl rfl j
    · obtain ⟨f, ⟨⟩, hj⟩ := hj
      cases hj
  | @store now id ids wakers hholder =>
    have hid : (t.entry id).linked = false := h.fireable id ⟨_, hholder, List.mem_cons_self⟩
    have hset := sound_setEntry (e := { t.entry id with fired := true }) h.shared hid hid
    refine ⟨⟨hset.clear, hset.unfired, hset.pausedElapsed_lt⟩, ?_, fun j hj => ?_, fun j hj => ?_,
      h.entering⟩
    · rintro f ⟨⟩
      have hnodup := h.nodup _ hholder
      exact hnodup
    · obtain ⟨f, ⟨⟩, hj⟩ := hj
      refine Eq.trans ?_ (h.fireable j ⟨_, hholder, List.mem_cons_of_mem _ hj⟩)
      exact linked_of_update (e := { t.entry id with fired := true }) rfl rfl j
    · obtain ⟨f, ⟨⟩, hj⟩ := hj
      cases hj
      refine Eq.trans ?_ hid
      exact linked_of_update (e := { t.entry id with fired := true }) rfl rfl id
  | unlock =>
    refine ⟨h.shared, nofun, ?_, ?_, h.entering⟩
    · rintro id ⟨f, ⟨⟩, -⟩
    · rintro id ⟨f, ⟨⟩, -⟩
  | arm hholder => exact h.section (h.shared.armLocked ..).sound hholder
  | cancel hholder => exact h.section (h.shared.cancel _) hholder

def Label.timer : Label → Option ℕ
  | .arm _ id _ _ | .cancel id => some id
  | _ => none

/-- The step of the timers as seen from one of them. -/
structure Follows (id : ℕ) (t t' : Timers) : Prop where
  deadline : (t'.entry id).deadline = (t.entry id).deadline
  /-- The flag is set with a firing. -/
  fired : ((t'.entry id).fired = (t.entry id).fired ∧
      ∃ new, t'.shared.firings = t.shared.firings ++ new ∧ ∀ f ∈ new, f.id ≠ id) ∨
    (t.Fireable id ∧ t'.Firing id ∧ (t'.entry id).fired = true ∧ ∃ now deadline,
      t'.shared.firings = t.shared.firings ++ [⟨id, now, deadline⟩])
  linked : (t'.entry id).linked = true → (t.entry id).linked = true
  fireable : t'.Fireable id → (t.entry id).linked = true ∨ t.Fireable id
  firing : t'.Firing id → t.Firing id ∨ (t.Fireable id ∧ (t'.entry id).fired = true)
  waker : (t'.entry id).waker = (t.entry id).waker ∨
    (t.Firing id ∧ ¬ t'.Firing id ∧ (t'.entry id).waker = none)
  took : ∀ waker, (id, waker) ∈ t'.held →
    (id, waker) ∈ t.held ∨ (t.Firing id ∧ (t.entry id).waker = some waker)
  /-- A timer in the wheel leaves it only to be fired. -/
  kept : (t.entry id).linked = true ∨ t.Fireable id →
    (t'.entry id).linked = true ∨ t'.Fireable id ∨ (t'.Firing id ∧ (t'.entry id).fired = true)
  gave : t.Firing id → t'.Firing id ∨
    ∀ waker, (t.entry id).waker = some waker → (id, waker) ∈ t'.held

/-- The timer was armed before. -/
def Known (t : Timers) (id : ℕ) : Prop :=
  (t.entry id).linked = true ∨ t.Fireable id ∨ t.Wakes id ∨ id ∈ t.shared.firings.map Firing.id

theorem Follows.known (h : Follows id t t') (hid : t'.Known id) : t.Known id := by
  obtain hlinked | hfireable | (hfiring | hheld) | hfirings := hid
  · exact .inl (h.linked hlinked)
  · obtain hlinked | hfireable := h.fireable hfireable
    · exact .inl hlinked
    · exact .inr (.inl hfireable)
  · obtain hfiring | ⟨hfireable, -⟩ := h.firing hfiring
    · exact .inr (.inr (.inl (.inl hfiring)))
    · exact .inr (.inl hfireable)
  · obtain ⟨⟨j, waker⟩, hw, rfl⟩ := List.mem_map.mp hheld
    obtain hw | ⟨hfiring, -⟩ := h.took waker hw
    · exact .inr (.inr (.inl (.inr (List.mem_map_of_mem hw))))
    · exact .inr (.inr (.inl (.inl hfiring)))
  · obtain ⟨-, new, hnew, hne⟩ | ⟨hfireable, -⟩ := h.fired
    · rw [hnew, List.map_append, List.mem_append] at hfirings
      obtain hfirings | hid := hfirings
      · exact .inr (.inr (.inr hfirings))
      · obtain ⟨f, hf, rfl⟩ := List.mem_map.mp hid
        exact absurd rfl (hne f hf)
    · exact .inr (.inl hfireable)

/-- A step that is about other timers. -/
theorem Follows.aside (hentry : t'.entry id = t.entry id)
    (hfirings : ∃ new, t'.shared.firings = t.shared.firings ++ new ∧ ∀ f ∈ new, f.id ≠ id)
    (hholder : t'.holder = t.holder) (hheld : ∀ woken ∈ t'.held, woken ∈ t.held) :
    Follows id t t' := by
  have hfiring : t'.Firing id ↔ t.Firing id := by rw [Timers.Firing, hholder, Timers.Firing]
  constructor
  · rw [hentry]
  · exact .inl ⟨by rw [hentry], hfirings⟩
  · rw [hentry]
    exact fun hlinked => hlinked
  · intro hid
    rw [Timers.Fireable, hholder] at hid
    exact .inr hid
  · exact fun hid => .inl (hfiring.mp hid)
  · rw [hentry]
    exact .inl rfl
  · exact fun waker hw => .inl (hheld _ hw)
  · have hfireable : t'.Fireable id ↔ t.Fireable id := by
      rw [Timers.Fireable, hholder, Timers.Fireable]
    rw [hentry]
    exact Or.imp_right fun hid => .inl (hfireable.mpr hid)
  · exact fun hid => .inl (hfiring.mpr hid)

theorem armLocked_firings (s : TimerShared) (alreadyDue : Bool) (id : ℕ) (deadline : ℤ)
    (waker : ℕ) : ∃ new, (s.armLocked alreadyDue id deadline waker).2.firings = s.firings ++ new ∧
      ∀ f ∈ new, f.id = id ∧ (s.armLocked alreadyDue id deadline waker).1 = true := by
  unfold TimerShared.armLocked
  simp only
  split
  · exact ⟨_, rfl, by simp⟩
  · exact ⟨[], (List.append_nil _).symm, by simp⟩

theorem Follows.lock {shared : TimerShared}
    (hholder : t.holder = none) (hlocked : Locked t.shared shared now ids)
    (hfirings : shared.firings = t.shared.firings) :
    Follows id t { t with
      shared, entering := t.entering.eraseIdx i, holder := some ⟨now, none, ids, []⟩ } := by
  have htimer := hlocked.timer id
  simp only [Wheel.timer, Prod.mk.injEq] at htimer
  obtain ⟨hdeadline, hfired, hwaker⟩ := htimer
  have hheld : t.held = t.waking.flatten := by
    rw [Timers.held, hholder]
    rfl
  constructor
  · exact hdeadline
  · exact .inl ⟨hfired, [], hfirings.trans (List.append_nil _).symm, by simp⟩
  · exact fun hid => ((hlocked.linked id).mp hid).1
  · rintro ⟨f, ⟨⟩, hid⟩
    exact .inl (hlocked.taken id hid).1
  · rintro ⟨f, ⟨⟩, hid⟩
    cases hid
  · exact .inl hwaker
  · intro waker hw
    rw [hheld]
    exact .inl hw
  · rintro (hid | ⟨f, hf, -⟩)
    · by_cases hmem : id ∈ ids
      · exact .inr (.inl ⟨_, rfl, hmem⟩)
      · exact .inl ((hlocked.linked id).mpr ⟨hid, hmem⟩)
    · cases hholder.symm.trans hf
  · rintro ⟨f, hf, -⟩
    cases hholder.symm.trans hf

theorem firing_iff
    (hholder : t.holder = some ⟨now, current, ids, wakers⟩) : t.Firing id ↔ current = some id := by
  constructor
  · rintro ⟨f, hf, hid⟩
    cases hholder.symm.trans hf
    exact hid
  · exact fun hid => ⟨_, hholder, hid⟩

theorem fireable_iff
    (hholder : t.holder = some ⟨now, current, ids, wakers⟩) : t.Fireable id ↔ id ∈ ids := by
  constructor
  · rintro ⟨f, hf, hid⟩
    cases hholder.symm.trans hf
    exact hid
  · exact fun hid => ⟨_, hholder, hid⟩

theorem held_eq
    (hholder : t.holder = some ⟨now, current, ids, wakers⟩) :
    t.held = wakers ++ t.waking.flatten := by
  rw [Timers.held, hholder]
  rfl

theorem held_take
    (hholder : t.holder = some ⟨now, some j, ids, wakers⟩)
    (hholder' : t'.holder = some ⟨now, none, ids,
      wakers ++ ((t.entry j).waker.map fun waker => (j, waker)).toList⟩)
    (hwaking : t'.waking = t.waking) :
    t'.held.Perm (((t.entry j).waker.map fun waker => (j, waker)).toList ++ t.held) := by
  rw [held_eq hholder', held_eq hholder, hwaking, List.append_assoc]
  exact List.perm_append_comm_assoc ..

theorem held_unlock
    (hholder : t.holder = some ⟨now, none, [], wakers⟩) (hholder' : t'.holder = none)
    (hwaking : t'.waking = t.waking ++ [wakers]) : t'.held.Perm t.held := by
  rw [held_eq hholder, held, hholder', hwaking, List.flatten_append, List.flatten_singleton,
    Option.elim_none, List.nil_append]
  exact List.perm_append_comm

/-- The waker of a timer is taken. -/
theorem Follows.take
    (hholder : t.holder = some ⟨now, some j, ids, wakers⟩)
    (hentries : t'.shared.wheel.entries =
      Function.update t.shared.wheel.entries j { t.entry j with waker := none })
    (hfirings : t'.shared.firings = t.shared.firings)
    (hholder' : t'.holder = some ⟨now, none, ids,
      wakers ++ ((t.entry j).waker.map fun waker => (j, waker)).toList⟩)
    (hwaking : t'.waking = t.waking) : Follows id t t' := by
  have hentry := entry_of_update hentries id
  have hheld := held_take hholder hholder' hwaking
  constructor
  · rw [hentry]
    split <;> simp_all
  · refine .inl ⟨?_, [], by rw [hfirings, List.append_nil], by simp⟩
    rw [hentry]
    split <;> simp_all
  · rw [linked_of_update hentries rfl]
    exact fun hlinked => hlinked
  · rw [fireable_iff hholder', fireable_iff hholder]
    exact .inr
  · rw [firing_iff hholder']
    exact nofun
  · rw [hentry, firing_iff hholder, firing_iff hholder']
    split
    case isTrue hid => exact .inr ⟨by rw [hid], nofun, rfl⟩
    case isFalse => exact .inl rfl
  · intro waker hw
    rw [firing_iff hholder]
    obtain hw | hw := List.mem_append.mp (hheld.mem_iff.mp hw)
    · obtain ⟨waker', hwaker, heq⟩ := Option.map_eq_some_iff.mp (Option.mem_toList.mp hw)
      cases heq
      exact .inr ⟨rfl, hwaker⟩
    · exact .inl hw
  · rw [linked_of_update hentries rfl, fireable_iff hholder', fireable_iff hholder]
    exact Or.imp_right .inl
  · rw [firing_iff hholder]
    rintro ⟨⟩
    refine .inr fun waker hwaker => hheld.mem_iff.mpr (List.mem_append_left _ ?_)
    rw [hwaker]
    exact List.mem_singleton_self _

/-- The flag of a timer is set. -/
theorem Follows.store {deadline : ℕ}
    (hholder : t.holder = some ⟨now, none, j :: ids, wakers⟩)
    (hentries : t'.shared.wheel.entries =
      Function.update t.shared.wheel.entries j { t.entry j with fired := true })
    (hfirings : t'.shared.firings = t.shared.firings ++ [⟨j, now, deadline⟩])
    (hholder' : t'.holder = some ⟨now, some j, ids, wakers⟩)
    (hwaking : t'.waking = t.waking) : Follows id t t' := by
  have hentry := entry_of_update hentries id
  have hheld : t'.held = t.held := by rw [held_eq hholder', held_eq hholder, hwaking]
  have hsame : id ≠ j → t'.entry id = t.entry id := fun hid => by rw [hentry, if_neg hid]
  constructor
  · rw [hentry]
    split <;> simp_all
  · by_cases hid : id = j
    · subst hid
      refine .inr ⟨(fireable_iff hholder).mpr List.mem_cons_self, (firing_iff hholder').mpr rfl,
        ?_, now, deadline, hfirings⟩
      rw [hentry, if_pos rfl]
    · refine .inl ⟨by rw [hsame hid], _, hfirings, ?_⟩
      simpa using Ne.symm hid
  · rw [linked_of_update hentries rfl]
    exact fun hlinked => hlinked
  · rw [fireable_iff hholder', fireable_iff hholder]
    exact fun hid => .inr (List.mem_cons_of_mem _ hid)
  · rw [firing_iff hholder', fireable_iff hholder]
    rintro ⟨⟩
    rw [hentry, if_pos rfl]
    exact .inr ⟨List.mem_cons_self, rfl⟩
  · left
    rw [hentry]
    split <;> simp_all
  · intro waker hw
    rw [hheld] at hw
    exact .inl hw
  · rw [linked_of_update hentries rfl, fireable_iff hholder, List.mem_cons]
    rintro (hlinked | rfl | hid)
    · exact .inl hlinked
    · rw [firing_iff hholder', hentry, if_pos rfl]
      exact .inr (.inr ⟨rfl, rfl⟩)
    · exact .inr (.inl ((fireable_iff hholder').mpr hid))
  · rw [firing_iff hholder]
    exact nofun

/-- A call gives the mutex back. -/
theorem Follows.unlock
    (hholder : t.holder = some ⟨now, none, [], wakers⟩) (hshared : t'.shared = t.shared)
    (hholder' : t'.holder = none) (hwaking : t'.waking = t.waking ++ [wakers]) :
    Follows id t t' := by
  have hentry : t'.entry id = t.entry id := by rw [entry, hshared, entry]
  have hheld := held_unlock hholder hholder' hwaking
  constructor
  · rw [hentry]
  · refine .inl ⟨by rw [hentry], [], ?_, by simp⟩
    rw [hshared, List.append_nil]
  · rw [hentry]
    exact fun hlinked => hlinked
  · rintro ⟨f, hf, -⟩
    cases hholder'.symm.trans hf
  · rintro ⟨f, hf, -⟩
    cases hholder'.symm.trans hf
  · rw [hentry]
    exact .inl rfl
  · exact fun waker hw => .inl (hheld.mem_iff.mp hw)
  · rw [hentry, fireable_iff hholder]
    rintro (hlinked | hid)
    · exact .inl hlinked
    · cases hid
  · rw [firing_iff hholder]
    exact nofun

theorem Sound.follows (h : t.Sound) (hs : t.step l = some t')
    (hid : l.timer ≠ some id) : Follows id t t' := by
  cases h.step_takes hs with
  | clock _ hwheel hfirings =>
    refine .aside ?_ ⟨[], by rw [hfirings, List.append_nil], by simp⟩ rfl fun _ hw => hw
    rw [entry, hwheel]
    rfl
  | read => exact .aside rfl ⟨[], (List.append_nil _).symm, by simp⟩ rfl fun _ hw => hw
  | lock hholder hi hlocked hfirings => exact .lock hholder hlocked hfirings
  | take hholder => exact .take hholder rfl rfl rfl rfl
  | store hholder => exact .store hholder rfl rfl rfl rfl
  | unlock hholder => exact .unlock hholder rfl rfl rfl
  | @arm alreadyDue j deadline waker hholder =>
    have hne : id ≠ j := fun heq => hid (congrArg some heq.symm)
    obtain ⟨new, hfirings, hnew⟩ := armLocked_firings t.shared alreadyDue j deadline waker
    refine .aside ?_ ⟨new, hfirings, fun f hf => ?_⟩ rfl fun _ hw => hw
    · exact (h.shared.armLocked alreadyDue j deadline waker).alters.entries id hne
    · rw [(hnew f hf).1]
      exact hne.symm
  | @cancel j hholder =>
    have hne : id ≠ j := fun heq => hid (congrArg some heq.symm)
    refine .aside ?_ ⟨[], (List.append_nil _).symm, by simp⟩ rfl fun _ hw => hw
    exact (TimerShared.cancel_alters t.shared j).entries id hne

theorem Sound.step_firings (h : t.Sound) (hs : t.step l = some t') :
    ∃ new, t'.shared.firings = t.shared.firings ++ new := by
  cases h.step_takes hs with
  | clock _ _ hfirings | lock _ _ _ hfirings => exact ⟨[], by rw [hfirings, List.append_nil]⟩
  | store => exact ⟨_, rfl⟩
  | arm =>
    obtain ⟨new, hnew, -⟩ := armLocked_firings t.shared _ _ _ _
    exact ⟨new, hnew⟩
  | read | take | unlock | cancel => exact ⟨[], (List.append_nil _).symm⟩

/-- What a call has taken it keeps until it wakes. -/
theorem Sound.step_held (h : t.Sound) (hs : t.step l = some t')
    (hmem : woken ∈ t.held) : woken ∈ t'.held := by
  cases h.step_takes hs with
  | clock | read | arm | cancel => exact hmem
  | lock hholder =>
    rw [Timers.held, hholder] at hmem
    exact hmem
  | @take now id ids wakers hholder =>
    refine (held_take hholder ?_ ?_).mem_iff.mpr (List.mem_append_right _ hmem) <;> rfl
  | store hholder =>
    rw [held_eq hholder] at hmem
    exact hmem
  | unlock hholder => exact (held_unlock hholder rfl rfl).mem_iff.mpr hmem

/-- No mutex is taken while a call is in the section of `advance_to_now`. -/
theorem Sound.step_firing (h : t.Sound) (hs : t.step l = some t')
    (hid : t.Firing id) : t'.Firing id ∨
      ∀ waker, (t.entry id).waker = some waker → (id, waker) ∈ t'.held := by
  cases h.step_takes hs with
  | clock => exact .inl hid
  | arm hholder | cancel hholder =>
    obtain ⟨f, hf, -⟩ := hid
    cases hholder.symm.trans hf
  | _ => exact (h.follows hs nofun).gave hid

/-- What is to be woken stays so. -/
theorem Sound.wakes (h : t.Sound) (hs : t.step l = some t')
    (hwaker : t.Firing id → (t.entry id).waker.isSome = true) (hid : t.Wakes id) : t'.Wakes id := by
  obtain hfiring | hid := hid
  · obtain hfiring' | hheld := h.step_firing hs hfiring
    · exact .inl hfiring'
    · obtain ⟨waker, hwaker⟩ := Option.isSome_iff_exists.mp (hwaker hfiring)
      exact .inr (List.mem_map_of_mem (hheld waker hwaker))
  · obtain ⟨woken, hmem, rfl⟩ := List.mem_map.mp hid
    exact .inr (List.mem_map_of_mem (h.step_held hs hmem))

theorem perm_flatten_set {ws : List (ℕ × ℕ)} {w : ℕ × ℕ} {l : List (List (ℕ × ℕ))}
    (hi : l[i]? = some (w :: ws)) : l.flatten.Perm (w :: (l.set i ws).flatten) := by
  induction l generalizing i with
  | nil => cases hi
  | cons a l ih =>
    cases i with
    | zero =>
      cases hi
      exact .refl _
    | succ i =>
      rw [List.set_cons_succ, List.flatten_cons, List.flatten_cons]
      exact ((ih hi).append_left a).trans List.perm_middle

/-- A call wakes: it no longer has the waker. -/
theorem wake_eq_some (hs : t.wake i = some (woken, t')) :
    t'.shared = t.shared ∧ t'.entering = t.entering ∧ t'.holder = t.holder ∧
      t.held.Perm (woken :: t'.held) := by
  obtain ⟨wakers, hi, hs⟩ := Option.bind_eq_some_iff.mp hs
  cases wakers with
  | nil => cases hs
  | cons first wakers =>
    cases hs
    refine ⟨rfl, rfl, rfl, ?_⟩
    exact ((perm_flatten_set hi).append_left _).trans List.perm_middle

theorem Follows.wake (hs : t.wake i = some (woken, t')) :
    Follows id t t' := by
  obtain ⟨hshared, -, hholder, hheld⟩ := wake_eq_some hs
  refine .aside ?_ ⟨[], by rw [hshared, List.append_nil], by simp⟩ hholder fun x hx => ?_
  · rw [entry, hshared]
    rfl
  · exact hheld.mem_iff.mpr (List.mem_cons_of_mem _ hx)

/-- The waker was the timer's, or the timer stays to be woken. -/
theorem Wakes.wake (hid : t.Wakes id)
    (hs : t.wake i = some (woken, t')) : woken.1 = id ∨ t'.Wakes id := by
  obtain ⟨-, -, hholder, hheld⟩ := wake_eq_some hs
  obtain hfiring | hid := hid
  · rw [Timers.Firing, ← hholder] at hfiring
    exact .inr (.inl hfiring)
  · rw [(hheld.map Prod.fst).mem_iff, List.map_cons, List.mem_cons] at hid
    obtain heq | hid := hid
    · exact .inl heq.symm
    · exact .inr (.inr hid)

theorem Sound.wake (h : t.Sound) (hs : t.wake i = some (woken, t')) :
    t'.Sound := by
  obtain ⟨hshared, hentering, hholder, -⟩ := wake_eq_some hs
  refine ⟨hshared ▸ h.shared, hholder ▸ h.nodup, fun id hid => ?_, fun id hid => ?_,
    hentering ▸ h.entering⟩
  · rw [Timers.Fireable, hholder] at hid
    rw [entry, hshared]
    exact h.fireable id hid
  · rw [Timers.Firing, hholder] at hid
    rw [entry, hshared]
    exact h.firing id hid

end Timers

end Eddy.TimerWheel
