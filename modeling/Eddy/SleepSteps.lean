import Eddy.Sleep

/-!
# The steps of a sleep that is reset

What every step keeps: between two calls the timer has the deadline of the sleep wherever it is, and
the waker of a pending poll is in its entry, or with the call of `advance_to_now` that fires it, or
it was woken.
-/

namespace Eddy.Sleeps
open Interleaving TimerWheel FairRuns

section ResetEntry

variable {t : Timers}

theorem resetEntry_entry (t : Timers) (id j : ℕ) :
    (resetEntry t id).entry j = if j = id then { t.entry id with fired := false } else t.entry j :=
  Timers.entry_of_update (e := { t.entry id with fired := false }) rfl j

@[simp] theorem resetEntry_fired (t : Timers) (id : ℕ) :
    ((resetEntry t id).entry id).fired = false := by
  rw [resetEntry_entry, if_pos rfl]

@[simp] theorem resetEntry_waker (t : Timers) (id j : ℕ) :
    ((resetEntry t id).entry j).waker = (t.entry j).waker := by
  rw [resetEntry_entry]
  split
  case isTrue hj => rw [hj]
  case isFalse => rfl

@[simp] theorem resetEntry_deadline (t : Timers) (id j : ℕ) :
    ((resetEntry t id).entry j).deadline = (t.entry j).deadline := by
  rw [resetEntry_entry]
  split
  case isTrue hj => rw [hj]
  case isFalse => rfl

@[simp] theorem resetEntry_linked (t : Timers) (id j : ℕ) :
    ((resetEntry t id).entry j).linked = (t.entry j).linked :=
  Timers.linked_of_update (e := { t.entry id with fired := false }) rfl rfl j

theorem sound_resetEntry (h : t.Sound) (id : ℕ) : (resetEntry t id).Sound where
  shared := by
    refine ⟨⟨h.shared.clear.valid.setEntries (resetEntry_linked t id) fun j _ => ?_,
      h.shared.clear.pending⟩, fun j hj => ?_, h.shared.pausedElapsed_lt⟩
    · by_cases hj : j = id
      · subst hj
        simp [Timers.entry]
      · simp [hj]
    · change ((resetEntry t id).entry j).fired = false
      rw [resetEntry_entry]
      split
      case isTrue => rfl
      case isFalse => exact h.shared.unfired j ((resetEntry_linked t id j).symm.trans hj)
  nodup := h.nodup
  fireable j hj := (resetEntry_linked t id j).trans (h.fireable j hj)
  firing j hj := (resetEntry_linked t id j).trans (h.firing j hj)
  entering := h.entering

theorem timely_resetEntry (h : t.Timely) (id : ℕ) : (resetEntry t id).Timely :=
  h.congr rfl le_rfl rfl rfl fun j hj => ⟨hj, resetEntry_deadline t id j⟩

end ResetEntry

namespace State

variable {s t : State}

inductive Takes (s : State) : Label → State → Prop
  | reset {deadline} (hplace : s.place = .idle) : Takes s (.reset deadline) (s.reset deadline)
  | ready {waker} (hplace : s.place = .idle) (hfired : s.entry.fired = true) :
      Takes s (.poll waker) s.ready
  | poll {waker} (hplace : s.place = .idle) (hfired : s.entry.fired = false) :
      Takes s (.poll waker)
        { s with sleep := { s.sleep with driver := true }, place := .reads .poll waker }
  | clone (hplace : s.place = .clones) : Takes s .go { s with place := .cancels s.entry.waker }
  | cancel {waker timers} (hplace : s.place = .cancels waker)
      (htimers : s.timers.cancel s.sleep.entry = some timers) :
      Takes s .go { s with timers, place := waker.elim .idle (.reads .reset) }
  | read {caller waker} (hplace : s.place = .reads caller waker) :
      Takes s .go { s with
        place := .arms caller waker (decide (s.sleep.deadline ≤ s.timers.shared.nowInstant)) }
  | arm {caller waker alreadyDue due timers} (hplace : s.place = .arms caller waker alreadyDue)
      (htimers : s.timers.arm alreadyDue s.sleep.entry s.sleep.deadline waker =
        some (due, timers)) :
      Takes s .go ({ s with timers }.armed caller waker due)
  | wakeTask {waker} (hplace : s.place = .wakes waker) :
      Takes s .go { s with place := .idle, woken := s.woken ++ [(waker, s.now)] }
  | driver {l timers} (hpermits : s.permits l = true) (htimers : s.timers.step l = some timers) :
      Takes s (.driver l) { s with timers }
  | wake {i id waker timers} (htimers : s.timers.wake i = some ((id, waker), timers)) :
      Takes s (.wake i) { s with timers, woken := s.woken ++ [(waker, s.now)] }

theorem takes_go (h : s.go = some t) : Takes s .go t := by
  unfold go at h
  split at h
  case h_1 => cases h
  case h_2 hplace =>
    cases h
    exact .clone hplace
  case h_3 hplace =>
    obtain ⟨timers, htimers, rfl⟩ := Option.map_eq_some_iff.mp h
    exact .cancel hplace htimers
  case h_4 hplace =>
    cases h
    exact .read hplace
  case h_5 hplace =>
    obtain ⟨⟨due, timers⟩, htimers, rfl⟩ := Option.map_eq_some_iff.mp h
    exact .arm hplace htimers
  case h_6 hplace =>
    cases h
    exact .wakeTask hplace

theorem step_takes {l : Label} (h : s.step l = some t) : Takes s l t := by
  cases l with
  | reset deadline =>
    obtain ⟨hplace, h⟩ := Option.ite_none_right_eq_some.mp h
    cases h
    exact .reset hplace
  | poll waker =>
    obtain ⟨hplace, h⟩ := Option.ite_none_right_eq_some.mp h
    cases h
    unfold State.poll
    split
    case isTrue hfired => exact .ready hplace hfired
    case isFalse hfired => exact .poll hplace (Bool.eq_false_iff.mpr hfired)
  | go => exact takes_go h
  | driver l =>
    obtain ⟨hpermits, h⟩ := Option.ite_none_right_eq_some.mp h
    obtain ⟨timers, htimers, rfl⟩ := Option.map_eq_some_iff.mp h
    exact .driver hpermits htimers
  | wake i =>
    obtain ⟨⟨⟨id, waker⟩, timers⟩, htimers, rfl⟩ := Option.map_eq_some_iff.mp h
    exact .wake htimers

/-- The timer is in no hands. -/
structure Dormant (s : State) : Prop where
  linked : s.entry.linked = false
  fireable : ¬ s.timers.Fireable s.sleep.entry
  fired : s.entry.fired = false

structure Current (s : State) : Prop where
  deadline : s.entry.linked = true ∨ s.timers.Fireable s.sleep.entry ∨ s.entry.fired = true →
    s.entry.deadline = s.deadlineMs
  reached : s.entry.fired = true → s.entry.deadline ≤ s.now

/-- The waker is on its way, or was woken. -/
def Waits (s : State) (waker : ℕ) : Prop :=
  ((s.entry.linked = true ∨ s.timers.Fireable s.sleep.entry) ∧ s.entry.waker = some waker) ∨
    (s.entry.fired = true ∧
      ((s.timers.Firing s.sleep.entry ∧ s.entry.waker = some waker) ∨
        (s.sleep.entry, waker) ∈ s.timers.held ∨ s.Woken waker))

theorem Dormant.current (h : s.Dormant) : s.Current where
  deadline := by
    rintro (hlinked | hfireable | hfired)
    · cases h.linked.symm.trans hlinked
    · exact absurd hfireable h.fireable
    · cases h.fired.symm.trans hfired
  reached hfired := by cases h.fired.symm.trans hfired

theorem Dormant.congr (h : s.Dormant) (htimers : t.timers = s.timers)
    (hentry : t.sleep.entry = s.sleep.entry) : t.Dormant := by
  constructor
  · rw [State.entry, htimers, hentry]
    exact h.linked
  · rw [htimers, hentry]
    exact h.fireable
  · rw [State.entry, htimers, hentry]
    exact h.fired

theorem Current.congr (h : s.Current) (htimers : t.timers = s.timers)
    (hentry : t.sleep.entry = s.sleep.entry) (hdeadline : t.sleep.deadline = s.sleep.deadline) :
    t.Current := by
  constructor
  · rw [State.entry, htimers, hentry, deadlineMs, hdeadline]
    exact h.deadline
  · rw [State.entry, State.now, htimers, hentry]
    exact h.reached

/-- What the call under way relies on. -/
def Fits (s : State) : Place → Prop
  | .idle | .reads .poll _ => s.Current ∧ ∀ waker ∈ s.registered, s.Waits waker
  | .arms .poll _ alreadyDue => (s.Current ∧ ∀ waker ∈ s.registered, s.Waits waker) ∧
    (alreadyDue = true → s.deadlineMs ≤ s.now)
  | .clones => ∀ waker ∈ s.registered,
    (s.timers.Firing s.sleep.entry → s.entry.fired = true) ∧
      (s.entry.waker = some waker ∨ (s.entry.waker = none ∧ s.entry.fired = true))
  | .cancels waker => (waker = none → s.Dormant) ∧ ∀ waker' ∈ s.registered, waker = some waker'
  | .reads .reset waker => ∀ waker' ∈ s.registered, waker' = waker
  | .arms .reset waker alreadyDue => (∀ waker' ∈ s.registered, waker' = waker) ∧
    (alreadyDue = true → s.deadlineMs ≤ s.now)
  | .wakes waker => s.Current ∧ s.entry.fired = true ∧ ∀ waker' ∈ s.registered, waker' = waker

structure Steady (s : State) : Prop where
  timers : s.timers.Sound
  timely : s.timers.Timely
  waker : s.entry.linked = true ∨ s.timers.Fireable s.sleep.entry ∨
    s.timers.Firing s.sleep.entry → s.entry.waker ≠ none
  unarmed : s.sleep.driver = false → s.Dormant ∧ s.registered = none
  mark_le : s.mark ≤ s.woken.length
  early : s.NeverEarly

structure Kept (s : State) : Prop extends Steady s where
  resolved : s.place ≠ .idle → s.sleep.driver = true
  fits : s.Fits s.place

/-- The calls of `advance_to_now` go on, and one of them may wake. -/
def advanced (s : State) (timers : Timers) (new : List (ℕ × ℕ)) : State :=
  { s with timers, woken := s.woken ++ new }

section Follows

variable {timers : Timers} {new : List (ℕ × ℕ)}

theorem Dormant.follows (h : s.Dormant)
    (hfollows : Timers.Follows s.sleep.entry s.timers timers) : (s.advanced timers new).Dormant where
  linked := by
    rw [← Bool.not_eq_true]
    intro hlinked
    cases h.linked.symm.trans (hfollows.linked hlinked)
  fireable hfireable := by
    obtain hlinked | hfireable := hfollows.fireable hfireable
    · cases h.linked.symm.trans hlinked
    · exact h.fireable hfireable
  fired := by
    obtain ⟨hsame, -⟩ | ⟨hfireable, -⟩ := hfollows.fired
    · exact hsame.trans h.fired
    · exact absurd hfireable h.fireable

theorem Current.follows (h : s.Current) (htimely : s.timers.Timely)
    (hfollows : Timers.Follows s.sleep.entry s.timers timers)
    (hnow : s.now ≤ timers.shared.nowMs) : (s.advanced timers new).Current where
  deadline hin := by
    refine hfollows.deadline.trans (h.deadline ?_)
    obtain hlinked | hfireable | hfired := hin
    · exact .inl (hfollows.linked hlinked)
    · exact (hfollows.fireable hfireable).imp_right .inl
    · obtain ⟨hsame, -⟩ | ⟨hfireable, -⟩ := hfollows.fired
      · exact .inr (.inr (hsame.symm.trans hfired))
      · exact .inr (.inl hfireable)
  reached hfired := by
    refine hfollows.deadline.trans_le (le_trans ?_ hnow)
    obtain ⟨hsame, -⟩ | ⟨hfireable, -⟩ := hfollows.fired
    · exact h.reached (hsame.symm.trans hfired)
    · exact htimely.due _ (.inl hfireable)

theorem Woken.append {waker : ℕ} (h : s.Woken waker) (hmark : s.mark ≤ s.woken.length) :
    (s.advanced timers new).Woken waker := by
  obtain ⟨now, hmem, hle⟩ := h
  refine ⟨now, ?_, hle⟩
  rw [advanced, List.drop_append_of_le_length hmark]
  exact List.mem_append_left _ hmem

theorem fired_of_follows (hfollows : Timers.Follows s.sleep.entry s.timers timers)
    (hfired : s.entry.fired = true) : (s.advanced timers new).entry.fired = true := by
  obtain ⟨hsame, -⟩ | ⟨-, -, hset, -⟩ := hfollows.fired
  · exact hsame.trans hfired
  · exact hset

theorem Waits.follows {waker : ℕ} (h : s.Waits waker) (hk : Kept s) (hcurrent : s.Current)
    (hfollows : Timers.Follows s.sleep.entry s.timers timers)
    (hheld : (s.sleep.entry, waker) ∈ s.timers.held →
      (s.sleep.entry, waker) ∈ timers.held ∨ (waker, s.now) ∈ new) :
    (s.advanced timers new).Waits waker := by
  obtain ⟨hin, hwaker⟩ | ⟨hfired, hrest⟩ := h
  · have hnot : ¬ s.timers.Firing s.sleep.entry := by
      intro hfiring
      obtain hlinked | hfireable := hin
      · cases (hk.timers.firing _ hfiring).symm.trans hlinked
      · exact hk.timers.not_fireable hfiring hfireable
    have hsame := hfollows.waker.resolve_right fun hfiring => hnot hfiring.1
    obtain hlinked | hfireable | ⟨hfiring, hfired⟩ := hfollows.kept hin
    · exact .inl ⟨.inl hlinked, hsame.trans hwaker⟩
    · exact .inl ⟨.inr hfireable, hsame.trans hwaker⟩
    · exact .inr ⟨hfired, .inl ⟨hfiring, hsame.trans hwaker⟩⟩
  · refine .inr ⟨fired_of_follows hfollows hfired, ?_⟩
    obtain ⟨hfiring, hwaker⟩ | hmem | hwoken := hrest
    · obtain hfiring' | hgave := hfollows.gave hfiring
      · have hsame := hfollows.waker.resolve_right fun hgone => hgone.2.1 hfiring'
        exact .inl ⟨hfiring', hsame.trans hwaker⟩
      · exact .inr (.inl (hgave waker hwaker))
    · obtain hmem | hmem := hheld hmem
      · exact .inr (.inl hmem)
      · refine .inr (.inr ⟨s.now, ?_, ?_⟩)
        · rw [advanced, List.drop_append_of_le_length hk.mark_le]
          exact List.mem_append_right _ hmem
        · exact (hcurrent.deadline (.inr (.inr hfired))).symm.trans_le (hcurrent.reached hfired)
    · exact .inr (.inr (hwoken.append hk.mark_le))

theorem Kept.waker_follows (h : Kept s)
    (hfollows : Timers.Follows s.sleep.entry s.timers timers)
    (hin : (timers.entry s.sleep.entry).linked = true ∨ timers.Fireable s.sleep.entry ∨
      timers.Firing s.sleep.entry) : (timers.entry s.sleep.entry).waker ≠ none := by
  obtain hsame | ⟨hfiring, hnot, -⟩ := hfollows.waker
  · rw [hsame]
    apply h.waker
    obtain hlinked | hfireable | hfiring := hin
    · exact .inl (hfollows.linked hlinked)
    · exact (hfollows.fireable hfireable).imp_right .inl
    · obtain hfiring | ⟨hfireable, -⟩ := hfollows.firing hfiring
      · exact .inr (.inr hfiring)
      · exact .inr (.inl hfireable)
  · have hunlinked := h.timers.firing _ hfiring
    obtain hlinked | hfireable | hfiring' := hin
    · cases hunlinked.symm.trans (hfollows.linked hlinked)
    · obtain hlinked | hfireable := hfollows.fireable hfireable
      · cases hunlinked.symm.trans hlinked
      · exact absurd hfireable (h.timers.not_fireable hfiring)
    · exact absurd hfiring' hnot

theorem Fits.follows {place : Place} (h : s.Fits place) (hk : Kept s)
    (hfollows : Timers.Follows s.sleep.entry s.timers timers)
    (hnow : s.now ≤ timers.shared.nowMs)
    (hheld : ∀ waker, (s.sleep.entry, waker) ∈ s.timers.held →
      (s.sleep.entry, waker) ∈ timers.held ∨ (waker, s.now) ∈ new) :
    (s.advanced timers new).Fits place := by
  have hrest : s.Current → (∀ waker ∈ s.registered, s.Waits waker) →
      (s.advanced timers new).Current ∧
        ∀ waker ∈ s.registered, (s.advanced timers new).Waits waker := fun hcurrent hwaits =>
    ⟨hcurrent.follows hk.timely hfollows hnow, fun waker hwaker =>
      (hwaits waker hwaker).follows hk hcurrent hfollows (hheld waker)⟩
  cases place with
  | idle => exact hrest h.1 h.2
  | clones =>
    intro waker hwaker
    obtain ⟨hfiring, hrest⟩ := h waker hwaker
    constructor
    · intro hfiring'
      obtain hfiring' | ⟨-, hset⟩ := hfollows.firing hfiring'
      · exact fired_of_follows hfollows (hfiring hfiring')
      · exact hset
    · obtain hsame | ⟨hfiring', -, hnone⟩ := hfollows.waker
      · refine hrest.imp hsame.trans fun ⟨hnone, hfired⟩ => ⟨hsame.trans hnone, ?_⟩
        exact fired_of_follows hfollows hfired
      · exact .inr ⟨hnone, fired_of_follows hfollows (hfiring hfiring')⟩
  | cancels waker => exact ⟨fun hnone => (h.1 hnone).follows hfollows, h.2⟩
  | reads caller waker =>
    cases caller with
    | reset => exact h
    | poll => exact hrest h.1 h.2
  | arms caller waker alreadyDue =>
    cases caller with
    | reset => exact ⟨h.1, fun hdue => (h.2 hdue).trans hnow⟩
    | poll => exact ⟨hrest h.1.1 h.1.2, fun hdue => (h.2 hdue).trans hnow⟩
  | wakes waker =>
    exact ⟨h.1.follows hk.timely hfollows hnow, fired_of_follows hfollows h.2.1, h.2.2⟩

theorem Kept.follows (h : Kept s) (hsound : timers.Sound) (htimely : timers.Timely)
    (hfollows : Timers.Follows s.sleep.entry s.timers timers)
    (hnow : s.now ≤ timers.shared.nowMs)
    (hheld : ∀ waker, (s.sleep.entry, waker) ∈ s.timers.held →
      (s.sleep.entry, waker) ∈ timers.held ∨ (waker, s.now) ∈ new) :
    Kept (s.advanced timers new) where
  timers := hsound
  timely := htimely
  waker := h.waker_follows hfollows
  unarmed hdriver := ⟨(h.unarmed hdriver).1.follows hfollows, (h.unarmed hdriver).2⟩
  mark_le := by
    rw [advanced, List.length_append]
    exact h.mark_le.trans (Nat.le_add_right _ _)
  early := h.early
  resolved := h.resolved
  fits := h.fits.follows h hfollows hnow hheld

end Follows

namespace Steady

/-- A step of the call that leaves the timers alone. -/
theorem goes (h : Steady s) (htimers : t.timers = s.timers)
    (hentry : t.sleep.entry = s.sleep.entry)
    (hunarmed : t.sleep.driver = false → s.sleep.driver = false ∧ t.registered = none)
    (hmark : t.mark ≤ t.woken.length) (hearly : t.NeverEarly)
    (hresolved : t.place ≠ .idle → t.sleep.driver = true) (hfits : t.Fits t.place) : Kept t where
  timers := htimers ▸ h.timers
  timely := htimers ▸ h.timely
  waker := by
    rw [State.entry, htimers, hentry]
    exact h.waker
  unarmed hdriver := by
    obtain ⟨hbefore, hnone⟩ := hunarmed hdriver
    exact ⟨(h.unarmed hbefore).1.congr htimers hentry, hnone⟩
  mark_le := hmark
  early := hearly
  resolved := hresolved
  fits := hfits

/-- `poll` returns `Ready`. -/
theorem ready (h : Steady s) (hcurrent : s.Current) (hfired : s.entry.fired = true) :
    Kept s.ready := by
  refine h.goes rfl rfl (fun hdriver => ⟨hdriver, rfl⟩) h.mark_le ?_ (fun hplace => absurd rfl hplace)
    ⟨hcurrent.congr rfl rfl rfl, nofun⟩
  intro poll hpoll
  obtain hpoll | hpoll := List.mem_append.mp hpoll
  · exact h.early poll hpoll
  · rw [List.mem_singleton.mp hpoll]
    exact (hcurrent.deadline (.inr (.inr hfired))).symm.trans_le (hcurrent.reached hfired)

end Steady

namespace Kept

theorem new (entry : ℕ) (deadline : ℤ) : Kept (.new entry deadline) := by
  have hdormant : (State.new entry deadline).Dormant := by
    refine ⟨rfl, ?_, rfl⟩
    rintro ⟨f, hf, -⟩
    cases hf
  refine ⟨⟨.new, .new, ?_, fun _ => ⟨hdormant, rfl⟩, le_rfl, nofun⟩, fun hplace => absurd rfl hplace,
    hdormant.current, nofun⟩
  rintro (hlinked | ⟨f, hf, -⟩ | ⟨f, hf, -⟩)
  · cases hlinked
  · cases hf
  · cases hf

theorem driver (h : Kept s) {l : Timers.Label} {timers : Timers} (hpermits : s.permits l = true)
    (htimers : s.timers.step l = some timers) : Kept { s with timers } := by
  obtain ⟨hreal, hid⟩ := Bool.and_eq_true_iff.mp hpermits
  have hkept : Kept (s.advanced timers []) := by
    apply h.follows (h.timers.step htimers) (h.timely.step h.timers hreal htimers)
    · exact h.timers.follows htimers (of_decide_eq_true hid)
    · exact h.timers.step_nowMs hreal htimers
    · exact fun waker hmem => .inl (h.timers.step_held htimers hmem)
  rwa [advanced, List.append_nil] at hkept

theorem wake (h : Kept s) {i id waker : ℕ} {timers : Timers}
    (htimers : s.timers.wake i = some ((id, waker), timers)) :
    Kept { s with timers, woken := s.woken ++ [(waker, s.now)] } := by
  obtain ⟨hshared, hentering, hholder, hheld⟩ := Timers.wake_eq_some htimers
  have hentry : ∀ j, timers.entry j = s.timers.entry j := by
    intro j
    rw [Timers.entry, hshared]
    rfl
  have htimely : timers.Timely := by
    refine h.timely.congr (congrArg _ hshared) (hshared ▸ le_rfl) (by rw [hshared]) hentering ?_
    intro j hj
    rw [Timers.Fireable, Timers.Firing, hholder] at hj
    exact ⟨hj, by rw [hentry]⟩
  refine h.follows (h.timers.wake htimers) htimely (.wake htimers) ?_ fun waker' hmem => ?_
  · rw [hshared]
    exact le_rfl
  · obtain heq | hmem := List.mem_cons.mp (hheld.mem_iff.mp hmem)
    · cases heq
      exact .inr (List.mem_singleton_self _)
    · exact .inl hmem

/-- `reset` begins. -/
theorem reset (h : Kept s) (hplace : s.place = .idle) (deadline : ℤ) :
    Kept (s.reset deadline) := by
  have hfits := h.fits
  rw [hplace] at hfits
  obtain ⟨hcurrent, hwaits⟩ := hfits
  have hdormant : s.sleep.driver = false → (s.reset deadline).Dormant := fun hdriver =>
    ⟨(resetEntry_linked ..).trans (h.unarmed hdriver).1.linked,
      (h.unarmed hdriver).1.fireable, resetEntry_fired ..⟩
  have hregistered : ∀ waker ∈ (s.reset deadline).registered,
      s.entry.fired = false ∧ waker ∈ s.registered := by
    intro waker hwaker
    obtain ⟨hfired, hwaker⟩ := Option.ite_none_left_eq_some.mp hwaker
    exact ⟨Bool.eq_false_iff.mpr hfired, hwaker⟩
  refine ⟨⟨sound_resetEntry h.timers _, timely_resetEntry h.timely _, fun hin => ?_, fun hdriver => ?_,
    h.mark_le, h.early⟩, fun hrest => ?_, ?_⟩
  · rw [State.entry, State.reset, resetEntry_waker]
    rw [State.entry, State.reset, resetEntry_linked] at hin
    exact h.waker hin
  · refine ⟨hdormant hdriver, ?_⟩
    rw [State.reset, (h.unarmed hdriver).2, ite_self]
  · change s.sleep.driver = true
    by_contra hdriver
    exact hrest (if_neg hdriver)
  · cases hdriver : s.sleep.driver with
    | false =>
      have hidle : (s.reset deadline).place = .idle := by simp [State.reset, hdriver]
      rw [hidle]
      refine ⟨(hdormant hdriver).current, fun waker hwaker => ?_⟩
      rw [(h.unarmed hdriver).2] at hregistered
      cases (hregistered waker hwaker).2
    | true =>
      have hclones : (s.reset deadline).place = .clones := by simp [State.reset, hdriver]
      rw [hclones]
      intro waker hwaker
      obtain ⟨hfired, hmem⟩ := hregistered waker hwaker
      obtain ⟨hin, hheld⟩ | ⟨hset, -⟩ := hwaits waker hmem
      · refine ⟨fun hfiring => ?_, .inl ((resetEntry_waker ..).trans hheld)⟩
        obtain hlinked | hfireable := hin
        · cases (h.timers.firing _ hfiring).symm.trans hlinked
        · exact absurd hfireable (h.timers.not_fireable hfiring)
      · cases hfired.symm.trans hset

theorem poll (h : Kept s) (hplace : s.place = .idle) (waker : ℕ) : Kept
    { s with sleep := { s.sleep with driver := true }, place := .reads .poll waker } := by
  have hfits := h.fits
  rw [hplace] at hfits
  refine h.toSteady.goes rfl rfl nofun h.mark_le h.early (fun _ => rfl) ?_
  exact ⟨hfits.1.congr rfl rfl rfl, hfits.2⟩

/-- `clone_waker` -/
theorem clone (h : Kept s) (hplace : s.place = .clones)
    (hguard : s.entry.fired = true → s.entry.waker ≠ none) :
    Kept { s with place := .cancels s.entry.waker } := by
  have hfits := h.fits
  rw [hplace] at hfits
  have hdriver := h.resolved (by simp [hplace])
  refine h.toSteady.goes rfl rfl (fun hnone => ?_) h.mark_le h.early (fun _ => hdriver) ⟨?_, ?_⟩
  · cases hdriver.symm.trans hnone
  · intro hnone
    constructor
    · rw [← Bool.not_eq_true]
      exact fun hlinked => h.waker (.inl hlinked) hnone
    · exact fun hfireable => h.waker (.inr (.inl hfireable)) hnone
    · rw [← Bool.not_eq_true]
      exact fun hfired => hguard hfired hnone
  · intro waker hwaker
    obtain hsome | ⟨hnone, hfired⟩ := (hfits waker hwaker).2
    · exact hsome
    · exact absurd hnone (hguard hfired)

theorem cancel (h : Kept s) {waker : Option ℕ} {timers : Timers}
    (hplace : s.place = .cancels waker)
    (htimers : s.timers.cancel s.sleep.entry = some timers) :
    Kept { s with timers, place := waker.elim .idle (.reads .reset) } := by
  have hfits := h.fits
  rw [hplace] at hfits
  have hdriver := h.resolved (by simp [hplace])
  obtain ⟨hholder, rfl⟩ := Timers.cancel_eq_some htimers
  have hlinked := h.timers.shared.cancel_linked s.sleep.entry
  have hfired := s.timers.shared.cancel_fired s.sleep.entry s.sleep.entry
  refine ⟨⟨h.timers.section (h.timers.shared.cancel _) hholder,
    h.timely.of_holder rfl rfl (TimerShared.cancel_alters ..).elapsed rfl hholder, ?_, fun hnone => ?_,
    h.mark_le, h.early⟩, fun _ => hdriver, ?_⟩
  · rintro (hin | ⟨f, hf, -⟩ | ⟨f, hf, -⟩)
    · cases hlinked.symm.trans hin
    · cases hholder.symm.trans hf
    · cases hholder.symm.trans hf
  · cases hdriver.symm.trans hnone
  · cases waker with
    | some waker => exact fun waker' hwaker => (Option.some.inj (hfits.2 waker' hwaker)).symm
    | none =>
      refine ⟨Dormant.current ⟨hlinked, ?_, hfired.trans (hfits.1 rfl).fired⟩, fun waker' hwaker => ?_⟩
      · rintro ⟨f, hf, -⟩
        cases hholder.symm.trans hf
      · cases hfits.2 waker' hwaker

/-- `arm` reads the clock. -/
theorem read (h : Kept s) {caller : Caller} {waker : ℕ} (hplace : s.place = .reads caller waker) :
    Kept { s with
      place := .arms caller waker (decide (s.sleep.deadline ≤ s.timers.shared.nowInstant)) } := by
  have hfits := h.fits
  rw [hplace] at hfits
  have hdriver := h.resolved (by simp [hplace])
  have hdue : decide (s.sleep.deadline ≤ s.timers.shared.nowInstant) = true →
      s.deadlineMs ≤ s.now := fun hdue => TimerShared.instantToMs_le_now (of_decide_eq_true hdue)
  refine h.toSteady.goes rfl rfl (fun hnone => ?_) h.mark_le h.early (fun _ => hdriver) ?_
  · cases hdriver.symm.trans hnone
  · cases caller with
    | reset => exact ⟨hfits, hdue⟩
    | poll => exact ⟨⟨hfits.1.congr rfl rfl rfl, hfits.2⟩, hdue⟩

theorem due_of_armLocked {shared : TimerShared} {alreadyDue : Bool} {id waker : ℕ} {deadline : ℤ}
    (hdue : (shared.armLocked alreadyDue id deadline waker).1 = true) :
    alreadyDue = true ∨ TimerShared.instantToMs deadline ≤ shared.wheel.elapsed := by
  have helapsed := (TimerShared.Alters.remove shared.wheel id).elapsed
  unfold TimerShared.armLocked at hdue
  simp only at hdue
  split at hdue
  case isTrue hcond => simpa [helapsed] using hcond
  case isFalse => cases hdue

/-- The section of `arm`. -/
theorem arm (h : Kept s) {caller : Caller} {waker : ℕ} {alreadyDue due : Bool} {timers : Timers}
    (hplace : s.place = .arms caller waker alreadyDue)
    (htimers : s.timers.arm alreadyDue s.sleep.entry s.sleep.deadline waker = some (due, timers)) :
    Kept ({ s with timers }.armed caller waker due) := by
  have hfits := h.fits
  rw [hplace] at hfits
  have hdriver := h.resolved (by simp [hplace])
  have halready : alreadyDue = true → s.deadlineMs ≤ s.now := by
    cases caller with
    | reset | poll => exact hfits.2
  obtain ⟨hholder, hdue, rfl⟩ := Timers.arm_eq_some htimers
  have harmed := h.timers.shared.armLocked alreadyDue s.sleep.entry s.sleep.deadline waker
  rw [← hdue] at harmed
  have hreached : due = true → s.deadlineMs ≤ s.now := by
    intro hd
    obtain hd | hle := due_of_armLocked (hdue.symm.trans hd)
    · exact halready hd
    · exact hle.trans h.timely.elapsed
  let s' : State := { s with timers := { s.timers with
    shared := (s.timers.shared.armLocked alreadyDue s.sleep.entry s.sleep.deadline waker).2 } }
  have hcurrent : s'.Current :=
    ⟨fun _ => harmed.deadline, fun hfired =>
      (harmed.deadline.trans_le (hreached (harmed.fired.symm.trans hfired))).trans harmed.now.ge⟩
  have hsteady : Steady s' := by
    refine ⟨h.timers.section harmed.sound hholder, h.timely.of_holder (Timers.armLocked_paused ..)
      harmed.now harmed.alters.elapsed rfl hholder, ?_, fun hnone => ?_, h.mark_le, h.early⟩
    · rintro (hlinked | ⟨f, hf, -⟩ | ⟨f, hf, -⟩)
      · have hwaker := harmed.waker
        have hd : due = false := by simpa using harmed.linked.symm.trans hlinked
        rw [hd] at hwaker
        exact fun hnone => Option.some_ne_none waker (hwaker.symm.trans hnone)
      · cases hholder.symm.trans hf
      · cases hholder.symm.trans hf
    · cases hdriver.symm.trans hnone
  cases due with
  | true =>
    cases caller with
    | poll => exact hsteady.ready hcurrent harmed.fired
    | reset =>
      refine hsteady.goes rfl rfl (fun hnone => ?_) le_rfl h.early (fun _ => hdriver)
        ⟨hcurrent.congr rfl rfl rfl, harmed.fired, hfits.1⟩
      cases hdriver.symm.trans hnone
  | false =>
    cases caller with
    | poll =>
      refine hsteady.goes rfl rfl (fun hnone => ?_) le_rfl h.early (fun hrest => absurd rfl hrest)
        ⟨hcurrent.congr rfl rfl rfl, ?_⟩
      · cases hdriver.symm.trans hnone
      · rintro waker' ⟨⟩
        exact .inl ⟨.inl harmed.linked, harmed.waker⟩
    | reset =>
      refine hsteady.goes rfl rfl (fun hnone => ?_) le_rfl h.early (fun hrest => absurd rfl hrest)
        ⟨hcurrent.congr rfl rfl rfl, fun waker' hwaker => ?_⟩
      · cases hdriver.symm.trans hnone
      · rw [hfits.1 waker' hwaker]
        exact .inl ⟨.inl harmed.linked, harmed.waker⟩

/-- `reset` wakes the task itself. -/
theorem wakeTask (h : Kept s) {waker : ℕ} (hplace : s.place = .wakes waker) :
    Kept { s with place := .idle, woken := s.woken ++ [(waker, s.now)] } := by
  have hfits := h.fits
  rw [hplace] at hfits
  obtain ⟨hcurrent, hfired, hregistered⟩ := hfits
  have hdriver := h.resolved (by simp [hplace])
  refine h.toSteady.goes rfl rfl (fun hnone => ?_) ?_ h.early (fun hrest => absurd rfl hrest)
    ⟨hcurrent.congr rfl rfl rfl, fun waker' hwaker => ?_⟩
  · cases hdriver.symm.trans hnone
  · rw [List.length_append]
    exact h.mark_le.trans (Nat.le_add_right _ _)
  · refine .inr ⟨hfired, .inr (.inr ⟨s.now, ?_, ?_⟩)⟩
    · rw [hregistered waker' hwaker, List.drop_append_of_le_length h.mark_le]
      exact List.mem_append_right _ (List.mem_singleton_self _)
    · exact (hcurrent.deadline (.inr (.inr hfired))).symm.trans_le (hcurrent.reached hfired)

theorem step {l : Label} (h : Kept s) (hguard : s.Heeds l) (hstep : s.step l = some t) :
    Kept t := by
  cases step_takes hstep with
  | reset hplace => exact h.reset hplace _
  | ready hplace hfired =>
    have hfits := h.fits
    rw [hplace] at hfits
    exact h.toSteady.ready hfits.1 hfired
  | poll hplace => exact h.poll hplace _
  | clone hplace => exact h.clone hplace (hguard hplace)
  | cancel hplace htimers => exact h.cancel hplace htimers
  | read hplace => exact h.read hplace
  | arm hplace htimers => exact h.arm hplace htimers
  | wakeTask hplace => exact h.wakeTask hplace
  | driver hpermits htimers => exact h.driver hpermits htimers
  | wake htimers => exact h.wake htimers

end Kept

end State

end Eddy.Sleeps
