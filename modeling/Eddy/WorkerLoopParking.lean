import Eddy.WorkerLoopSteps

/-!
# No task is stranded by parking

Only one worker is in the kernel wait at a time, and a wait on the condvar times out. So only a
single worker could leave a task behind in the injector: between its look at the injector and the
end of an unbounded kernel wait the injector is empty, or a wake is on its way.
-/

namespace Eddy.WorkerLoop
open Interleaving Driver

namespace State
variable {s t : State} {i v : ℕ} {w w' : Worker} {p q : Driver.Worker}

structure Synced (s : State) : Prop where
  tallied : s.driver.Tallied
  length : s.driver.workers.length = s.workers.length
  outside : ∀ (i : ℕ) (w : Worker), s.workers[i]? = some w → w.place.inDriver = false →
    s.driver.workers[i]? = some .running
  dispatch : ∀ (i : ℕ) (w : Worker), s.workers[i]? = some w → w.place.inDriver = true →
    w.place ≠ .parked → s.driver.workers[i]? = some .releases

theorem Synced.new (workers : ℕ) (lifoSlotEnabled : Bool) :
    (State.new workers lifoSlotEnabled).Synced := by
  refine ⟨.new workers, by simp [State.new, DriverShared.new], fun i w hi _ => ?_,
    fun i w hi hdriver => ?_⟩
  · have hlt : i < workers := by
      have := (List.getElem?_eq_some_iff.mp hi).1
      simpa [State.new] using this
    simp [State.new, DriverShared.new, hlt]
  · rw [List.eq_of_mem_replicate (List.mem_of_getElem? hi)] at hdriver
    cases hdriver

theorem Synced.driver_worker (h : s.Synced) (hi : s.workers[i]? = some w) :
    ∃ p, s.driver.workers[i]? = some p := by
  have hlt := (List.getElem?_eq_some_iff.mp hi).1
  rw [← h.length] at hlt
  exact ⟨_, List.getElem?_eq_getElem hlt⟩

theorem Synced.own (h : s.Synced) (htallied : t.driver.Tallied)
    (hlength : t.driver.workers.length = s.driver.workers.length)
    (hothers : ∀ j, j ≠ i → t.driver.workers[j]? = s.driver.workers[j]?)
    (hi' : t.workers[i]? = some w') (hkept : s.OthersKept i t)
    (hlength' : t.workers.length = s.workers.length)
    (houtside : w'.place.inDriver = false → t.driver.workers[i]? = some .running)
    (hdispatch : w'.place.inDriver = true → w'.place ≠ .parked →
      t.driver.workers[i]? = some .releases) : t.Synced := by
  refine ⟨htallied, by rw [hlength, hlength', h.length], fun j x hj hout => ?_,
    fun j x hj hinside hne => ?_⟩
  · by_cases hji : j = i
    · subst hji
      cases hi'.symm.trans hj
      exact houtside hout
    · obtain ⟨x', hx', heq, -⟩ := hkept.exists_of hji hj
      rw [hothers j hji]
      exact h.outside j x' hx' (heq ▸ hout)
  · by_cases hji : j = i
    · subst hji
      cases hi'.symm.trans hj
      exact hdispatch hinside hne
    · obtain ⟨x', hx', heq, -⟩ := hkept.exists_of hji hj
      rw [hothers j hji]
      exact h.dispatch j x' hx' (heq ▸ hinside) (heq ▸ hne)

theorem Synced.worker (h : s.Synced) (hi : s.workers[i]? = some w) {c : Choice}
    (hstep : s.next i w c = some t) : t.Synced := by
  obtain ⟨w', ⟨hi', hkept, hlength⟩, hcase⟩ := (effect_of_next hstep).frame hi
  rcases hcase with hstays | ⟨henter, rfl, hpark, -⟩ | ⟨hplace, hnext, hrunning, hdriver⟩
  · obtain ⟨⟨hworkers, hholder, hwaiters⟩, hin, hreleases, -⟩ := hstays
    refine h.own (h.tallied.stay hworkers hholder hwaiters) (by rw [hworkers])
      (fun j _ => by rw [hworkers]) hi' hkept hlength (fun hout => ?_) fun hinside hne => ?_
    · rw [hworkers]
      exact h.outside i w hi (hin ▸ hout)
    · rw [hworkers]
      by_cases hparked : w.place = .parked
      · exact hreleases hparked
      · exact h.dispatch i w hi (hin ▸ hinside) hparked
  · obtain ⟨q, hworkers, -⟩ := DriverShared.park_workers hpark
    refine h.own (h.tallied.step hpark) (by rw [hworkers, List.length_set])
      (fun j hji => by rw [hworkers, List.getElem?_set_ne (Ne.symm hji)]) hi' hkept hlength
      (fun hout => by cases hout) fun _ hne => absurd rfl hne
  · refine h.own (hdriver ▸ h.tallied) (by rw [hdriver]) (fun j _ => by rw [hdriver]) hi' hkept
      hlength (fun _ => hdriver ▸ hrunning) fun hinside _ => ?_
    rw [hnext] at hinside
    cases hinside

theorem ownedBy_worker {l : Driver.Label} (h : s.ownedBy l = true) :
    (∀ i, l ≠ .park i) ∧ ∀ j w, l.worker? = some j → s.workers[j]? = some w → w.place = .parked := by
  refine ⟨?_, fun j w hj hw => ?_⟩
  · rintro i rfl
    cases h
  · cases l with
    | park i => cases h
    | worker i | returns i drains | wakes i =>
      cases hj
      simpa [ownedBy, hw] using h
    | arm | cancel | unpark | caller | clock | pause | resume | setAutoAdvance => cases hj

theorem Synced.driver (h : s.Synced) {l : Driver.Label} {driver : DriverShared}
    (howned : s.ownedBy l = true) (hstep : s.driver.step l = some driver) :
    Synced { s with driver } := by
  obtain ⟨hlength, hothers⟩ := DriverShared.step_workers hstep
  have hparked := (ownedBy_worker howned).2
  refine ⟨h.tallied.step hstep, hlength.trans h.length, fun i w hi hout => ?_,
    fun i w hi hinside hne => ?_⟩
  · have hmoves : l.worker? ≠ some i := by
      intro hmoves
      rw [hparked i w hmoves hi] at hout
      cases hout
    exact (hothers i hmoves).trans (h.outside i w hi hout)
  · have hmoves : l.worker? ≠ some i := fun hmoves => hne (hparked i w hmoves hi)
    exact (hothers i hmoves).trans (h.dispatch i w hi hinside hne)

theorem Synced.push (h : s.Synced) {driver : DriverShared}
    (hstep : s.driver.step .unpark = some driver)
    (injector : List ℕ) : Synced { s with injector, driver } := by
  have hdriver : Synced { s with driver } := h.driver (l := .unpark) rfl hstep
  exact ⟨hdriver.tallied, hdriver.length, hdriver.outside, hdriver.dispatch⟩

/-- Past its look at the injector, and not on the way out of the driver. -/
def Falls (w : Worker) (p : Driver.Worker) : Prop :=
  w.place.falling = true ∨ w.place = .parked ∧ p.blocks = true

theorem Synced.bound (h : s.Synced) (hi : s.workers[i]? = some w)
    (hp : s.driver.workers[i]? = some p) (hfalls : Falls w p) : p.Bound := by
  rcases hfalls with hfalling | ⟨-, hblocks⟩
  · have hout : w.place.inDriver = false := by
      cases hplace : w.place <;> rw [hplace] at hfalling <;> first | rfl | cases hfalling
    exact .inl (Option.some.inj (hp.symm.trans (h.outside i w hi hout)))
  · exact .inr hblocks

/-- What a single worker misses when it blocks is announced by a wake. -/
structure Covered (s : State) : Prop where
  synced : s.Synced
  covered : s.workers.length = 1 → ∀ (w : Worker) (p : Driver.Worker), s.workers[0]? = some w →
    s.driver.workers[0]? = some p → Falls w p → s.injector = [] ∨ s.driver.Alerted p

/-- A worker that comes back to the driver has made a wake there and is about to release the
holder. -/
theorem Stays.releases_of_parked (hstays : s.Stays i w w' t) (h : s.Synced)
    (hi : s.workers[i]? = some w) (hparked : w'.place = .parked) :
    t.driver.workers[i]? = some .releases := by
  rw [hstays.driver.1]
  by_cases hplace : w.place = .parked
  · exact hstays.parked hplace
  · have hin := hstays.inDriver
    rw [hparked] at hin
    exact h.dispatch i w hi hin.symm hplace

theorem Stays.falls (hstays : s.Stays i w w' t) (h : s.Synced) (hi : s.workers[i]? = some w)
    (hq : t.driver.workers[i]? = some q) (hfalls : Falls w' q) :
    w.place = .checkInject ∧ w'.place = .checkLocal ∧ t.injector = [] ∨
    w.place = .checkLocal ∧ w' = w.goTo .enter ∧ w.lifo = none ∧ w.len = 0 ∧
      t = s.setWorker i w' := by
  rcases hfalls with hfalling | ⟨hparked, hblocks⟩
  · exact hstays.falling hfalling
  · rw [hstays.releases_of_parked h hi hparked] at hq
    cases hq
    cases hblocks

theorem Covered.worker (h : s.Covered) (hi : s.workers[i]? = some w) {c : Choice}
    (hstep : s.next i w c = some t) : t.Covered := by
  refine ⟨h.synced.worker hi hstep, fun hone w₀ q hw₀ hq hfalls => ?_⟩
  obtain ⟨w', ⟨hi', hkept, hlength⟩, hcase⟩ := (effect_of_next hstep).frame hi
  have hlt := (List.getElem?_eq_some_iff.mp hi).1
  obtain rfl : i = 0 := by omega
  cases hi'.symm.trans hw₀
  obtain ⟨p, hp⟩ := h.synced.driver_worker hi
  rcases hcase with hstays | ⟨henter, rfl, hpark, ht⟩ | ⟨-, hnext, -, -⟩
  · rcases hstays.falls h.synced hi hq hfalls with ⟨-, -, hempty⟩ | ⟨hplace, -, -, -, ht⟩
    · exact .inl hempty
    · rw [ht] at hq ⊢
      have hpq : p = q := Option.some.inj (hp.symm.trans hq)
      subst hpq
      exact h.covered (hlength ▸ hone) w p hi hp (.inl (by rw [hplace]; rfl))
  · have hbefore : Falls w p := .inl (by rw [henter]; rfl)
    rcases h.covered (hlength ▸ hone) w p hi hp hbefore with hempty | halerted
    · rw [ht]
      exact .inl hempty
    · refine .inr (halerted.step h.synced.tallied hp (h.synced.bound hi hp hbefore) ?_ hpark hq ?_)
      · intro j q hj hjq
        have hltj := (List.getElem?_eq_some_iff.mp hjq).1
        have := h.synced.length
        omega
      · exact (h.synced.worker hi hstep).bound hi' hq hfalls
  · rcases hfalls with hfalling | ⟨hplace, -⟩
    · rw [hnext] at hfalling
      cases hfalling
    · rw [hnext] at hplace
      cases hplace

theorem Covered.driver (h : s.Covered) {l : Driver.Label} {driver : DriverShared}
    (howned : s.ownedBy l = true) (hstep : s.driver.step l = some driver) :
    Covered { s with driver } := by
  have hsynced := h.synced.driver howned hstep
  refine ⟨hsynced, fun hone w q hw hq hfalls => ?_⟩
  have hone : s.workers.length = 1 := hone
  obtain ⟨p, hp⟩ := h.synced.driver_worker hw
  have hbefore : Falls w p := by
    rcases hfalls with hfalling | ⟨hparked, hblocks⟩
    · exact .inl hfalling
    · exact .inr ⟨hparked, DriverShared.blocks_of_step hstep (ownedBy_worker howned).1 hp hq hblocks⟩
  rcases h.covered hone w p hw hp hbefore with hempty | halerted
  · exact .inl hempty
  · refine .inr (halerted.step h.synced.tallied hp (h.synced.bound hw hp hbefore) ?_ hstep hq
      (hsynced.bound hw hq hfalls))
    intro j q hj hjq
    have hlt := (List.getElem?_eq_some_iff.mp hjq).1
    have := h.synced.length
    omega

theorem Covered.step (h : s.Covered) {l : Label} (hstep : s.step l = some t) : t.Covered := by
  obtain ⟨i, c, w, rfl, hi, hnext⟩ | ⟨task, driver, rfl, hunpark, rfl⟩ |
    ⟨l, driver, rfl, howned, hdriver, rfl⟩ := step_cases hstep
  · exact h.worker hi hnext
  · refine ⟨h.synced.push hunpark _, fun _ _ _ _ _ _ => ?_⟩
    cases hunpark
    refine .inr (.inr (.inr ⟨⟨none, .starts⟩, ?_, nofun⟩))
    exact List.mem_append_right _ (List.mem_singleton_self _)
  · exact h.driver howned hdriver

theorem covered_new (workers : ℕ) (lifoSlotEnabled : Bool) :
    (State.new workers lifoSlotEnabled).Covered := by
  refine ⟨.new workers lifoSlotEnabled, fun _ _ _ _ _ _ => .inl rfl⟩

def Blocked (s : State) (i : ℕ) : Prop :=
  s.driver.pollerWoken = false ∧ s.driver.workers[i]?.any Driver.Worker.blocked = true

instance (s : State) (i : ℕ) : Decidable (s.Blocked i) := inferInstanceAs (Decidable (_ ∧ _))

/-- A task is in the injector, nobody is in `notify_driver`, and every worker is blocked. -/
def Stranded (s : State) : Prop :=
  s.injector ≠ [] ∧ s.driver.callers = [] ∧ ∀ i < s.workers.length, s.Blocked i

theorem Blocked.exists (h : s.Blocked i) :
    ∃ p, s.driver.workers[i]? = some p ∧ p.blocked = true := by
  obtain ⟨p, hp, hblocked⟩ := (Option.any_eq_true ..).mp h.2
  exact ⟨p, hp, hblocked⟩

/-- Only one worker is blocked at a time. -/
theorem Synced.eq_of_blocked (h : s.Synced) {j : ℕ} (hi : s.Blocked i) (hj : s.Blocked j) :
    i = j := by
  obtain ⟨p, hp, hblocked⟩ := hi.exists
  obtain ⟨q, hq, hblocked'⟩ := hj.exists
  have hholds := Driver.Worker.holds_of_blocks (Driver.Worker.blocks_of_blocked hblocked)
  have hholds' := Driver.Worker.holds_of_blocks (Driver.Worker.blocks_of_blocked hblocked')
  exact h.tallied.alone hq hholds' hp hholds

/-- A blocked worker is in `park_worker`, and no wake is stored for it. -/
theorem Synced.parked_of_blocked (h : s.Synced) (hi : s.workers[i]? = some w) (hb : s.Blocked i) :
    ∃ p, s.driver.workers[i]? = some p ∧ w.place = .parked ∧ p.blocks = true ∧
      (s.driver.Alerted p → s.driver.Notifying) := by
  obtain ⟨p, hp, hblocked⟩ := hb.exists
  refine ⟨p, hp, ?_, Driver.Worker.blocks_of_blocked hblocked, fun halerted => ?_⟩
  · cases hin : w.place.inDriver with
    | false =>
      rw [h.outside i w hi hin] at hp
      cases hp
      cases hblocked
    | true =>
      by_contra hne
      rw [h.dispatch i w hi hin hne] at hp
      cases hp
      cases hblocked
  · rcases halerted with hwoken | ⟨-, hunread⟩ | hnotifying
    · rw [hb.1] at hwoken
      cases hwoken
    · cases p <;> first | cases hblocked | cases hunread
    · exact hnotifying

theorem length_step {l : Label} (hstep : s.step l = some t) :
    t.workers.length = s.workers.length := by
  obtain ⟨i, c, w, rfl, hi, hnext⟩ | ⟨task, driver, rfl, hunpark, rfl⟩ |
    ⟨l, driver, rfl, howned, hdriver, rfl⟩ := step_cases hstep
  · obtain ⟨w', ⟨-, -, hlength⟩, -⟩ := (effect_of_next hnext).frame hi
    exact hlength
  · rfl
  · rfl

/-- The number of workers stays. -/
theorem length_of_reachable {workers : ℕ} {lifoSlotEnabled : Bool} {guard : State → Label → Prop}
    (hs : Reachable State.step guard (.new workers lifoSlotEnabled) s) :
    s.workers.length = workers :=
  hs.invariant (I := fun s => s.workers.length = workers) (by simp [State.new])
    fun _ _ _ h _ hstep => (length_step hstep).trans h

/-- No task is stranded by parking. -/
theorem no_task_is_stranded (workers : ℕ) (hworkers : 0 < workers) (lifoSlotEnabled : Bool)
    (s : State) (hs : Reachable State.step anyStep (.new workers lifoSlotEnabled) s) :
    ¬ s.Stranded := by
  have hlength := length_of_reachable hs
  have h : s.Covered := hs.invariant (covered_new workers lifoSlotEnabled)
    fun _ _ _ h _ hstep => h.step hstep
  rintro ⟨hinjector, hcallers, hblocked⟩
  have hzero := hblocked 0 (by omega)
  have hone : s.workers.length = 1 := by
    by_contra hne
    have := h.synced.eq_of_blocked hzero (hblocked 1 (by omega))
    omega
  obtain ⟨w, hw⟩ : ∃ w, s.workers[0]? = some w :=
    ⟨_, List.getElem?_eq_getElem (by omega : 0 < s.workers.length)⟩
  obtain ⟨p, hp, hparked, hblocks, hnotifying⟩ := h.synced.parked_of_blocked hw hzero
  rcases h.covered hone w p hw hp (.inr ⟨hparked, hblocks⟩) with hempty | halerted
  · exact hinjector hempty
  · obtain ⟨c, hc, -⟩ := hnotifying halerted
    rw [hcallers] at hc
    cases hc

/-- The steps of a worker without tasks, up to an unbounded kernel wait. -/
def parkSteps (i : ℕ) : List Label :=
  List.replicate 8 (Label.worker i .next) ++ List.replicate 4 (Label.driver (.worker i))

/-- A task comes while the only worker is in the kernel wait. -/
theorem no_task_is_stranded_in_wait :
    ∃ s, Reachable State.step anyStep (.new 1 true) s ∧ ¬ s.Stranded ∧
      s.injector = [5] ∧ s.driver.callers = [] ∧
      s.driver.workers[0]? = some (.waits ⟨0, none⟩) := by
  have hrun : (run (guarded State.step anyStep) (.new 1 true)
      (parkSteps 0 ++ Label.push 5 :: List.replicate 3 (Label.driver (.caller 0)))).any (fun s => decide (
        s.injector = [5] ∧ s.driver.callers = [] ∧
        s.driver.workers[0]? = some (.waits ⟨0, none⟩))) = true := by
    decide +kernel
  obtain ⟨s, hreach, hs⟩ := exists_reachable_of_run hrun
  obtain ⟨hinjector, hcallers, hwaits⟩ := of_decide_eq_true hs
  exact ⟨s, hreach, no_task_is_stranded 1 Nat.one_pos true s hreach, hinjector, hcallers, hwaits⟩

end State

end Eddy.WorkerLoop
