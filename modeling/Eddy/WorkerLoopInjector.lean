import Eddy.WorkerLoopSteps

/-!
# The injector and the tick

The tick advances only in an iteration that finds both the LIFO slot and the local queue empty. A
poll of a stolen task is paid for by a tick, a poll of a task from the slot or the queue is not, so
that the injector is passed over as long as there are such tasks.
-/

namespace Eddy.WorkerLoop
open Interleaving

def Resume.searching : Resume → Bool
  | .searched _ => true
  | .polls _ | .ended | .parked => false

/-- In the search of an iteration that has advanced the tick, or before the poll of what it found. -/
def Place.searching : Place → Bool
  | .search _ | .count _ | .claim .. | .steal .. | .copy .. | .leave .. | .unparkAny _ | .unmark ..
  | .run _ .stolen => true
  | .notify _ resume | .schedule _ _ resume | .push _ resume | .overflow _ _ resume
  | .spill _ _ resume | .injectBatch _ resume | .inject _ resume => resume.searching
  | _ => false

/-- In the `take_injected` that an interval ends with, or before the poll of an injected task. -/
def Place.interval : Place → Bool
  | .takeInjected true | .keep true _ | .retake true _ | .run _ .injected => true
  | _ => false

/-- How many polls the ticks of an interval pay for, at `r` ticks into it. In an iteration that has
advanced the tick one of them is still to come. -/
def allowance (place : Place) (r : ℕ) : ℕ :=
  if place.interval then 60 else if place.searching then r - 1 else r

theorem allowance_le (place : Place) {r : ℕ} (hr : r ≤ 60) : allowance place r ≤ 60 := by
  unfold allowance
  split_ifs <;> omega

def Place.Goes (p q : Place) : Prop :=
  (p.interval = true → q.interval = true) ∧ (q.searching = true → p.searching = true)

variable {p q : Place}

theorem Place.Goes.apart (hp : p.interval = false) (hq : q.searching = false) :
    p.Goes q :=
  ⟨fun h => (by rw [hp] at h; cases h), fun h => (by rw [hq] at h; cases h)⟩

theorem Place.Goes.within (hp : p.interval = false) (hsearching : p.searching = true) :
    p.Goes q :=
  ⟨fun h => (by rw [hp] at h; cases h), fun _ => hsearching⟩

def Place.runs : Place → Bool
  | .run .. => true
  | _ => false

theorem Place.ne_run (h : p.runs = false) (task : ℕ) (source : Source) :
    p ≠ .run task source := by
  rintro rfl
  cases h

theorem Place.Goes.allowance_le (h : p.Goes q) {r : ℕ} (hr : r ≤ 60) :
    allowance p r ≤ allowance q r := by
  obtain ⟨hinterval, hsearching⟩ := h
  unfold allowance
  split_ifs
  all_goals simp_all
  all_goals omega

theorem Resume.place_goes (resume : Resume) (h : p.interval = false) :
    p.Goes resume.place := by
  refine ⟨fun hp => (by rw [h] at hp; cases hp), fun hq => ?_⟩
  cases resume with
  | searched globalFirst => cases globalFirst <;> cases hq
  | polls | ended | parked => cases hq

theorem searched_goes (globalFirst : Bool) (h : p.interval = false) :
    p.Goes (searched globalFirst) := (Resume.searched globalFirst).place_goes h

theorem Resume.after_goes (resume : Resume) (m : Driver.Notify) (n : Option Driver.Notify) :
    (Place.notify m resume).Goes (resume.after n) := by
  cases n with
  | some n => exact ⟨(absurd · Bool.false_ne_true), id⟩
  | none => exact resume.place_goes rfl

namespace State
variable {s t : State} {i : ℕ} {w w' : Worker}

inductive Pace (s : State) (w : Worker) (c : Choice) (w' : Worker) (t : State) : Prop where
  | keeps (tick : w'.tick = w.tick) (norun : ∀ task source, w.place ≠ .run task source)
      (place : w.place.Goes w'.place)
  | ticks (before : w.place = .pop) (tick : w'.tick = w.tick + 1)
      (place : w'.place = if (w.tick + 1) % CurrentThread.GLOBAL_QUEUE_INTERVAL = 0
        then .takeInjected true else .search false)
  | empty (before : w.place = .takeInjected true) (injector : t.injector = [])
  | retakes (task : ℕ) (before : w.place = .retake true task) (now : c = .next)
      (tick : w'.tick = w.tick) (place : w.popped = some task → w'.place = .run task .injected)
  | polls (task : ℕ) (source : Source) (before : w.place = .run task source) (now : c = .next)
      (tick : w'.tick = w.tick) (place : w'.place = .poll task) (same : t.injector = s.injector)

theorem Pace.own {c : Choice} (hi : s.workers[i]? = some w)
    (hworkers : t.workers = s.workers.set i w') (h : Pace s w c w' t) :
    ∃ w', t.workers[i]? = some w' ∧ Pace s w c w' t :=
  ⟨w', (workers_set hi w' hworkers).1, h⟩

theorem Pace.both {c : Choice} {victim : ℕ} {v v' : Worker} (hi : s.workers[i]? = some w)
    (hv : s.workers[victim]? = some v) (hworkers : t.workers = (s.workers.set victim v').set i w')
    (h : Pace s w c w' t) (hkept : (v'.place, v'.tick) = (v.place, v.tick)) :
    ∃ w', t.workers[i]? = some w' ∧ Pace s w c w' t :=
  ⟨w', (workers_set_set hi hv hkept w' hworkers).1, h⟩

theorem Goes.place_goes {p q : Place} {c : Choice} (h : s.Goes i w p c q) :
    p.Goes q ∧ p.runs = false := by
  cases h with
  | noLifo => exact ⟨.apart rfl rfl, rfl⟩
  | keepsNone => exact ⟨⟨fun _ => rfl, (absurd · Bool.false_ne_true)⟩, rfl⟩
  | tooMany globalFirst | counted globalFirst | noneParked globalFirst =>
    exact ⟨searched_goes globalFirst rfl, rfl⟩
  | onTarget | offTarget | full | stillFull | spillsNone =>
    exact ⟨⟨(absurd · Bool.false_ne_true), id⟩, rfl⟩
  | _ => exact ⟨.within rfl rfl, rfl⟩

theorem pace_of_next {c : Choice} (h : s.next i w c = some t) (hi : s.workers[i]? = some w) :
    ∃ w', t.workers[i]? = some w' ∧ Pace s w c w' t := by
  have hsteps := steps_of_next h
  obtain ⟨place, lifo, queue, claimed, tick, lifoPolls⟩ := w
  dsimp only at hsteps
  cases hsteps with
  | goes goes =>
    exact Pace.own hi rfl (.keeps rfl (Place.ne_run goes.place_goes.2) goes.place_goes.1)
  | ticks => exact Pace.own hi rfl (.ticks rfl rfl rfl)
  | takes globalFirst | keeps globalFirst =>
    refine Pace.own hi rfl (.keeps rfl (Place.ne_run rfl) ⟨?_, (absurd · Bool.false_ne_true)⟩)
    cases globalFirst <;> exact id
  | misses globalFirst hnone =>
    cases globalFirst with
    | true => exact Pace.own hi rfl (.empty rfl hnone)
    | false => exact Pace.own hi rfl (.keeps rfl (Place.ne_run rfl) (.apart rfl rfl))
  | retakes globalFirst task popped hpopped =>
    cases globalFirst with
    | true =>
      refine Pace.own hi rfl (.retakes task rfl rfl rfl fun htask => ?_)
      obtain rfl : popped = task := Option.some.inj (hpopped.symm.trans htask)
      simp
    | false =>
      refine Pace.own hi rfl (.keeps rfl (Place.ne_run rfl) ⟨(absurd · Bool.false_ne_true), ?_⟩)
      dsimp only
      split_ifs <;> exact (absurd · Bool.false_ne_true)
  | robbed globalFirst task hpopped =>
    cases globalFirst with
    | true =>
      refine Pace.own hi rfl (.retakes task rfl rfl rfl fun htask => ?_)
      rw [hpopped] at htask
      cases htask
    | false => exact Pace.own hi rfl (.keeps rfl (Place.ne_run rfl) (.apart rfl rfl))
  | claims globalFirst victim count task rest stolen v found
  | commits globalFirst victim count task v found =>
    exact Pace.both hi found rfl (.keeps rfl (Place.ne_run rfl) (.within rfl rfl)) rfl
  | wins | copies | unmarks =>
    exact Pace.own hi rfl (.keeps rfl (Place.ne_run rfl) (.within rfl rfl))
  | leaves globalFirst task =>
    refine Pace.own hi rfl (.keeps rfl (Place.ne_run rfl) ?_)
    cases task with
    | some task => exact .within rfl rfl
    | none =>
      dsimp only [Worker.goTo]
      split_ifs
      · exact .within rfl rfl
      · exact searched_goes globalFirst rfl
  | notifies n resume =>
    exact Pace.own hi rfl (.keeps rfl (Place.ne_run rfl) (resume.after_goes n _))
  | runs task source => exact Pace.own hi rfl (.polls task source rfl rfl rfl rfl rfl)
  | looks | decides | returns =>
    refine Pace.own hi rfl (.keeps rfl (Place.ne_run rfl) ?_)
    dsimp only [Worker.goTo]
    split_ifs <;> exact .apart rfl rfl
  | fills task target resume | pushes task resume =>
    exact Pace.own hi rfl (.keeps rfl (Place.ne_run rfl) (resume.place_goes rfl))
  | overflows | spills =>
    exact Pace.own hi rfl (.keeps rfl (Place.ne_run rfl) ⟨(absurd · Bool.false_ne_true), id⟩)
  | injects tasks resume before hbefore =>
    rcases hbefore with rfl | ⟨task, rfl, rfl⟩
    all_goals
      exact Pace.own hi rfl (.keeps rfl (Place.ne_run rfl) ⟨(absurd · Bool.false_ne_true), id⟩)
  | _ => exact Pace.own hi rfl (.keeps rfl (Place.ne_run rfl) (.apart rfl rfl))

end State

/-- Ticks of the interval so far. -/
def Worker.elapsed (w : Worker) : ℕ := w.tick.toNat % 61

def Worker.paid (w : Worker) : ℕ := allowance w.place w.elapsed

/-- What a step of a worker does to the tasks in the injector. -/
inductive Event where
  | none
  /-- The poll of a task from the injector. -/
  | served
  /-- Another poll, and whether a tick pays for it. -/
  | passed (paid : Bool)
  /-- The task that an interval took from the injector is not what it pops. -/
  | robbed

def Worker.event (w : Worker) : Choice → Event
  | .next =>
      match w.place with
      | .run _ .injected => .served
      | .run _ source => .passed (source = .stolen ∧ w.elapsed ≠ 0)
      | .retake true task => if w.popped = some task then .none else .robbed
      | _ => .none
  | _ => .none

/-- Of one worker, since the injector was empty or the worker polled a task from it. -/
structure Count where
  /-- The polls of other tasks. -/
  missed : ℕ
  /-- Those of them that no tick pays for. -/
  unpaid : ℕ
  /-- The ticks of the interval that were gone at the start. -/
  start : ℕ

def Count.after (k : Count) (paid : ℕ) : Event → Count
  | .none => k
  | .served => ⟨0, 0, paid⟩
  | .passed ticked => ⟨k.missed + 1, k.unpaid + (!ticked).toNat, k.start⟩
  | .robbed => ⟨k.missed, k.missed, 0⟩

/-- The poll fits what the ticks of the interval have left. -/
def Count.Fits (k : Count) (elapsed : ℕ) : Event → Prop
  | .passed paid => k.unpaid + (!paid).toNat + elapsed ≤ 60 + k.start
  | _ => True

instance (k : Count) (elapsed : ℕ) (e : Event) : Decidable (k.Fits elapsed e) := by
  cases e <;> unfold Count.Fits <;> infer_instance

namespace State

def paid (s : State) (i : ℕ) : ℕ := (s.workers[i]?.map Worker.paid).getD 0

end State

/-- The workers with what each has passed over. -/
structure Watched where
  state : State
  counts : ℕ → Count

namespace Watched

def new (s : State) : Watched := ⟨s, fun i => ⟨0, 0, s.paid i⟩⟩

def after (x : Watched) (t : State) : Label → ℕ → Count
  | .worker i c =>
      match x.state.workers[i]? with
      | some w => Function.update x.counts i ((x.counts i).after (t.paid i) (w.event c))
      | none => x.counts
  | _ => x.counts

def step (x : Watched) (l : Label) : Option Watched :=
  (x.state.step l).map fun t => if t.injector = [] then .new t else ⟨t, x.after t l⟩

/-- Every poll that passes the injector over leaves room for the ticks of the interval. -/
def Fits (x : Watched) : Label → Prop
  | .worker i c => x.state.injector ≠ [] →
      ∀ w ∈ x.state.workers[i]?, (x.counts i).Fits w.elapsed (w.event c)
  | _ => True

instance (x : Watched) (l : Label) : Decidable (x.Fits l) := by
  cases l <;> unfold Fits <;> infer_instance

end Watched

structure Count.Paced (k : Count) (paid : ℕ) : Prop where
  paid : k.missed + k.start ≤ k.unpaid + paid
  few : k.missed ≤ 60

variable {s t : State} {w w' : Worker} {c : Choice} {k : Count} {n n' : ℕ}

theorem Worker.elapsed_le (w : Worker) : w.elapsed ≤ 60 :=
  Nat.lt_succ_iff.mp (Nat.mod_lt _ (by omega))

theorem Worker.elapsed_of_tick (h : w'.tick = w.tick) : w'.elapsed = w.elapsed := by
  unfold Worker.elapsed
  rw [h]

theorem Count.paced_new (n : ℕ) : (Count.mk 0 0 n).Paced n := ⟨by simp, by simp⟩

theorem Count.Paced.mono (h : k.Paced n) (hle : n ≤ n') : k.Paced n' :=
  ⟨h.paid.trans (by omega), h.few⟩

theorem Count.Paced.robbed (h : k.Paced n) :
    (k.after n' .robbed).Paced n' := ⟨by simp [Count.after], h.few⟩

/-- A tick pays for one poll more, unless it ends the interval. -/
theorem Worker.paid_of_tick (hbefore : w.place = .pop) (htick : w'.tick = w.tick + 1)
    (hplace : w'.place = if (w.tick + 1) % CurrentThread.GLOBAL_QUEUE_INTERVAL = 0
      then .takeInjected true else .search false) : w.paid ≤ w'.paid := by
  unfold Worker.paid
  split_ifs at hplace with hend
  · rw [hplace]
    exact allowance_le _ w.elapsed_le
  · rw [CurrentThread.ends_interval_iff, CurrentThread.toNat_add_one] at hend
    have hlt := w.tick.toNat_lt
    have hnext : (w.tick.toNat + 1) % 4294967296 = w.tick.toNat + 1 := by
      refine Nat.mod_eq_of_lt (by_contra fun hge => hend ?_)
      obtain hwrap : w.tick.toNat + 1 = 4294967296 := by omega
      rw [hwrap]
    rw [hnext] at hend
    rw [hplace, hbefore]
    show w.tick.toNat % 61 ≤ w'.tick.toNat % 61 - 1
    rw [htick, CurrentThread.toNat_add_one, hnext]
    omega

theorem Worker.event_of_norun (h : ∀ task source, w.place ≠ .run task source) :
    w.event c = .none ∨ w.event c = .robbed := by
  cases c with
  | next =>
    simp only [Worker.event]
    split
    · rename_i task hplace
      exact absurd hplace (h task .injected)
    · rename_i task source _ hplace
      exact absurd hplace (h task source)
    · split_ifs <;> simp
    · exact .inl rfl
  | _ => exact .inl rfl

theorem Count.Paced.of_norun (h : k.Paced w.paid) (hle : w.paid ≤ n)
    (hnorun : ∀ task source, w.place ≠ .run task source) :
    (k.after n (w.event c)).Paced n := by
  rcases w.event_of_norun (c := c) hnorun with he | he <;> rw [he]
  · exact h.mono hle
  · exact h.robbed

/-- A poll that no tick pays for is counted as unpaid. -/
theorem Count.Paced.passed (h : k.Paced w.paid) {task : ℕ} {source : Source}
    (hplace : w.place = .run task source) (hsource : source ≠ .injected)
    (hfits : k.Fits w.elapsed (w.event .next)) :
    (k.after w.elapsed (w.event .next)).Paced w.elapsed := by
  obtain ⟨paid, he, hpaid⟩ : ∃ paid, w.event .next = .passed paid ∧
      w.paid + 1 ≤ (!paid).toNat + w.elapsed := by
    refine ⟨source = .stolen ∧ w.elapsed ≠ 0, ?_, ?_⟩
    · simp only [Worker.event, hplace]
    · unfold Worker.paid
      rw [hplace]
      cases source with
      | injected => exact absurd rfl hsource
      | lifo | queue => simp [allowance, Place.interval, Place.searching, Nat.add_comm]
      | stolen =>
        by_cases hzero : w.elapsed = 0
        · simp [allowance, Place.interval, Place.searching, hzero]
        · simp [allowance, Place.interval, Place.searching, hzero]
          omega
  rw [he] at hfits ⊢
  have hle := h.paid
  simp only [Count.Fits] at hfits
  constructor
  · simp only [Count.after]
    omega
  · simp only [Count.after]
    omega

theorem Count.Paced.of_pace (h : k.Paced w.paid) (hpace : State.Pace s w c w' t)
    (ht : t.injector ≠ []) (hfits : s.injector ≠ [] → k.Fits w.elapsed (w.event c)) :
    (k.after w'.paid (w.event c)).Paced w'.paid := by
  cases hpace with
  | keeps tick norun place =>
    refine h.of_norun ?_ norun
    unfold Worker.paid
    rw [Worker.elapsed_of_tick tick]
    exact place.allowance_le w.elapsed_le
  | ticks before tick place =>
    refine h.of_norun (Worker.paid_of_tick before tick place) fun task source hplace => ?_
    rw [before] at hplace
    cases hplace
  | empty before injector => exact absurd injector ht
  | retakes task before now tick place =>
    subst now
    have he : w.event .next = if w.popped = some task then .none else .robbed := by
      unfold Worker.event
      rw [before]
    rw [he]
    split_ifs with hpopped
    · refine h.mono ?_
      unfold Worker.paid
      rw [before, place hpopped]
      exact le_rfl
    · exact h.robbed
  | polls task source before now tick place same =>
    subst now
    have hpaid : w'.paid = w.elapsed := by
      unfold Worker.paid
      rw [place, Worker.elapsed_of_tick tick]
      rfl
    rw [hpaid]
    by_cases hsource : source = .injected
    · subst hsource
      have he : w.event .next = .served := by
        unfold Worker.event
        rw [before]
      rw [he]
      exact Count.paced_new _
    · exact h.passed before hsource (hfits (same ▸ ht))

namespace State

theorem paid_of_worker {i : ℕ} (hi : s.workers[i]? = some w) : s.paid i = w.paid := by
  unfold paid
  rw [hi]
  rfl

theorem OthersKept.paid {i j : ℕ} (h : s.OthersKept i t) (hj : j ≠ i) : t.paid j = s.paid j := by
  have hkept := congrArg (Option.map fun p => allowance p.1 (p.2.toNat % 61)) (h j hj)
  rw [Option.map_map, Option.map_map] at hkept
  exact congrArg (Option.getD · 0) hkept

end State

namespace Watched
variable {x y : Watched}

def Paced (x : Watched) : Prop := ∀ i, (x.counts i).Paced (x.state.paid i)

theorem paced_new (s : State) : (new s).Paced := fun _ => Count.paced_new _

theorem Paced.worker (h : x.Paced) {i : ℕ} (hi : x.state.workers[i]? = some w)
    (hstep : x.state.next i w c = some t) (ht : t.injector ≠ []) (hfits : x.Fits (.worker i c)) :
    (Watched.mk t (x.after t (.worker i c))).Paced := by
  obtain ⟨w', hi', hpace⟩ := State.pace_of_next hstep hi
  obtain ⟨-, ⟨-, hkept, -⟩, -⟩ := (State.effect_of_next hstep).frame hi
  intro j
  simp only [after, hi]
  by_cases hj : j = i
  · subst hj
    have hcount := h j
    rw [State.paid_of_worker hi] at hcount
    rw [Function.update_self, State.paid_of_worker hi']
    exact hcount.of_pace hpace ht fun hs => hfits hs w hi
  · rw [Function.update_of_ne hj, hkept.paid hj]
    exact h j

theorem Paced.step (h : x.Paced) {l : Label} (hfits : x.Fits l) (hstep : x.step l = some y) :
    y.Paced := by
  obtain ⟨t, ht, rfl⟩ := Option.map_eq_some_iff.mp hstep
  split_ifs with hinjector
  · exact paced_new t
  · obtain ⟨i, c, w, rfl, hi, hnext⟩ | ⟨task, driver, rfl, hunpark, rfl⟩ |
      ⟨l, driver, rfl, howned, hdriver, rfl⟩ := State.step_cases ht
    · exact h.worker hi hnext hinjector hfits
    · exact h
    · exact h

/-- In a run whose steps meet the condition no worker passes the injector over for a whole
interval. -/
theorem injector_is_served (workers : ℕ) (lifoSlotEnabled : Bool) (x : Watched)
    (hx : Reachable Watched.step Fits (.new (.new workers lifoSlotEnabled)) x) (i : ℕ) :
    (x.counts i).missed < CurrentThread.GLOBAL_QUEUE_INTERVAL.toNat := by
  have h : x.Paced := hx.invariant (paced_new _) fun _ _ _ h hfits hstep => h.step hfits hstep
  exact Nat.lt_succ_iff.mpr (h i).few

/-- Once the LIFO slot passes the injector over. -/
theorem injector_is_served_after_poll :
    ∃ x, Reachable Watched.step Fits (.new (.new 1 true)) x ∧ (x.counts 0).missed < 61 ∧
      (x.counts 0).missed = 1 ∧ x.state.injector = [6, 7] := by
  have hrun : (run (guarded Watched.step Fits) (.new (.new 1 true))
      (Label.push 5 :: .push 6 :: .push 7 :: pollSteps 7 1 ++ pollSteps 2 1)).any (fun x => decide (
        (x.counts 0).missed = 1 ∧ x.state.injector = [6, 7])) = true := by
    decide +kernel
  obtain ⟨x, hreach, hx⟩ := exists_reachable_of_run hrun
  exact ⟨x, hreach, injector_is_served 1 true x hreach 0, of_decide_eq_true hx⟩

/-- Two tasks that wake themselves keep a third one in the injector. -/
theorem injector_is_passed_over :
    ∃ x, Reachable Watched.step anyStep (.new (.new 1 true)) x ∧ 61 ≤ (x.counts 0).missed ∧
      x.state.workers[0]?.any (fun w => w.place = .nextLifo) = true ∧
      x.state.injector = [7] := by
  have hrun : (run (guarded Watched.step anyStep) (.new (.new 1 true))
      (Label.push 5 :: .push 6 :: .push 7 :: pollSteps 7 1 ++
        (List.replicate 3 (pollSteps 2 1)).flatten ++ pollSteps 7 2 ++
        (List.replicate 16
          ((List.replicate 3 (pollSteps 2 1)).flatten ++ pollSteps 3 2)).flatten)).any
      (fun x => decide (61 ≤ (x.counts 0).missed ∧
        x.state.workers[0]?.any (fun w => w.place = .nextLifo) = true ∧
        x.state.injector = [7])) = true := by
    decide +kernel
  obtain ⟨x, hreach, hx⟩ := exists_reachable_of_run hrun
  exact ⟨x, hreach, of_decide_eq_true hx⟩

end Watched

end Eddy.WorkerLoop
