import Eddy.WorkerLoop

/-!
# What a step of the worker loop does

The steps that matter to a worker about to park are listed one by one. The others leave the driver
alone, put nothing into a local queue and lead to no look before parking.
-/

namespace Eddy.WorkerLoop
open Interleaving Driver

/-- After the look at the injector, before `park_worker`. -/
def Place.falling : Place → Bool
  | .checkLocal | .enter => true
  | _ => false

def Resume.inDriver : Resume → Bool
  | .parked => true
  | .polls _ | .ended | .searched _ => false

/-- `park_worker` has not returned. -/
def Place.inDriver : Place → Bool
  | .parked => true
  | .notify _ resume | .schedule _ _ resume | .push _ resume | .overflow _ _ resume
  | .spill _ _ resume | .injectBatch _ resume | .inject _ resume => resume.inDriver
  | _ => false

/-- In `push_overflow`, which ends with a `notify_driver`, or in a `notify_driver` that has not
decided for the condvar. -/
def Place.alerting : Place → Bool
  | .overflow .. | .spill .. | .injectBatch .. => true
  | .notify n _ => decide (n ≠ .decided true)
  | _ => false

/-- The victim of the claim that is in flight, and how many tasks were claimed. -/
def Place.copied : Place → Option (ℕ × ℕ)
  | .copy _ victim size _ _ => some (victim, size)
  | _ => none

/-- Neither in a copy, nor past a look before parking, nor between the push and the pop of
`take_injected`. -/
def Place.plain : Place → Bool
  | .checkLocal | .enter | .copy .. | .retake .. => false
  | _ => true

/-- From one plain place to another; no wake is taken back. -/
def Place.Quiet (p q : Place) : Prop :=
  p.plain = true ∧ q.plain = true ∧ q.inDriver = p.inDriver ∧ (p.alerting = true → q.alerting = true)

theorem Place.Quiet.calm {p q : Place} (hplain : p.plain = true) (hplain' : q.plain = true)
    (hdriver : q.inDriver = p.inDriver) (hcalm : p.alerting = false) : p.Quiet q :=
  ⟨hplain, hplain', hdriver, fun halerting => (by rw [hcalm] at halerting; cases halerting)⟩

/-- `park_worker` is waiting, and no waker runs in it. -/
def Place.waiting : Place → Bool
  | .parked => true
  | _ => false

theorem Place.awake {p : Place} {P : Prop} (h : p.waiting = false) (hp : p = .parked) : P := by
  subst hp
  cases h

/-- The local queue, but for the task that `take_injected` is about to pop. -/
def Worker.backlog (w : Worker) : List ℕ :=
  match w.place with
  | .retake .. => w.queue.dropLast
  | _ => w.queue

@[simp] theorem Resume.place_inDriver (resume : Resume) :
    resume.place.inDriver = resume.inDriver := by
  cases resume with
  | searched globalFirst => cases globalFirst <;> rfl
  | polls | ended | parked => rfl

@[simp] theorem Resume.place_plain (resume : Resume) : resume.place.plain = true := by
  cases resume with
  | searched globalFirst => cases globalFirst <;> rfl
  | polls | ended | parked => rfl

@[simp] theorem Resume.after_plain (resume : Resume) (n : Option Notify) :
    (resume.after n).plain = true := by
  cases n with
  | some n => rfl
  | none => exact resume.place_plain

@[simp] theorem Resume.after_inDriver (resume : Resume) (n : Option Notify) :
    (resume.after n).inDriver = resume.inDriver := by
  cases n with
  | some n => rfl
  | none => exact resume.place_inDriver

theorem Place.falling_of_plain {p : Place} (h : p.plain = true) : p.falling = false := by
  cases p <;> first | rfl | cases h

theorem Place.copied_of_plain {p : Place} (h : p.plain = true) : p.copied = none := by
  cases p <;> first | rfl | cases h

theorem Worker.backlog_of_plain {w : Worker} (h : w.place.plain = true) : w.backlog = w.queue := by
  obtain ⟨place, lifo, queue, claimed, tick, lifoPolls⟩ := w
  cases place <;> first | rfl | cases h

namespace State

/-- A step that does not matter to those who park. -/
structure Plain (s : State) (i : ℕ) (w w' : Worker) (t : State) : Prop where
  workers : t.workers = s.workers.set i w'
  driver : t.driver = s.driver
  injector : t.injector = s.injector ∨ t.injector = s.injector.tail
  claimed : w'.claimed = w.claimed
  backlog : w.claimed = 0 → w.backlog = [] → w'.backlog = []
  before : w.place.falling = false
  after : w'.place.falling = false
  inDriver : w'.place.inDriver = w.place.inDriver
  parked : w.place = .parked → s.driver.workers[i]? = some .releases
  alerting : w.place.alerting = true → w'.place.alerting = true
  copied : w.place.copied = none ∧ w'.place.copied = none

inductive Effect (s : State) (i : ℕ) (w : Worker) (t : State) : Prop where
  | plain (w' : Worker) (h : s.Plain i w w' t)
  | pushed (task : ℕ) (resume : Resume) (place : w.place = .push task resume)
      (room : w.len < capacity)
      (after : t = s.setWorker i { w with queue := w.queue ++ [task], place := resume.place })
  | kept (globalFirst : Bool) (task : ℕ) (place : w.place = .keep globalFirst task)
      (after : t = s.setWorker i { w with
        queue := w.queue ++ [task], place := .retake globalFirst task })
  | claimed (globalFirst : Bool) (victim size task : ℕ) (rest stolen : List ℕ) (v : Worker)
      (place : w.place = .steal globalFirst (victim :: rest))
      (found : s.workers[victim]? = some v) (other : victim ≠ i) (pos : 0 < size)
      (enough : size ≤ v.queue.length)
      (after : t = (s.setWorker victim { v with
        queue := v.queue.drop size, claimed := v.claimed + size }).setWorker i
          (w.goTo (.copy globalFirst victim size task stolen)))
  | copied (globalFirst : Bool) (victim size task stolen : ℕ) (rest : List ℕ)
      (place : w.place = .copy globalFirst victim size task (stolen :: rest))
      (after : t = s.setWorker i { w with
        queue := w.queue ++ [stolen], place := .copy globalFirst victim size task rest })
  | committed (globalFirst : Bool) (victim size task : ℕ) (v : Worker)
      (place : w.place = .copy globalFirst victim size task [])
      (found : s.workers[victim]? = some v)
      (after : t = (s.setWorker victim { v with claimed := v.claimed - size }).setWorker i
        (w.goTo (.leave globalFirst (some task))))
  | notified (n : Notify) (resume : Resume) (place : w.place = .notify n resume)
      (after : t = { s with driver := (s.driver.signal n).1 }.setWorker i
        (w.goTo (resume.after (s.driver.signal n).2)))
  | looked (place : w.place = .checkInject)
      (after : t = s.setWorker i
        (w.goTo (if s.injector = [] then .checkLocal else .retreat)))
  | decided (place : w.place = .checkLocal)
      (after : t = s.setWorker i
        (w.goTo (if w.lifo = none ∧ w.len = 0 then .enter else .retreat)))
  | entered (driver : DriverShared) (place : w.place = .enter)
      (parks : s.driver.step (.park i) = some driver)
      (after : t = { s with driver }.setWorker i (w.goTo .parked))
  | unparked (place : w.place = .parked) (running : s.driver.workers[i]? = some .running)
      (after : t = { s with parked := s.parked &&& ~~~(bit i) }.setWorker i (w.goTo .nextLifo))
  | overflowed (task : ℕ) (overflow : List ℕ) (resume : Resume)
      (place : w.place = .overflow task overflow resume)
      (after : t = s.setWorker i { w with
        queue := w.queue ++ [task], place := .injectBatch overflow resume })
  | injected (tasks : List ℕ) (resume : Resume)
      (place : w.place = .injectBatch tasks resume ∨
        ∃ task, w.place = .inject task resume ∧ tasks = [task])
      (after : t = { s with injector := s.injector ++ tasks }.setWorker i
        (w.goTo (.notify .starts resume)))

variable {s t : State} {i : ℕ} {w w' : Worker}

/-- The worker goes on, and shared words change that those who park do not look at. -/
theorem Effect.quiet (w' : Worker) (searching : ℕ) (parked : UInt64) (owner : ℕ → ℕ)
    (h : w.place.Quiet w'.place) (hqueue : w.queue = [] → w'.queue = [])
    (hclaimed : w'.claimed = w.claimed)
    (hparked : w.place = .parked → s.driver.workers[i]? = some .releases) :
    Effect s i w ({ s with searching, parked, owner }.setWorker i w') := by
  obtain ⟨hplain, hplain', hdriver, halerting⟩ := h
  refine .plain w' ⟨rfl, rfl, .inl rfl, hclaimed, fun _ hbacklog => ?_,
    Place.falling_of_plain hplain, Place.falling_of_plain hplain', hdriver, hparked, halerting,
    Place.copied_of_plain hplain, Place.copied_of_plain hplain'⟩
  rw [Worker.backlog_of_plain hplain] at hbacklog
  rw [Worker.backlog_of_plain hplain', hqueue hbacklog]

@[simp] theorem searched_plain (globalFirst : Bool) :
    (searched globalFirst).plain = true ∧ (searched globalFirst).inDriver = false := by
  cases globalFirst <;> exact ⟨rfl, rfl⟩

@[simp] theorem injectorEmpty_plain (globalFirst : Bool) :
    (injectorEmpty globalFirst).plain = true ∧ (injectorEmpty globalFirst).inDriver = false := by
  cases globalFirst <;> exact ⟨rfl, rfl⟩

theorem Goes.quiet {p q : Place} {c : Choice} (h : s.Goes i w p c q) : p.Quiet q := by
  cases h with
  | tooMany globalFirst | counted globalFirst | noneParked globalFirst =>
    exact .calm rfl (searched_plain globalFirst).1 (searched_plain globalFirst).2 rfl
  | stillFull | spillsNone => exact ⟨rfl, rfl, rfl, fun _ => rfl⟩
  | _ => exact .calm rfl rfl rfl rfl

theorem Goes.awake {p q : Place} {c : Choice} (h : s.Goes i w p c q) : p.waiting = false := by
  cases h <;> rfl

theorem effect_of_next {c : Choice} (h : s.next i w c = some t) : Effect s i w t := by
  have hsteps := steps_of_next h
  obtain ⟨place, lifo, queue, claimed, tick, lifoPolls⟩ := w
  dsimp only at hsteps
  cases hsteps with
  | goes goes =>
    exact .quiet _ s.searching s.parked s.owner goes.quiet id rfl (Place.awake goes.awake)
  | capped | takesLifo | wakes =>
    exact .quiet _ s.searching s.parked s.owner (.calm rfl rfl rfl rfl) id rfl (Place.awake rfl)
  | pops =>
    exact .quiet _ s.searching s.parked s.owner (.calm rfl rfl rfl rfl)
      (fun hqueue => congrArg List.dropLast hqueue) rfl (Place.awake rfl)
  | ticks =>
    refine .quiet _ s.searching s.parked s.owner (.calm rfl ?_ ?_ rfl) id rfl (Place.awake rfl)
    · dsimp only
      split_ifs <;> rfl
    · dsimp only
      split_ifs <;> rfl
  | takes globalFirst task injector hinjector =>
    exact .plain _ ⟨rfl, rfl, .inr (by simp [hinjector, setWorker]), rfl, fun _ => id, rfl, rfl,
      rfl, Place.awake rfl, (absurd · Bool.false_ne_true), rfl, rfl⟩
  | misses globalFirst =>
    exact .quiet _ s.searching s.parked s.owner (.calm rfl (injectorEmpty_plain globalFirst).1
      (injectorEmpty_plain globalFirst).2 rfl) id rfl (Place.awake rfl)
  | keeps globalFirst task => exact .kept globalFirst task rfl rfl
  | retakes =>
    exact .plain _ ⟨rfl, rfl, .inl rfl, rfl, fun _ => id, rfl, rfl, rfl, Place.awake rfl,
      (absurd · Bool.false_ne_true), rfl, rfl⟩
  | robbed globalFirst task hpopped =>
    have hplain := (injectorEmpty_plain globalFirst).1
    refine .plain _ ⟨rfl, rfl, .inl rfl, rfl, fun hclaimed _ => ?_, rfl,
      Place.falling_of_plain hplain, (injectorEmpty_plain globalFirst).2, Place.awake rfl,
      (absurd · Bool.false_ne_true), rfl, Place.copied_of_plain hplain⟩
    rw [Worker.backlog_of_plain hplain]
    have hclaimed : claimed = 0 := hclaimed
    simpa [Worker.popped, hclaimed, Worker.goTo] using hpopped
  | wins globalFirst count =>
    exact .quiet _ (count + 1) s.parked s.owner (.calm rfl rfl rfl rfl) id rfl (Place.awake rfl)
  | claims globalFirst victim count task rest stolen v found taken other pos enough =>
    exact .claimed globalFirst victim count task rest stolen v rfl found other pos enough rfl
  | copies globalFirst victim count task stolen rest =>
    exact .copied globalFirst victim count task stolen rest rfl rfl
  | commits globalFirst victim count task v found =>
    exact .committed globalFirst victim count task v rfl found rfl
  | leaves globalFirst task =>
    refine .quiet _ (s.searching - 1) s.parked s.owner (.calm rfl ?_ ?_ rfl) id rfl
      (Place.awake rfl)
    all_goals
      cases task with
      | some task => rfl
      | none =>
        dsimp only [Worker.goTo]
        split_ifs
        · rfl
        · first | exact (searched_plain globalFirst).1 | exact (searched_plain globalFirst).2
  | unmarks globalFirst id' =>
    exact .quiet _ s.searching (s.parked &&& ~~~(bit id')) s.owner (.calm rfl rfl rfl rfl) id rfl
      (Place.awake rfl)
  | notifies n resume => exact .notified n resume rfl rfl
  | marks =>
    exact .quiet _ s.searching (s.parked ||| bit i) s.owner (.calm rfl rfl rfl rfl) id rfl
      (Place.awake rfl)
  | looks => exact .looked rfl rfl
  | decides => exact .decided rfl rfl
  | retreats =>
    exact .quiet _ s.searching (s.parked &&& ~~~(bit i)) s.owner (.calm rfl rfl rfl rfl) id rfl
      (Place.awake rfl)
  | enters driver parks => exact .entered driver rfl parks rfl
  | unparks running => exact .unparked rfl running rfl
  | runs task =>
    exact .quiet _ s.searching s.parked (Function.update s.owner task i) (.calm rfl rfl rfl rfl)
      id rfl (Place.awake rfl)
  | releases task target releases =>
    exact .quiet _ s.searching s.parked s.owner (.calm rfl rfl rfl rfl) id rfl fun _ => releases
  | returns task woken =>
    cases woken with
    | _ =>
      exact .quiet _ s.searching s.parked s.owner (.calm rfl rfl rfl rfl) id rfl (Place.awake rfl)
  | fills task target resume =>
    exact .quiet _ s.searching s.parked s.owner
      (.calm rfl resume.place_plain resume.place_inDriver rfl) id rfl (Place.awake rfl)
  | pushes task resume room => exact .pushed task resume rfl room rfl
  | overflows task overflow resume => exact .overflowed task overflow resume rfl rfl
  | spills =>
    refine .quiet _ s.searching s.parked s.owner ⟨rfl, rfl, rfl, fun _ => rfl⟩ (fun hqueue => ?_)
      rfl (Place.awake rfl)
    have hqueue : queue = [] := hqueue
    simp [hqueue]
  | injects tasks resume before hbefore => exact .injected tasks resume hbefore rfl

def OthersKept (s : State) (i : ℕ) (t : State) : Prop :=
  ∀ j, j ≠ i → (t.workers[j]?).map (fun w => (w.place, w.tick)) =
    (s.workers[j]?).map fun w => (w.place, w.tick)

theorem workers_set (hi : s.workers[i]? = some w) (w' : Worker)
    (hworkers : t.workers = s.workers.set i w') :
    t.workers[i]? = some w' ∧ s.OthersKept i t ∧ t.workers.length = s.workers.length := by
  rw [hworkers]
  refine ⟨List.getElem?_set_self (List.getElem?_eq_some_iff.mp hi).1, fun j hj => ?_,
    List.length_set⟩
  rw [hworkers, List.getElem?_set_ne (Ne.symm hj)]

/-- Another worker before the step. -/
theorem OthersKept.exists_of (h : s.OthersKept i t) {j : ℕ} (hj : j ≠ i)
    (hw : t.workers[j]? = some w) :
    ∃ w', s.workers[j]? = some w' ∧ w'.place = w.place ∧ w'.tick = w.tick := by
  have hkept := h j hj
  rw [hw] at hkept
  obtain ⟨w', hw', heq⟩ := Option.map_eq_some_iff.mp hkept.symm
  exact ⟨w', hw', (Prod.mk.inj heq).1, (Prod.mk.inj heq).2⟩

/-- The step changes another worker's queue too. -/
theorem workers_set_set {victim : ℕ} {v v' : Worker} (hi : s.workers[i]? = some w)
    (hvictim : s.workers[victim]? = some v) (hkept : (v'.place, v'.tick) = (v.place, v.tick))
    (w' : Worker)
    (hworkers : t.workers = (s.workers.set victim v').set i w') :
    t.workers[i]? = some w' ∧ s.OthersKept i t ∧ t.workers.length = s.workers.length := by
  have hlt : i < (s.workers.set victim v').length := by
    rw [List.length_set]
    exact (List.getElem?_eq_some_iff.mp hi).1
  rw [hworkers]
  refine ⟨List.getElem?_set_self hlt, fun j hj => ?_, by simp⟩
  rw [hworkers, List.getElem?_set_ne (Ne.symm hj)]
  by_cases hjv : victim = j
  · subst hjv
    rw [List.getElem?_set_self (List.getElem?_eq_some_iff.mp hvictim).1, hvictim]
    exact congrArg some hkept
  · rw [List.getElem?_set_ne hjv]

structure Stays (s : State) (i : ℕ) (w w' : Worker) (t : State) : Prop where
  driver : t.driver.workers = s.driver.workers ∧ t.driver.holder = s.driver.holder ∧
    t.driver.waiters = s.driver.waiters
  inDriver : w'.place.inDriver = w.place.inDriver
  parked : w.place = .parked → s.driver.workers[i]? = some .releases
  /-- It starts to fall only by the look at the injector. -/
  falling : w'.place.falling = true →
    w.place = .checkInject ∧ w'.place = .checkLocal ∧ t.injector = [] ∨
    w.place = .checkLocal ∧ w' = w.goTo .enter ∧ w.lifo = none ∧ w.len = 0 ∧
      t = s.setWorker i w'

theorem Stays.out (hdriver : t.driver = s.driver) (hin : w'.place.inDriver = w.place.inDriver)
    (hout : w.place ≠ .parked) (hfalling : w'.place.falling = false) : s.Stays i w w' t := by
  refine ⟨by simp [hdriver], hin, fun hparked => absurd hparked hout, fun hfalls => ?_⟩
  rw [hfalling] at hfalls
  cases hfalls

/-- A step of a worker enters the driver, leaves it, or does neither. -/
theorem Effect.frame (h : Effect s i w t) (hi : s.workers[i]? = some w) :
    ∃ w', (t.workers[i]? = some w' ∧ s.OthersKept i t ∧ t.workers.length = s.workers.length) ∧
      (s.Stays i w w' t ∨
        w.place = .enter ∧ w' = w.goTo .parked ∧ s.driver.step (.park i) = some t.driver ∧
          t = { s with driver := t.driver }.setWorker i w' ∨
        w.place = .parked ∧ w'.place = .nextLifo ∧ s.driver.workers[i]? = some .running ∧
          t.driver = s.driver) := by
  cases h with
  | plain w' h =>
    refine ⟨w', workers_set hi w' h.workers, .inl ⟨by simp [h.driver], h.inDriver, h.parked,
      fun hfalling => ?_⟩⟩
    rw [h.after] at hfalling
    cases hfalling
  | pushed task resume place room after =>
    subst after
    refine ⟨_, workers_set hi _ rfl, .inl (.out rfl ?_ (by rw [place]; exact nofun)
      (Place.falling_of_plain resume.place_plain))⟩
    rw [place]
    exact resume.place_inDriver
  | kept globalFirst task place after =>
    subst after
    exact ⟨_, workers_set hi _ rfl,
      .inl (.out rfl (by rw [place]; rfl) (by rw [place]; exact nofun) rfl)⟩
  | claimed globalFirst victim size task rest stolen v place found other pos enough after =>
    subst after
    exact ⟨_, workers_set_set hi found (by exact rfl) _ rfl,
      .inl (.out rfl (by rw [place]; rfl) (by rw [place]; exact nofun) rfl)⟩
  | copied globalFirst victim size task stolen rest place after =>
    subst after
    exact ⟨_, workers_set hi _ rfl,
      .inl (.out rfl (by rw [place]; rfl) (by rw [place]; exact nofun) rfl)⟩
  | committed globalFirst victim size task v place found after =>
    subst after
    exact ⟨_, workers_set_set hi found (by exact rfl) _ rfl,
      .inl (.out rfl (by rw [place]; rfl) (by rw [place]; exact nofun) rfl)⟩
  | notified n resume place after =>
    subst after
    obtain ⟨-, -, -, hworkers, hwaiters, hholder⟩ := s.driver.signal_mono n
    refine ⟨_, workers_set hi _ rfl, .inl ⟨⟨hworkers, hholder, hwaiters⟩, ?_, fun hparked => ?_,
      fun hfalling => ?_⟩⟩
    · rw [place]
      exact resume.after_inDriver _
    · rw [place] at hparked
      cases hparked
    · rw [Worker.goTo, Place.falling_of_plain (resume.after_plain _)] at hfalling
      cases hfalling
  | looked place after =>
    subst after
    refine ⟨_, workers_set hi _ rfl, .inl ⟨⟨rfl, rfl, rfl⟩, ?_, fun hparked => ?_,
      fun hfalling => ?_⟩⟩
    · rw [place, Worker.goTo]
      split_ifs <;> rfl
    · rw [place] at hparked
      cases hparked
    · rw [Worker.goTo] at hfalling ⊢
      split_ifs at hfalling ⊢ with hempty
      · exact .inl ⟨place, rfl, hempty⟩
      · cases hfalling
  | decided place after =>
    subst after
    refine ⟨_, workers_set hi _ rfl, .inl ⟨⟨rfl, rfl, rfl⟩, ?_, fun hparked => ?_,
      fun hfalling => ?_⟩⟩
    · rw [place, Worker.goTo]
      split_ifs <;> rfl
    · rw [place] at hparked
      cases hparked
    · rw [Worker.goTo] at hfalling ⊢
      split_ifs at hfalling ⊢ with hempty
      · exact .inr ⟨place, by simp [Worker.goTo, hempty], hempty.1, hempty.2, rfl⟩
      · cases hfalling
  | entered driver place parks after =>
    subst after
    exact ⟨_, workers_set hi _ rfl, .inr (.inl ⟨place, rfl, parks, rfl⟩)⟩
  | unparked place running after =>
    subst after
    exact ⟨_, workers_set hi _ rfl, .inr (.inr ⟨place, rfl, running, rfl⟩)⟩
  | overflowed task overflow resume place after =>
    subst after
    exact ⟨_, workers_set hi _ rfl,
      .inl (.out rfl (by rw [place]; rfl) (by rw [place]; exact nofun) rfl)⟩
  | injected tasks resume place after =>
    subst after
    refine ⟨_, workers_set hi _ rfl, .inl (.out rfl ?_ ?_ rfl)⟩
    · rcases place with place | ⟨task, place, -⟩ <;> rw [place] <;> rfl
    · rcases place with place | ⟨task, place, -⟩ <;> rw [place] <;> exact nofun

theorem step_cases {l : Label} (h : s.step l = some t) :
    (∃ i c w, l = .worker i c ∧ s.workers[i]? = some w ∧ s.next i w c = some t) ∨
    (∃ task driver, l = .push task ∧ s.driver.step .unpark = some driver ∧
      t = { s with injector := s.injector ++ [task], driver }) ∨
    ∃ l' driver, l = .driver l' ∧ s.ownedBy l' = true ∧ s.driver.step l' = some driver ∧
      t = { s with driver } := by
  cases l with
  | worker i c =>
    obtain ⟨w, hi, hnext⟩ := Option.bind_eq_some_iff.mp h
    exact .inl ⟨i, c, w, rfl, hi, hnext⟩
  | push task =>
    simp only [step] at h
    obtain ⟨driver, hdriver, rfl⟩ := Option.map_eq_some_iff.mp h
    exact .inr (.inl ⟨task, driver, rfl, hdriver, rfl⟩)
  | driver l =>
    simp only [step] at h
    split_ifs at h with howned
    obtain ⟨driver, hdriver, rfl⟩ := Option.map_eq_some_iff.mp h
    exact .inr (.inr ⟨l, driver, rfl, howned, hdriver, rfl⟩)

/-- The others stay where they are in the driver. -/
theorem Effect.driver_workers (h : Effect s i w t) (hi : s.workers[i]? = some w) {j : ℕ}
    (hj : j ≠ i) : t.driver.workers[j]? = s.driver.workers[j]? := by
  obtain ⟨w', -, hstays | ⟨-, -, hpark, -⟩ | ⟨-, -, -, hdriver⟩⟩ := h.frame hi
  · rw [hstays.driver.1]
  · obtain ⟨q, hworkers, -⟩ := DriverShared.park_workers hpark
    rw [hworkers, List.getElem?_set_ne (Ne.symm hj)]
  · rw [hdriver]

end State

/-- Worker 0 comes to a poll, whose task has woken itself when it returns. -/
def pollSteps (before after : ℕ) : List Label :=
  List.replicate before (Label.worker 0 .next) ++ Label.worker 0 (.returns true) ::
    List.replicate after (Label.worker 0 .next)

end Eddy.WorkerLoop
