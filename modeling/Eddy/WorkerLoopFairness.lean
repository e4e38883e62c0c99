import Eddy.WorkerLoopStarvation

/-!
# Two tasks on one worker

With the LIFO slot, one of two tasks that wake themselves is in the slot when the other one is in
the local queue. The turn of the slot ends after three polls, and the pop of the local queue or of
the injector then finds the other task.
-/

namespace Eddy.WorkerLoop
open Interleaving

def Resume.tasks : Resume → List ℕ
  | .polls task => [task]
  | .ended | .parked | .searched _ => []

/-- The tasks that a thread has in hand. -/
def Place.tasks : Place → List ℕ
  | .keep _ task | .run task _ | .poll task | .leave _ (some task) => [task]
  | .copy _ _ _ task rest => task :: rest
  | .schedule task _ resume | .push task resume | .inject task resume => task :: resume.tasks
  | .overflow task batch resume | .spill task batch resume => task :: batch ++ resume.tasks
  | .injectBatch batch resume => batch ++ resume.tasks
  | .notify _ resume => resume.tasks
  | _ => []

def Worker.tasks (w : Worker) : List ℕ := w.place.tasks ++ w.lifo.toList ++ w.queue

/-- The part of the loop that a worker is in. -/
inductive Stage where
  | start
  | pop
  | search
  | idle
  | held (task : ℕ)
  | run (task : ℕ)
  | polled
  deriving DecidableEq

def Resume.stage : Resume → Stage
  | .polls _ | .ended => .polled
  | .parked | .searched _ => .idle

def Place.stage : Place → Stage
  | .nextLifo => .start
  | .pop => .pop
  | .search false | .takeInjected _ => .search
  | .keep _ task | .retake _ task => .held task
  | .run task _ => .run task
  | .poll _ => .polled
  | .schedule _ _ resume | .push _ resume | .inject _ resume | .notify _ resume => resume.stage
  | _ => .idle

@[simp] theorem Place.nextLifo_stage : Place.nextLifo.stage = .start := rfl

@[simp] theorem Place.nextLifo_tasks : Place.nextLifo.tasks = [] := rfl

@[simp] theorem Place.pop_stage : Place.pop.stage = .pop := rfl

@[simp] theorem Place.pop_tasks : Place.pop.tasks = [] := rfl

@[simp] theorem Place.takeInjected_stage (globalFirst : Bool) :
    (Place.takeInjected globalFirst).stage = .search := rfl

@[simp] theorem Place.takeInjected_tasks (globalFirst : Bool) :
    (Place.takeInjected globalFirst).tasks = [] := rfl

@[simp] theorem Place.keep_stage (globalFirst : Bool) (task : ℕ) :
    (Place.keep globalFirst task).stage = .held task := rfl

@[simp] theorem Place.keep_tasks (globalFirst : Bool) (task : ℕ) :
    (Place.keep globalFirst task).tasks = [task] := rfl

@[simp] theorem Place.retake_stage (globalFirst : Bool) (task : ℕ) :
    (Place.retake globalFirst task).stage = .held task := rfl

@[simp] theorem Place.retake_tasks (globalFirst : Bool) (task : ℕ) :
    (Place.retake globalFirst task).tasks = [] := rfl

@[simp] theorem Place.run_stage (task : ℕ) (source : Source) :
    (Place.run task source).stage = .run task := rfl

@[simp] theorem Place.run_tasks (task : ℕ) (source : Source) :
    (Place.run task source).tasks = [task] := rfl

@[simp] theorem Place.poll_stage (task : ℕ) : (Place.poll task).stage = .polled := rfl

@[simp] theorem Place.poll_tasks (task : ℕ) : (Place.poll task).tasks = [task] := rfl

@[simp] theorem Place.schedule_stage (task target : ℕ) (resume : Resume) :
    (Place.schedule task target resume).stage = resume.stage := rfl

@[simp] theorem Place.schedule_tasks (task target : ℕ) (resume : Resume) :
    (Place.schedule task target resume).tasks = task :: resume.tasks := rfl

@[simp] theorem Place.push_stage (task : ℕ) (resume : Resume) :
    (Place.push task resume).stage = resume.stage := rfl

@[simp] theorem Place.push_tasks (task : ℕ) (resume : Resume) :
    (Place.push task resume).tasks = task :: resume.tasks := rfl

@[simp] theorem Place.inject_stage (task : ℕ) (resume : Resume) :
    (Place.inject task resume).stage = resume.stage := rfl

@[simp] theorem Place.inject_tasks (task : ℕ) (resume : Resume) :
    (Place.inject task resume).tasks = task :: resume.tasks := rfl

@[simp] theorem Place.notify_stage (n : Driver.Notify) (resume : Resume) :
    (Place.notify n resume).stage = resume.stage := rfl

@[simp] theorem Place.notify_tasks (n : Driver.Notify) (resume : Resume) :
    (Place.notify n resume).tasks = resume.tasks := rfl

def Worker.Solo (slot : Bool) (w : Worker) : Prop :=
  w.claimed = 0 ∧ w.lifoPolls ≤ 3 ∧
    match w.place with
    | .nextLifo | .search true | .mark | .checkInject | .checkLocal | .retreat | .enter | .parked
    | .run .. | .poll _ => True
    | .pop => w.lifoPolls ≤ 2
    | .search false | .takeInjected _ | .keep .. => w.lifoPolls ≤ 2 ∧ w.queue = []
    | .retake _ task => w.lifoPolls ≤ 2 ∧ w.queue = [task]
    | .schedule _ target resume =>
        (∀ globalFirst, resume ≠ .searched globalFirst) ∧ (resume = .ended → target = 0)
    | .push _ resume =>
        (∀ globalFirst, resume ≠ .searched globalFirst) ∧ (slot = true → w.lifo ≠ none)
    | .inject _ resume | .notify _ resume =>
        (∀ globalFirst, resume ≠ .searched globalFirst) ∧ resume ≠ .ended
    | _ => False

/-- A step of the only worker, with the task that it spawns and the one whose poll begins. -/
inductive Move (slot : Bool) (w : Worker) (injector : List ℕ) :
    Worker → List ℕ → List ℕ → Option ℕ → Prop where
  | rests (place : Place) (fresh : List ℕ) (stage : place.stage = w.place.stage)
      (tasks : place.tasks = fresh ++ w.place.tasks) :
      Move slot w injector (w.goTo place) injector fresh none
  | restarts (stage : w.place.stage = .idle) (tasks : w.place.tasks = []) :
      Move slot w injector (w.goTo .nextLifo) injector [] none
  | capped (before : w.place = .nextLifo) (enough : 3 ≤ w.lifoPolls) :
      Move slot w injector { w with lifoPolls := 0, place := .pop } injector [] none
  | slot (task : ℕ) (before : w.place = .nextLifo) (few : w.lifoPolls < 3)
      (found : w.lifo = some task) :
      Move slot w injector
        { w with lifo := none, lifoPolls := w.lifoPolls + 1, place := .run task .lifo }
        injector [] none
  | noSlot (before : w.place = .nextLifo) (empty : w.lifo = none) :
      Move slot w injector (w.goTo .pop) injector [] none
  | pops (task : ℕ) (rest : List ℕ) (before : w.place = .pop) (found : w.queue = rest ++ [task]) :
      Move slot w injector { w with queue := rest, lifoPolls := 0, place := .run task .queue }
        injector [] none
  | ticks (tick : UInt32) (place : Place) (before : w.place = .pop) (stage : place.stage = .search)
      (tasks : place.tasks = []) :
      Move slot w injector { w with tick, place } injector [] none
  | takes (globalFirst : Bool) (task : ℕ) (rest : List ℕ)
      (before : w.place = .takeInjected globalFirst) (found : injector = task :: rest) :
      Move slot w injector (w.goTo (.keep globalFirst task)) rest [] none
  | misses (globalFirst : Bool) (place : Place) (before : w.place = .takeInjected globalFirst)
      (empty : injector = []) (queue : w.queue = []) (stage : place.stage = .idle)
      (tasks : place.tasks = []) :
      Move slot w injector (w.goTo place) injector [] none
  | keeps (globalFirst : Bool) (task : ℕ) (before : w.place = .keep globalFirst task)
      (queue : w.queue = []) :
      Move slot w injector { w with queue := [task], place := .retake globalFirst task }
        injector [] none
  | retakes (globalFirst : Bool) (task : ℕ) (before : w.place = .retake globalFirst task)
      (queue : w.queue = [task]) (few : w.lifoPolls ≤ 2) :
      Move slot w injector { w with queue := [], place := .run task .injected } injector [] none
  | polls (task : ℕ) (source : Source) (before : w.place = .run task source)
      (few : w.lifoPolls ≤ 3) :
      Move slot w injector (w.goTo (.poll task)) injector [] (some task)
  | fills (task target : ℕ) (resume : Resume) (before : w.place = .schedule task target resume)
      (free : w.lifo = none) (solo : ∀ globalFirst, resume ≠ .searched globalFirst) :
      Move slot w injector { w with lifo := some task, place := resume.place } injector [] none
  | pushes (task : ℕ) (resume : Resume) (before : w.place = .push task resume)
      (full : slot = true → w.lifo ≠ none) (solo : ∀ globalFirst, resume ≠ .searched globalFirst) :
      Move slot w injector { w with queue := w.queue ++ [task], place := resume.place }
        injector [] none
  | injects (task : ℕ) (resume : Resume) (before : w.place = .inject task resume) :
      Move slot w injector (w.goTo (.notify .starts resume)) (injector ++ [task]) [] none

theorem Resume.place_solo {slot : Bool} (resume : Resume)
    (hresume : ∀ globalFirst, resume ≠ .searched globalFirst) {w : Worker}
    (hplace : w.place = resume.place) (hclaimed : w.claimed = 0) (hpolls : w.lifoPolls ≤ 3) :
    w.Solo slot := by
  refine ⟨hclaimed, hpolls, ?_⟩
  rw [hplace]
  cases resume with
  | searched globalFirst => exact absurd rfl (hresume globalFirst)
  | polls | ended | parked => trivial

theorem Resume.after_solo {slot : Bool} (resume : Resume)
    (hresume : ∀ globalFirst, resume ≠ .searched globalFirst) (hended : resume ≠ .ended)
    {n : Option Driver.Notify} {w : Worker} (hplace : w.place = resume.after n)
    (hclaimed : w.claimed = 0) (hpolls : w.lifoPolls ≤ 3) : w.Solo slot := by
  cases n with
  | none => exact resume.place_solo hresume hplace hclaimed hpolls
  | some n =>
    refine ⟨hclaimed, hpolls, ?_⟩
    rw [hplace]
    exact ⟨hresume, hended⟩

theorem Resume.after_stage (resume : Resume)
    (hresume : ∀ globalFirst, resume ≠ .searched globalFirst) (hended : resume ≠ .ended)
    (n : Option Driver.Notify) : (resume.after n).stage = resume.stage := by
  cases n with
  | some n => rfl
  | none =>
    cases resume with
    | ended => exact absurd rfl hended
    | searched globalFirst => exact absurd rfl (hresume globalFirst)
    | polls | parked => rfl

theorem Resume.after_tasks (resume : Resume) (n : Option Driver.Notify) :
    (resume.after n).tasks = resume.tasks := by
  cases n with
  | some n => rfl
  | none =>
    cases resume with
    | searched globalFirst => cases globalFirst <;> rfl
    | polls | ended | parked => rfl

theorem target_solo {s : State} (hone : s.workers.length = 1) (task : ℕ) : s.target task 0 = 0 := by
  unfold State.target
  split_ifs
  · omega
  · rfl

namespace State
variable {s t : State} {w w' : Worker} {c : Choice}

theorem Solo.goes {p q : Place} (h : s.Goes 0 w p c q) (hp : w.place = p)
    (hworkers : s.workers = [w]) (hsolo : w.Solo s.lifoSlotEnabled)
    (hroom : w.queue.length < capacity) :
    (w.goTo q).Solo s.lifoSlotEnabled ∧
      Move s.lifoSlotEnabled w s.injector (w.goTo q) s.injector (Spun.spawns (.worker 0 c))
        (Spun.polled s (.worker 0 c)) := by
  obtain ⟨slot, workers, injector, searching, parked, owner, driver⟩ := s
  obtain ⟨place, lifo, queue, claimed, tick, lifoPolls⟩ := w
  subst hworkers hp
  obtain ⟨rfl, hpolls, hsolo⟩ := hsolo
  cases h with
  | noLifo few none => exact ⟨⟨rfl, hpolls, Nat.le_of_lt_succ few⟩, .noSlot rfl none⟩
  | tooMany globalFirst =>
    cases globalFirst with
    | true => exact ⟨⟨rfl, hpolls, trivial⟩, .rests _ [] rfl rfl⟩
    | false => exact ⟨⟨rfl, hpolls, hsolo⟩, .rests _ [] rfl rfl⟩
  | searches globalFirst few => exact absurd few (by simp)
  | keepsNone globalFirst task full | full task resume full =>
    exact absurd full (Nat.not_le_of_lt hroom)
  | onTarget task target resume own slot =>
    exact ⟨⟨rfl, hpolls, hsolo.1, fun h hnone => slot ⟨h, hnone⟩⟩, .rests _ [] rfl rfl⟩
  | offTarget task target resume other =>
    refine ⟨⟨rfl, hpolls, hsolo.1, fun hended => other ?_⟩, .rests _ [] rfl rfl⟩
    rw [hsolo.2 hended]
    exact target_solo rfl task
  | counted | counts | fails | loses | passes | stealsNone | noneParked | finds | stillFull
  | spillsNone => exact absurd hsolo id

theorem move_of_next (hworkers : s.workers = [w]) (hsolo : w.Solo s.lifoSlotEnabled)
    (hroom : w.queue.length < capacity) (hwoken : ∀ woken, c = .returns woken → woken = true)
    (h : s.next 0 w c = some t) :
    ∃ w', t.workers = [w'] ∧ t.lifoSlotEnabled = s.lifoSlotEnabled ∧ w'.Solo s.lifoSlotEnabled ∧
      Move s.lifoSlotEnabled w s.injector w' t.injector (Spun.spawns (.worker 0 c))
        (Spun.polled s (.worker 0 c)) := by
  have hsteps := steps_of_next h
  have hgoes := fun q (hq : s.Goes 0 w w.place c q) => Solo.goes hq rfl hworkers hsolo hroom
  obtain ⟨slot, workers, injector, searching, parked, owner, driver⟩ := s
  obtain ⟨place, lifo, queue, claimed, tick, lifoPolls⟩ := w
  subst hworkers
  obtain ⟨rfl, hpolls, hsolo⟩ := hsolo
  dsimp only at hsteps
  cases hsteps with
  | goes goes => exact ⟨_, rfl, rfl, hgoes _ goes⟩
  | capped enough => exact ⟨_, rfl, rfl, ⟨rfl, Nat.zero_le _, Nat.zero_le _⟩, .capped rfl enough⟩
  | takesLifo task few hsome =>
    exact ⟨_, rfl, rfl, ⟨rfl, few, trivial⟩, .slot task rfl few hsome⟩
  | pops task popped =>
    obtain ⟨rest, rfl⟩ := List.getLast?_eq_some_iff.mp popped
    simp only [List.dropLast_concat]
    exact ⟨_, rfl, rfl, ⟨rfl, Nat.zero_le _, trivial⟩, .pops task rest rfl rfl⟩
  | ticks popped =>
    obtain rfl := List.getLast?_eq_none_iff.mp popped
    refine ⟨_, rfl, rfl, ⟨rfl, hpolls, ?_⟩, .ticks _ _ rfl ?_ ?_⟩
    · dsimp only
      split_ifs <;> exact ⟨hsolo, rfl⟩
    · split_ifs <;> rfl
    · split_ifs <;> rfl
  | takes globalFirst task rest found =>
    exact ⟨_, rfl, rfl, ⟨rfl, hpolls, hsolo⟩, .takes globalFirst task rest rfl found⟩
  | misses globalFirst empty =>
    refine ⟨_, rfl, rfl, ⟨rfl, hpolls, ?_⟩, .misses globalFirst _ rfl empty hsolo.2 ?_ ?_⟩
    · cases globalFirst <;> trivial
    · cases globalFirst <;> rfl
    · cases globalFirst <;> rfl
  | keeps globalFirst task =>
    obtain ⟨hfew, rfl⟩ := hsolo
    exact ⟨_, rfl, rfl, ⟨rfl, hpolls, hfew, rfl⟩, .keeps globalFirst task rfl rfl⟩
  | retakes globalFirst task popped hpopped =>
    obtain ⟨hfew, rfl⟩ := hsolo
    obtain rfl : task = popped := Option.some.inj hpopped
    simp only [if_true]
    exact ⟨_, rfl, rfl, ⟨rfl, hpolls, trivial⟩, .retakes globalFirst task rfl rfl hfew⟩
  | robbed globalFirst task hpopped =>
    obtain ⟨-, rfl⟩ := hsolo
    cases hpopped
  | marks | enters => exact ⟨_, rfl, rfl, ⟨rfl, hpolls, trivial⟩, .rests _ [] rfl rfl⟩
  | looks | decides =>
    refine ⟨_, rfl, rfl, ⟨rfl, hpolls, ?_⟩, .rests _ [] ?_ ?_⟩
    all_goals dsimp only [Worker.goTo]
    all_goals split_ifs
    all_goals trivial
  | retreats | unparks =>
    exact ⟨_, rfl, rfl, ⟨rfl, hpolls, trivial⟩, .restarts rfl rfl⟩
  | runs task source =>
    exact ⟨_, rfl, rfl, ⟨rfl, hpolls, trivial⟩, .polls task source rfl hpolls⟩
  | fills task target resume own slot =>
    exact ⟨_, rfl, rfl, resume.place_solo hsolo.1 rfl rfl hpolls,
      .fills task target resume rfl slot.2 hsolo.1⟩
  | pushes task resume =>
    exact ⟨_, rfl, rfl, resume.place_solo hsolo.1 rfl rfl hpolls,
      .pushes task resume rfl hsolo.2 hsolo.1⟩
  | injects tasks resume before hbefore =>
    obtain rfl | ⟨task, rfl, rfl⟩ := hbefore
    · exact absurd hsolo id
    · exact ⟨_, rfl, rfl, ⟨rfl, hpolls, hsolo⟩, .injects task resume rfl⟩
  | notifies n resume =>
    obtain ⟨hresume, hended⟩ := hsolo
    exact ⟨_, rfl, rfl, resume.after_solo hresume hended rfl rfl hpolls,
      .rests _ [] (resume.after_stage hresume hended _) (resume.after_tasks _)⟩
  | wakes task | releases task =>
    exact ⟨_, rfl, rfl, ⟨rfl, hpolls, by simp, by simp⟩, .rests _ [task] rfl rfl⟩
  | returns task woken =>
    obtain rfl := hwoken woken rfl
    exact ⟨_, rfl, rfl, ⟨rfl, hpolls, by simp, fun _ => rfl⟩, .rests _ [] rfl rfl⟩
  | wins | claims | copies | commits | leaves | unmarks | overflows | spills =>
    exact absurd hsolo id

end State

variable {w w' : Worker} {injector injector' fresh : List ℕ} {polled : Option ℕ}

theorem Resume.place_tasks (resume : Resume) : resume.place.tasks = resume.tasks := by
  cases resume with
  | searched globalFirst => cases globalFirst <;> rfl
  | polls | ended | parked => rfl

/-- No task is lost or doubled. -/
theorem Move.perm {slot : Bool} (h : Move slot w injector w' injector' fresh polled) :
    (w'.tasks ++ injector').Perm (fresh ++ (w.tasks ++ injector)) := by
  refine List.perm_iff_count.mpr fun a => ?_
  unfold Worker.tasks
  cases h with
  | rests place fresh stage tasks | restarts stage tasks => simp [Worker.goTo, tasks]
  | capped before enough => simp [before]
  | slot task before few found => simp [before, found]
  | noSlot before empty => simp [Worker.goTo, before, empty]
  | pops task rest before found =>
    simp [before, found, List.count_cons]
    omega
  | ticks tick place before stage tasks => simp [before, tasks]
  | takes globalFirst task rest before found =>
    simp [Worker.goTo, before, found, List.count_cons]
    omega
  | misses globalFirst place before empty queue stage tasks =>
    simp [Worker.goTo, before, tasks]
  | keeps globalFirst task before queue | retakes globalFirst task before queue few =>
    simp [before, queue, List.count_cons]
    omega
  | polls task source before few => simp [Worker.goTo, before]
  | fills task target resume before free solo =>
    simp [before, free, resume.place_tasks, List.count_cons]
    omega
  | pushes task resume before full solo =>
    simp [before, resume.place_tasks, List.count_cons]
    omega
  | injects task resume before =>
    simp [Worker.goTo, before, List.count_cons]
    omega

def late (lifoPolls : ℕ) : ℕ := if 3 ≤ lifoPolls then 1 else 0

/-- How many polls may come before that of the task in the LIFO slot. -/
def Stage.inSlot (lifoPolls : ℕ) : Stage → ℕ
  | .start | .polled => late lifoPolls
  | .run _ => late lifoPolls + 1
  | _ => 1

/-- How many polls may come before that of a task outside of the LIFO slot, which is empty. -/
def Stage.emptySlot (lifoPolls : ℕ) : Stage → ℕ
  | .run _ => 4 - lifoPolls
  | .polled => 3 - lifoPolls
  | _ => 4

/-- How many polls may come before that of a task outside, while another one is in the slot. -/
def Stage.fullSlot (lifoPolls : ℕ) : Stage → ℕ
  | .start | .polled => 3 - lifoPolls
  | .pop | .search => 0
  | .idle => 3
  | _ => 4

/-- How many polls may come before that of a task that the worker does not have in hand. -/
def Stage.delay (task : ℕ) (lifo : Option ℕ) (lifoPolls : ℕ) (stage : Stage) : ℕ :=
  match lifo with
  | none => stage.emptySlot lifoPolls
  | some slot => if slot = task then stage.inSlot lifoPolls else stage.fullSlot lifoPolls

/-- How many polls of the other task may come before that of a task. -/
def delay (task : ℕ) (w : Worker) : ℕ :=
  if w.place.stage = .held task ∨ w.place.stage = .run task then 0
  else if task ∈ w.place.tasks then 4
  else w.place.stage.delay task w.lifo w.lifoPolls

theorem late_le (lifoPolls : ℕ) : late lifoPolls ≤ 1 := by
  unfold late
  split_ifs <;> omega

theorem late_of_few {lifoPolls : ℕ} (h : lifoPolls ≤ 2) : late lifoPolls = 0 :=
  if_neg (by omega)

theorem late_of_enough {lifoPolls : ℕ} (h : 3 ≤ lifoPolls) : late lifoPolls = 1 := if_pos h

theorem Stage.delay_le (task : ℕ) (lifo : Option ℕ) (lifoPolls : ℕ) (stage : Stage) :
    stage.delay task lifo lifoPolls ≤ 4 := by
  have hlate := late_le lifoPolls
  unfold Stage.delay
  cases lifo with
  | none => cases stage <;> simp only [emptySlot] <;> omega
  | some slot =>
    dsimp only
    split_ifs
    · cases stage <;> simp only [inSlot] <;> omega
    · cases stage <;> simp only [fullSlot] <;> omega

theorem delay_le (task : ℕ) (w : Worker) : delay task w ≤ 4 := by
  unfold delay
  split_ifs
  · exact Nat.zero_le 4
  · exact le_rfl
  · exact Stage.delay_le ..

variable {task : ℕ}

theorem delay_of_outside (hheld : w.place.stage ≠ .held task)
    (hrun : w.place.stage ≠ .run task) (hout : task ∉ w.place.tasks) :
    delay task w = w.place.stage.delay task w.lifo w.lifoPolls := by
  unfold delay
  rw [if_neg (not_or.mpr ⟨hheld, hrun⟩), if_neg hout]

theorem delay_of_taken (h : w.place.stage = .held task ∨ w.place.stage = .run task) :
    delay task w = 0 := if_pos h

theorem Resume.stage_of_solo (resume : Resume) : resume.stage = .polled ∨ resume.stage = .idle := by
  cases resume <;> simp [Resume.stage]

/-- In `schedule`. -/
theorem delay_of_scheduling {resume : Resume} (hstage : w.place.stage = resume.stage) :
    delay task w = if task ∈ w.place.tasks then 4
      else resume.stage.delay task w.lifo w.lifoPolls := by
  unfold delay
  rw [hstage, if_neg]
  rcases resume.stage_of_solo with h | h <;> simp [h]

/-- After `schedule` the worker is in its poll, at the start of the loop, or in the driver. -/
theorem delay_of_scheduled {resume : Resume} (hplace : w.place = resume.place)
    (hsolo : ∀ globalFirst, resume ≠ .searched globalFirst) (hout : task ∉ resume.tasks)
    (hfull : w.lifo ≠ none) :
    delay task w = resume.stage.delay task w.lifo w.lifoPolls := by
  obtain ⟨slot, hslot⟩ := Option.ne_none_iff_exists'.mp hfull
  cases resume with
  | searched globalFirst => exact absurd rfl (hsolo globalFirst)
  | polls polled =>
    rw [delay_of_outside (by simp [hplace, Resume.place]) (by simp [hplace, Resume.place])
      (by rw [hplace]; exact hout), hplace]
    rfl
  | ended | parked =>
    rw [delay_of_outside (by rw [hplace]; exact nofun) (by rw [hplace]; exact nofun)
      (by rw [hplace]; exact nofun), hplace, hslot]
    rfl

theorem Move.delay_le (h : Move true w injector w' injector' [] polled)
    (hpolled : polled ≠ some task) (hmem : task ∈ w.tasks ++ injector)
    (hfree : ∀ other ∈ w.place.tasks ++ w.queue ++ injector, other ≠ task →
      w.lifo ≠ some task → w.lifo = none) :
    delay task w' + polled.toList.length ≤ delay task w := by
  have hlate := late_le w.lifoPolls
  cases h with
  | rests place fresh stage tasks =>
    unfold delay
    simp only [Worker.goTo, stage, tasks]
    simp
  | restarts stage tasks =>
    rw [delay_of_outside (w := w) (by simp [stage]) (by simp [stage]) (by simp [tasks]),
      delay_of_outside (by simp [Worker.goTo]) (by simp [Worker.goTo]) (by simp [Worker.goTo])]
    simp [Worker.goTo, stage, Stage.delay]
    cases w.lifo with
    | none => simp [Stage.emptySlot]
    | some slot =>
      simp [Stage.inSlot, Stage.fullSlot]
      split_ifs <;> omega
  | capped before enough =>
    rw [delay_of_outside (w := w) (by simp [before]) (by simp [before]) (by simp [before]),
      delay_of_outside (by simp) (by simp) (by simp)]
    simp [before, Stage.delay]
    cases w.lifo with
    | none => simp [Stage.emptySlot]
    | some slot =>
      simp [Stage.inSlot, Stage.fullSlot, late_of_enough enough]
      split_ifs <;> omega
  | slot other before few found =>
    rw [delay_of_outside (w := w) (by simp [before]) (by simp [before]) (by simp [before])]
    by_cases htask : other = task
    · rw [delay_of_taken (by simp [htask])]
      simp
    · rw [delay_of_outside (by simp) (by simp [htask]) (by simp [Ne.symm htask])]
      simp [before, found, Stage.delay, htask, Stage.emptySlot, Stage.fullSlot]
  | noSlot before empty =>
    rw [delay_of_outside (w := w) (by simp [before]) (by simp [before]) (by simp [before]),
      delay_of_outside (by simp [Worker.goTo]) (by simp [Worker.goTo]) (by simp [Worker.goTo])]
    simp [Worker.goTo, before, empty, Stage.delay, Stage.emptySlot]
  | pops other rest before found =>
    rw [delay_of_outside (w := w) (by simp [before]) (by simp [before]) (by simp [before])]
    by_cases htask : other = task
    · rw [delay_of_taken (by simp [htask])]
      simp
    · rw [delay_of_outside (by simp) (by simp [htask]) (by simp [Ne.symm htask])]
      by_cases hslot : w.lifo = some task
      · simp [before, hslot, Stage.delay, Stage.inSlot, late]
      · simp [before, hfree other (by simp [found]) htask hslot, Stage.delay, Stage.emptySlot]
  | ticks tick place before stage tasks =>
    rw [delay_of_outside (w := w) (by simp [before]) (by simp [before]) (by simp [before]),
      delay_of_outside (by simp [stage]) (by simp [stage]) (by simp [tasks])]
    simp only [before, stage, Place.pop_stage]
    exact le_rfl
  | takes globalFirst other rest before found =>
    rw [delay_of_outside (w := w) (by simp [before]) (by simp [before]) (by simp [before])]
    by_cases htask : other = task
    · rw [delay_of_taken (by simp [Worker.goTo, htask])]
      simp
    · rw [delay_of_outside (by simp [Worker.goTo, htask]) (by simp [Worker.goTo])
        (by simp [Worker.goTo, Ne.symm htask])]
      by_cases hslot : w.lifo = some task
      · simp [Worker.goTo, before, hslot, Stage.delay, Stage.inSlot]
      · simp [Worker.goTo, before, hfree other (by simp [found]) htask hslot, Stage.delay,
          Stage.emptySlot]
  | misses globalFirst place before empty queue stage tasks =>
    have hslot : w.lifo = some task := by simpa [Worker.tasks, before, empty, queue] using hmem
    rw [delay_of_outside (w := w) (by simp [before]) (by simp [before]) (by simp [before]),
      delay_of_outside (by simp [Worker.goTo, stage]) (by simp [Worker.goTo, stage])
        (by simp [Worker.goTo, tasks])]
    simp [Worker.goTo, before, stage, hslot, Stage.delay, Stage.inSlot]
  | keeps globalFirst other before queue =>
    by_cases htask : other = task
    · rw [delay_of_taken (by simp [htask])]
      simp
    · rw [delay_of_outside (w := w) (by simp [before, htask]) (by simp [before])
          (by simp [before, Ne.symm htask]),
        delay_of_outside (by simp [htask]) (by simp) (by simp)]
      simp [before]
  | retakes globalFirst other before queue few =>
    by_cases htask : other = task
    · rw [delay_of_taken (by simp [htask])]
      simp
    · rw [delay_of_outside (w := w) (by simp [before, htask]) (by simp [before])
          (by simp [before]),
        delay_of_outside (by simp) (by simp [htask]) (by simp [Ne.symm htask])]
      simp [before, Stage.delay]
      cases w.lifo with
      | none => simp [Stage.emptySlot]
      | some slot => simp [Stage.inSlot, Stage.fullSlot, late_of_few few]
  | polls other source before few =>
    have htask : other ≠ task := fun h => hpolled (congrArg some h)
    rw [delay_of_outside (w := w) (by simp [before]) (by simp [before, htask])
        (by simp [before, Ne.symm htask]),
      delay_of_outside (by simp [Worker.goTo]) (by simp [Worker.goTo])
        (by simp [Worker.goTo, Ne.symm htask])]
    by_cases hslot : w.lifo = some task
    · simp [Worker.goTo, before, hslot, Stage.delay, Stage.inSlot]
    · simp [Worker.goTo, before, hfree other (by simp [before]) htask hslot, Stage.delay,
        Stage.emptySlot]
      omega
  | fills other target resume before free solo =>
    rw [delay_of_scheduling (w := w) (by rw [before]; rfl)]
    split_ifs with hhand
    · exact WorkerLoop.delay_le ..
    · simp only [before, Place.schedule_tasks, List.mem_cons, not_or] at hhand
      rw [delay_of_scheduled rfl solo hhand.2 (by simp), free]
      rcases resume.stage_of_solo with h | h
      · simp [h, Stage.delay, Ne.symm hhand.1, Stage.fullSlot, Stage.emptySlot]
      · simp [h, Stage.delay, Ne.symm hhand.1, Stage.fullSlot, Stage.emptySlot]
  | pushes other resume before full solo =>
    rw [delay_of_scheduling (w := w) (by rw [before]; rfl)]
    split_ifs with hhand
    · exact WorkerLoop.delay_le ..
    · simp only [before, Place.push_tasks, List.mem_cons, not_or] at hhand
      have hafter : delay task { w with queue := w.queue ++ [other], place := resume.place } =
          resume.stage.delay task w.lifo w.lifoPolls :=
        delay_of_scheduled rfl solo hhand.2 (full rfl)
      exact hafter.le
  | injects other resume before =>
    rw [delay_of_scheduling (w := w) (by rw [before]; rfl)]
    split_ifs with hhand
    · exact WorkerLoop.delay_le ..
    · simp only [before, Place.inject_tasks, List.mem_cons, not_or] at hhand
      have hafter : delay task (w.goTo (.notify .starts resume)) =
          resume.stage.delay task w.lifo w.lifoPolls := by
        rw [delay_of_scheduling rfl]
        exact if_neg hhand.2
      rw [hafter]
      exact le_rfl

def age (task : ℕ) (polls : List ℕ) : ℕ := (polls.takeWhile fun polled => polled ≠ task).length

@[simp] theorem age_nil (task : ℕ) : age task [] = 0 := rfl

@[simp] theorem age_cons_self (task : ℕ) (polls : List ℕ) : age task (task :: polls) = 0 := by
  simp [age]

theorem age_cons_of_ne {polled : ℕ} (h : polled ≠ task) (polls : List ℕ) :
    age task (polled :: polls) = age task polls + 1 := by
  simp [age, h]

theorem mem_take_of_age {bound : ℕ} {polls : List ℕ} (hage : age task polls < bound)
    (hbound : bound ≤ polls.length) : task ∈ polls.take bound := by
  induction polls generalizing bound with
  | nil => exact absurd hage (by simpa using hbound)
  | cons polled polls ih =>
    obtain ⟨bound, rfl⟩ := Nat.exists_eq_add_one_of_ne_zero (show bound ≠ 0 by omega)
    rw [List.take_succ_cons]
    by_cases hpolled : polled = task
    · exact List.mem_cons.mpr (.inl hpolled.symm)
    · rw [age_cons_of_ne hpolled] at hage
      exact List.mem_cons_of_mem _ (ih (by omega) (by simpa using hbound))

namespace Spun
variable {n : ℕ} {slot : Bool} {x y : Spun} {s t : State} {c : Choice}

/-- What a run of at most two tasks keeps. -/
structure Sound (n : ℕ) (slot : Bool) (x : Spun) (w : Worker) : Prop where
  enabled : x.state.lifoSlotEnabled = slot
  workers : x.state.workers = [w]
  solo : w.Solo slot
  tasks : (w.tasks ++ x.state.injector).Perm x.spawned
  nodup : x.spawned.Nodup
  bounded : ∀ task ∈ x.spawned, task < n
  polls : ∀ task ∈ x.polls, task < n
  waits : slot = true → x.spawned.length = 2 → ∀ task < 2,
    age task x.polls + delay task w ≤ 4

theorem Sound.new (n : ℕ) (slot : Bool) : Sound n slot (.new slot) .new where
  enabled := rfl
  workers := rfl
  solo := ⟨rfl, Nat.zero_le 3, trivial⟩
  tasks := .nil
  nodup := .nil
  bounded := nofun
  polls := nofun
  waits := nofun

theorem Sound.spawned_subset (h : Sound n slot x w) : x.spawned ⊆ List.range n :=
  fun task htask => List.mem_range.mpr (h.bounded task htask)

theorem Sound.room (h : Sound n slot x w) (hn : n ≤ 2) : w.queue.length < capacity := by
  have hspawned := (List.subperm_of_subset h.nodup h.spawned_subset).length_le
  have hlength := h.tasks.length_eq
  have hcapacity : capacity = 256 := rfl
  simp only [Worker.tasks, List.length_append, List.length_range] at hlength hspawned
  omega

theorem Sound.mem_of_spawned (h : Sound n slot x w) (hn : n ≤ 2) (hspawned : x.spawned.length = 2)
    {task : ℕ} (htask : task < 2) : task ∈ w.tasks ++ x.state.injector := by
  have hsub := List.subperm_of_subset h.nodup h.spawned_subset
  have hperm := hsub.perm_of_length_le (by rw [List.length_range]; omega)
  have htwo := hperm.length_eq
  rw [List.length_range] at htwo
  exact (h.tasks.trans hperm).mem_iff.mpr (List.mem_range.mpr (by omega))

theorem Sound.lifo_eq_none (h : Sound n slot x w) (hn : n ≤ 2) {task other : ℕ} (htask : task < 2)
    (hother : other ∈ w.place.tasks ++ w.queue ++ x.state.injector) (hne : other ≠ task)
    (hlifo : w.lifo ≠ some task) : w.lifo = none := by
  cases hslot : w.lifo with
  | none => rfl
  | some slot =>
    exfalso
    have hlt : ∀ a ∈ w.tasks ++ x.state.injector, a < n := fun a ha =>
      h.bounded a (h.tasks.mem_iff.mp ha)
    have hslotlt := hlt slot (by simp [Worker.tasks, hslot])
    have hotherlt := hlt other (by
      simp only [Worker.tasks, List.mem_append] at hother ⊢
      tauto)
    have hslotne : slot ≠ task := fun heq => hlifo (by rw [hslot, heq])
    obtain rfl : slot = other := by omega
    have hcount := List.nodup_iff_count.mp (h.tasks.nodup_iff.mpr h.nodup) slot
    have hpos := List.count_pos_iff.mpr hother
    simp only [Worker.tasks, hslot, Option.toList_some, List.count_append, List.count_cons_self,
      List.count_nil] at hcount hpos
    omega

theorem Sound.spawns (h : Sound n slot x w) {l : Label} (hspins : Spins n x l) :
    (Spun.spawns l ++ x.spawned).Nodup ∧ ∀ task ∈ Spun.spawns l ++ x.spawned, task < n := by
  have hcons : ∀ task, task < n ∧ task ∉ x.spawned →
      (task :: x.spawned).Nodup ∧ ∀ a ∈ task :: x.spawned, a < n := fun task htask =>
    ⟨List.nodup_cons.mpr ⟨htask.2, h.nodup⟩, List.forall_mem_cons.mpr ⟨htask.1, h.bounded⟩⟩
  cases l with
  | push task => exact hcons task hspins
  | driver l => exact ⟨h.nodup, h.bounded⟩
  | worker i c =>
    cases c with
    | schedule task target => exact hcons task hspins
    | next | spurious | start | claim | returns => exact ⟨h.nodup, h.bounded⟩

end Spun

theorem Move.polled_mem {slot : Bool} {task : ℕ}
    (h : Move slot w injector w' injector' fresh (some task)) : task ∈ w.tasks := by
  cases h with
  | polls _ source before few => simp [Worker.tasks, before]

/-- The history after a step. -/
theorem Move.age_le {task : ℕ} {polls : List ℕ}
    (h : Move true w injector w' injector' [] polled) (hmem : task ∈ w.tasks ++ injector)
    (hfree : ∀ other ∈ w.place.tasks ++ w.queue ++ injector, other ≠ task →
      w.lifo ≠ some task → w.lifo = none) (hwaits : age task polls + delay task w ≤ 4) :
    age task (polled.toList ++ polls) + delay task w' ≤ 4 := by
  by_cases hpolled : polled = some task
  · rw [hpolled, Option.toList_some, List.singleton_append, age_cons_self, Nat.zero_add]
    exact WorkerLoop.delay_le ..
  · have hdelay := h.delay_le hpolled hmem hfree
    cases polled with
    | none => exact (Nat.add_le_add_left hdelay _).trans hwaits
    | some other =>
      have hne : other ≠ task := fun heq => hpolled (congrArg some heq)
      rw [Option.toList_some, List.singleton_append, age_cons_of_ne hne]
      rw [Option.toList_some, List.length_singleton] at hdelay
      omega

namespace Spun
variable {n : ℕ} {slot : Bool} {x y : Spun} {s t : State} {c : Choice}

theorem step_eq_some {l : Label} (h : x.step l = some y) : ∃ t, x.state.step l = some t ∧
    y = ⟨t, spawns l ++ x.spawned,
      if spawns l = [] then (Spun.polled x.state l).toList ++ x.polls else []⟩ := by
  obtain ⟨t, ht, rfl⟩ := Option.map_eq_some_iff.mp h
  refine ⟨t, ht, ?_⟩
  cases hspawns : spawns l <;> simp

theorem Sound.worker (h : Sound n slot x w) (hn : n ≤ 2) (hspins : Spins n x (.worker 0 c))
    (hstep : x.state.next 0 w c = some t) :
    ∃ w', Sound n slot ⟨t, Spun.spawns (.worker 0 c) ++ x.spawned,
      if Spun.spawns (.worker 0 c) = [] then (Spun.polled x.state (.worker 0 c)).toList ++ x.polls
      else []⟩ w' := by
  have hwoken : ∀ woken, c = .returns woken → woken = true := by
    rintro woken rfl
    exact hspins
  obtain ⟨w', hworkers, hslot, hsolo, hmove⟩ :=
    State.move_of_next h.workers (h.enabled.symm ▸ h.solo) (h.room hn) hwoken hstep
  rw [h.enabled] at hslot hsolo hmove
  obtain ⟨hnodup, hbounded⟩ := h.spawns hspins
  refine ⟨w', hslot, hworkers, hsolo, hmove.perm.trans (h.tasks.append_left _), hnodup, hbounded,
    fun task htask => ?_, fun henabled hspawned task htask => ?_⟩
  · dsimp only at htask
    split_ifs at htask with hfresh
    · rcases List.mem_append.mp htask with hpolled | hbefore
      · rw [Option.mem_toList.mp hpolled] at hmove
        exact h.bounded task (h.tasks.mem_iff.mp (List.mem_append_left _ hmove.polled_mem))
      · exact h.polls task hbefore
    · cases htask
  · subst henabled
    dsimp only
    split_ifs with hfresh
    · rw [hfresh] at hmove hspawned
      exact hmove.age_le (h.mem_of_spawned hn hspawned htask)
        (fun other hother hne => h.lifo_eq_none hn htask hother hne)
        (h.waits rfl hspawned task htask)
    · rw [age_nil, Nat.zero_add]
      exact delay_le task w'

theorem Sound.step (h : Sound n slot x w) (hn : n ≤ 2) {l : Label} (hspins : Spins n x l)
    (hstep : x.step l = some y) : ∃ w', Sound n slot y w' := by
  obtain ⟨t, ht, rfl⟩ := step_eq_some hstep
  obtain ⟨i, c, w', rfl, hi, hnext⟩ | ⟨task, driver, rfl, hunpark, rfl⟩ |
    ⟨l, driver, rfl, howned, hdriver, rfl⟩ := State.step_cases ht
  · rw [h.workers] at hi
    cases i with
    | zero =>
      cases hi
      exact h.worker hn hspins hnext
    | succ i => cases hi
  · obtain ⟨hnodup, hbounded⟩ := h.spawns hspins
    refine ⟨w, h.enabled, h.workers, h.solo, ?_, hnodup, hbounded, nofun, fun _ _ task _ => ?_⟩
    · exact (List.append_assoc .. ▸ List.perm_append_singleton ..).trans (h.tasks.cons task)
    · exact (Nat.zero_add _).trans_le (delay_le task w)
  · exact ⟨w, h.enabled, h.workers, h.solo, h.tasks, h.nodup, h.bounded, h.polls, h.waits⟩

theorem sound_of_reachable (hn : n ≤ 2) (hx : Reachable step (Spins n) (.new slot) x) :
    ∃ w, Sound n slot x w := by
  refine hx.invariant (I := fun x => ∃ w, Sound n slot x w) ⟨_, .new n slot⟩ ?_
  rintro x l y ⟨w, h⟩ hspins hstep
  exact h.step hn hspins hstep

/-- A single task is polled whenever a task is. -/
theorem fair_of_single (hn : n ≤ 1) (lifoSlotEnabled : Bool) : Fair n lifoSlotEnabled 1 := by
  intro x hx hspawned hbound task htask
  obtain ⟨w, h⟩ := sound_of_reachable (by omega) hx
  obtain ⟨polled, polls, hpolls⟩ := List.exists_cons_of_length_pos hbound
  have hpolled := h.polls polled (by simp [hpolls])
  rw [hpolls]
  exact List.mem_singleton.mpr (by omega)

/-- With the LIFO slot, each of two tasks waits for at most four polls of the other. -/
theorem fair_of_two : Fair 2 true 5 := by
  intro x hx hspawned hbound task htask
  obtain ⟨w, h⟩ := sound_of_reachable le_rfl hx
  have hwaits := h.waits rfl hspawned task htask
  exact mem_take_of_age (by omega) hbound

/-- A runtime with one worker is fair to `n` tasks exactly when there is just one of them, or two
and the LIFO slot. -/
theorem fair_iff (n : ℕ) (lifoSlotEnabled : Bool) :
    (∃ bound, Fair n lifoSlotEnabled bound) ↔ n ≤ 1 ∨ lifoSlotEnabled = true ∧ n = 2 := by
  constructor
  · rintro ⟨bound, hfair⟩
    by_contra hn
    obtain ⟨hone, htwo⟩ := not_or.mp hn
    cases lifoSlotEnabled with
    | false => exact not_fair_without_slot (by omega) bound hfair
    | true =>
      have hne : n ≠ 2 := fun heq => htwo ⟨rfl, heq⟩
      exact not_fair_with_slot (by omega) bound hfair
  · rintro (hn | ⟨rfl, rfl⟩)
    · exact ⟨1, fair_of_single hn lifoSlotEnabled⟩
    · exact ⟨5, fair_of_two⟩

/-- No bound holds for every number of tasks. -/
theorem no_bound_is_fair : ¬ ∃ bound : ℕ → ℕ, ∀ n < capacity, ∀ lifoSlotEnabled,
    Fair n lifoSlotEnabled (bound n) := by
  rintro ⟨bound, hfair⟩
  exact not_fair_with_slot le_rfl (bound 3) (hfair 3 (by decide) true)

end Spun

end Eddy.WorkerLoop
