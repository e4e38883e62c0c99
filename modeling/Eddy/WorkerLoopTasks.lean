import Eddy.WorkerLoop

/-!
# Where the worker loop has a task

A task is queued when it is in the injector, in a LIFO slot or in a local queue, or when a thread
carries it from one of them to another or to its poll. Only a wake makes it so, and only its poll
ends it.
-/

namespace Eddy.WorkerLoop
open Interleaving

def Place.carried : Place → List ℕ
  | .keep _ task | .run task _ | .schedule task _ _ | .push task _ | .inject task _ => [task]
  | .copy _ _ _ task rest => task :: rest
  | .leave _ task => task.toList
  | .overflow task tasks _ | .spill task tasks _ => task :: tasks
  | .injectBatch tasks _ => tasks
  | .nextLifo | .pop | .takeInjected _ | .retake _ _ | .search _ | .count _ | .claim _ _
  | .steal _ _ | .unparkAny _ | .unmark _ _ | .notify _ _ | .mark | .checkInject | .checkLocal
  | .retreat | .enter | .parked | .poll _ => []

def Resume.polled : Resume → List ℕ
  | .polls task => [task]
  | .ended | .parked | .searched _ => []

/-- The task inside whose poll the thread is. -/
def Place.polled : Place → List ℕ
  | .poll task => [task]
  | .notify _ resume | .schedule _ _ resume | .push _ resume | .overflow _ _ resume
  | .spill _ _ resume | .injectBatch _ resume | .inject _ resume => resume.polled
  | .keep _ _ | .run _ _ | .copy _ _ _ _ _ | .leave _ _ | .nextLifo | .pop | .takeInjected _
  | .retake _ _ | .search _ | .count _ | .claim _ _ | .steal _ _ | .unparkAny _ | .unmark _ _
  | .mark | .checkInject | .checkLocal | .retreat | .enter | .parked => []

def Worker.entries (w : Worker) : List ℕ := w.lifo.toList ++ w.queue ++ w.place.carried

def Place.begins : Place → Choice → List ℕ
  | .run task _, .next => [task]
  | _, _ => []

def Place.ends : Place → Choice → List ℕ
  | .poll task, .returns _ => [task]
  | _, _ => []

/-- The task that is woken or spawned. -/
def Place.wakes : Place → Choice → List ℕ
  | _, .schedule task _ => [task]
  | .poll task, .returns true => [task]
  | _, _ => []

namespace State

def queued (s : State) (task : ℕ) : ℕ :=
  s.injector.count task + total (fun w => w.entries.count task) s.workers

/-- How many workers poll a task. -/
def polled (s : State) (task : ℕ) : ℕ := total (fun w => w.place.polled.count task) s.workers

structure Moves (s : State) (w : Worker) (c : Choice) (t : State) : Prop where
  queued : ∀ task, t.queued task + (w.place.begins c).count task =
    s.queued task + (w.place.wakes c).count task
  polled : ∀ task, t.polled task + (w.place.ends c).count task =
    s.polled task + (w.place.begins c).count task

variable {s t : State} {i : ℕ} {w w' : Worker} {c : Choice}

@[simp] theorem carried_searched (globalFirst : Bool) :
    (searched globalFirst).carried = [] ∧ (searched globalFirst).polled = [] := by
  cases globalFirst with
  | _ => exact ⟨rfl, rfl⟩

@[simp] theorem carried_injectorEmpty (globalFirst : Bool) :
    (injectorEmpty globalFirst).carried = [] ∧ (injectorEmpty globalFirst).polled = [] := by
  cases globalFirst with
  | _ => exact ⟨rfl, rfl⟩

@[simp] theorem carried_place (resume : Resume) :
    resume.place.carried = [] ∧ resume.place.polled = resume.polled := by
  cases resume with
  | searched globalFirst => exact carried_searched globalFirst
  | polls | ended | parked => exact ⟨rfl, rfl⟩

@[simp] theorem carried_after (resume : Resume) (n : Option Driver.Notify) :
    (resume.after n).carried = [] ∧ (resume.after n).polled = resume.polled := by
  cases n with
  | some n => exact ⟨rfl, rfl⟩
  | none => exact carried_place resume

/-- The step of a worker that changes no other. -/
theorem Moves.own (hi : s.workers[i]? = some w) (hworkers : t.workers = s.workers.set i w')
    (hqueued : ∀ task, t.injector.count task + w'.entries.count task +
      (w.place.begins c).count task =
        s.injector.count task + w.entries.count task + (w.place.wakes c).count task)
    (hpolled : ∀ task, w'.place.polled.count task + (w.place.ends c).count task =
      w.place.polled.count task + (w.place.begins c).count task) : s.Moves w c t := by
  refine ⟨fun task => ?_, fun task => ?_⟩
  · have htotal := total_set (fun w : Worker => w.entries.count task) hi w'
    have hq := hqueued task
    rw [State.queued, State.queued, hworkers]
    omega
  · have htotal := total_set (fun w : Worker => w.place.polled.count task) hi w'
    have hp := hpolled task
    rw [State.polled, State.polled, hworkers]
    omega

/-- The worker keeps its tasks. -/
theorem Moves.same (hi : s.workers[i]? = some w) (hworkers : t.workers = s.workers.set i w')
    (hinjector : t.injector = s.injector) (hentries : w'.entries = w.entries)
    (hpolled : w'.place.polled = w.place.polled) (hbegins : w.place.begins c = [])
    (hends : w.place.ends c = []) (hwakes : w.place.wakes c = []) : s.Moves w c t := by
  apply Moves.own hi hworkers
  · intro task
    rw [hinjector, hentries, hbegins, hwakes]
  · intro task
    rw [hpolled, hends, hbegins]

theorem Moves.goes {place : Place} (hi : s.workers[i]? = some w)
    (hworkers : t.workers = s.workers.set i (w.goTo place)) (hinjector : t.injector = s.injector)
    (hcarried : place.carried = w.place.carried) (hpolled : place.polled = w.place.polled)
    (hbegins : w.place.begins c = []) (hends : w.place.ends c = [])
    (hwakes : w.place.wakes c = []) : s.Moves w c t :=
  .same hi hworkers hinjector (congrArg (w.lifo.toList ++ w.queue ++ ·) hcarried) hpolled hbegins
    hends hwakes

/-- The step of a worker that changes the queue of another. -/
theorem Moves.pair {victim : ℕ} {v v' : Worker} (hi : s.workers[i]? = some w)
    (hv : s.workers[victim]? = some v) (hne : victim ≠ i)
    (hworkers : t.workers = (s.workers.set victim v').set i w')
    (hinjector : t.injector = s.injector) (hplace : v'.place = v.place)
    (hentries : ∀ task, v'.entries.count task + w'.entries.count task =
      v.entries.count task + w.entries.count task)
    (hpolled : w'.place.polled = w.place.polled) (hbegins : w.place.begins c = [])
    (hends : w.place.ends c = []) (hwakes : w.place.wakes c = []) : s.Moves w c t := by
  have hi' : (s.workers.set victim v')[i]? = some w := by
    rw [List.getElem?_set_ne hne, hi]
  refine ⟨fun task => ?_, fun task => ?_⟩
  · have hvictim := total_set (fun w : Worker => w.entries.count task) hv v'
    have hthief := total_set (fun w : Worker => w.entries.count task) hi' w'
    have hboth := hentries task
    rw [State.queued, State.queued, hworkers, hinjector, hbegins, hwakes]
    omega
  · have hvictim := total_set (fun w : Worker => w.place.polled.count task) hv v'
    have hthief := total_set (fun w : Worker => w.place.polled.count task) hi' w'
    rw [hplace] at hvictim
    rw [hpolled] at hthief
    rw [State.polled, State.polled, hworkers, hbegins, hends]
    omega

variable {task : ℕ} {p : Place}

theorem queue_of_popped (h : w.popped = some task) :
    w.queue = w.queue.dropLast ++ [task] := by
  unfold Worker.popped at h
  split at h
  · exact (List.dropLast_append_getLast? task h).symm
  · cases h

theorem Goes.tasks {q : Place} (h : s.Goes i w p c q) :
    q.carried = p.carried ∧ q.polled = p.polled ∧ p.begins c = [] ∧ p.ends c = [] ∧
      p.wakes c = [] := by
  cases h with
  | tooMany globalFirst | counted globalFirst | noneParked globalFirst =>
    exact ⟨(carried_searched globalFirst).1, (carried_searched globalFirst).2, rfl, rfl, rfl⟩
  | _ => exact ⟨rfl, rfl, rfl, rfl, rfl⟩

theorem Moves.pops {lifoPolls : ℕ} {source : Source} (hi : s.workers[i]? = some w)
    (hpopped : w.popped = some task) (hcarried : w.place.carried = [])
    (hpolled : w.place.polled = []) (hbegins : w.place.begins c = []) (hends : w.place.ends c = [])
    (hwakes : w.place.wakes c = []) :
    s.Moves w c (s.setWorker i
      { w with queue := w.queue.dropLast, lifoPolls, place := .run task source }) := by
  refine .own hi rfl (fun x => ?_) fun x => ?_
  · have hcount := congrArg (List.count x) (queue_of_popped hpopped)
    rw [List.count_append] at hcount
    have hentries : w.entries = w.lifo.toList ++ w.queue := by
      rw [Worker.entries, hcarried, List.append_nil]
    rw [hbegins, hwakes, hentries]
    change s.injector.count x + (w.lifo.toList ++ w.queue.dropLast ++ [task]).count x + _ = _
    simp only [List.count_append]
    omega
  · rw [hpolled, hends, hbegins]
    rfl

theorem next_moves (hi : s.workers[i]? = some w) (h : s.next i w c = some t) :
    s.Moves w c t := by
  have hsteps := steps_of_next h
  obtain ⟨place, lifo, queue, claimed, tick, lifoPolls⟩ := w
  dsimp only at hsteps
  cases hsteps with
  | goes goes =>
    obtain ⟨hcarried, hpolled, hbegins, hends, hwakes⟩ := goes.tasks
    exact .goes hi rfl rfl hcarried hpolled hbegins hends hwakes
  | capped | wins | unmarks | marks | retreats | enters | unparks =>
    exact .same hi rfl rfl rfl rfl rfl rfl rfl
  | takesLifo task few hsome =>
    obtain rfl : lifo = some task := hsome
    refine .own hi rfl (fun x => ?_) fun _ => rfl
    simp [Worker.entries, Place.carried, Place.begins, Place.wakes, setWorker, List.count_cons]
  | pops task popped => exact .pops hi popped rfl rfl rfl rfl rfl
  | ticks =>
    split_ifs
    · exact .same hi rfl rfl rfl rfl rfl rfl rfl
    · exact .same hi rfl rfl rfl rfl rfl rfl rfl
  | takes globalFirst task injector hinjector =>
    refine .own hi rfl (fun x => ?_) fun _ => rfl
    simp [Worker.entries, Place.carried, Place.begins, Place.wakes, setWorker, Worker.goTo,
      hinjector, List.count_cons]
    omega
  | misses globalFirst | robbed globalFirst =>
    exact .goes hi rfl rfl (carried_injectorEmpty globalFirst).1
      (carried_injectorEmpty globalFirst).2 rfl rfl rfl
  | keeps | overflows =>
    refine .same hi rfl rfl ?_ rfl rfl rfl rfl
    simp [Worker.entries, Place.carried]
  | retakes globalFirst task popped some => exact .pops hi some rfl rfl rfl rfl rfl
  | claims globalFirst victim count task rest stolen v found taken other =>
    refine .pair hi found other rfl rfl rfl (fun x => ?_) rfl rfl rfl rfl
    have hqueue := congrArg (List.count x) (List.take_append_drop count v.queue)
    rw [taken, List.count_append] at hqueue
    simp only [Worker.entries, Worker.goTo, Place.carried, List.count_append, List.count_nil]
    omega
  | copies =>
    refine .own hi rfl (fun x => ?_) fun _ => rfl
    simp [Worker.entries, Place.carried, Place.begins, Place.wakes, setWorker, List.count_cons]
    omega
  | commits globalFirst victim count task v found =>
    by_cases hne : victim = i
    · subst hne
      exact .goes hi (List.set_set _) rfl rfl rfl rfl rfl rfl
    · exact .pair hi found hne rfl rfl rfl (fun _ => rfl) rfl rfl rfl rfl
  | leaves globalFirst task =>
    cases task with
    | some task => exact .same hi rfl rfl rfl rfl rfl rfl rfl
    | none =>
      dsimp only
      split_ifs
      · exact .same hi rfl rfl rfl rfl rfl rfl rfl
      · exact .goes hi rfl rfl (carried_searched globalFirst).1 (carried_searched globalFirst).2
          rfl rfl rfl
  | notifies n resume =>
    exact .goes hi rfl rfl (carried_after _ _).1 (carried_after _ _).2 rfl rfl rfl
  | looks | decides =>
    split_ifs
    · exact .same hi rfl rfl rfl rfl rfl rfl rfl
    · exact .same hi rfl rfl rfl rfl rfl rfl rfl
  | runs =>
    refine .own hi rfl (fun x => ?_) fun x => ?_
    · simp [Worker.entries, Place.carried, Place.begins, Place.wakes, setWorker, Worker.goTo]
      omega
    · simp [Place.polled, Place.begins, Place.ends, Worker.goTo]
  | wakes | releases =>
    refine .own hi rfl (fun x => ?_) fun _ => rfl
    simp [Worker.entries, Place.carried, Place.begins, Place.wakes, setWorker, Worker.goTo]
    omega
  | returns task woken =>
    cases woken with
    | true =>
      refine .own hi rfl (fun x => ?_) fun x => ?_
      · simp [Worker.entries, Place.carried, Place.begins, Place.wakes, setWorker, Worker.goTo]
        omega
      · simp [Place.polled, Place.begins, Place.ends, Worker.goTo, Resume.polled]
    | false =>
      refine .own hi rfl (fun _ => rfl) fun x => ?_
      simp [Place.polled, Place.begins, Place.ends, Worker.goTo]
  | fills task target resume own slot =>
    obtain rfl : lifo = none := slot.2
    refine .own hi rfl (fun x => ?_) fun x => congrArg (List.count x) (carried_place resume).2
    change s.injector.count x + ([task] ++ queue ++ resume.place.carried).count x =
      s.injector.count x + (queue ++ [task]).count x
    rw [(carried_place resume).1, List.append_nil, List.count_append, List.count_append]
    omega
  | pushes task resume =>
    refine .same hi rfl rfl ?_ (carried_place _).2 rfl rfl rfl
    change lifo.toList ++ (queue ++ [task]) ++ resume.place.carried =
      lifo.toList ++ queue ++ [task]
    rw [(carried_place resume).1, List.append_nil, List.append_assoc]
  | spills task first tasks staged resume taken =>
    refine .own hi rfl (fun x => ?_) fun _ => rfl
    have hqueue := congrArg (List.count x)
      (List.take_append_drop (LocalQueue.stealCount queue.length capacity) queue)
    rw [show queue.take (LocalQueue.stealCount queue.length capacity) = first :: staged from taken,
      List.count_append] at hqueue
    simp [Worker.entries, Place.carried, Place.begins, Place.wakes, setWorker,
      List.count_cons] at hqueue ⊢
    omega
  | injects tasks resume before hbefore =>
    rcases hbefore with rfl | ⟨task, rfl, rfl⟩
    all_goals
      refine .own hi rfl (fun x => ?_) fun _ => rfl
      simp [Worker.entries, Place.carried, Place.begins, Place.wakes, setWorker, Worker.goTo]
      omega

theorem queued_pos (hi : s.workers[i]? = some w) (h : task ∈ w.place.carried) :
    0 < s.queued task := by
  have hentry : 0 < w.entries.count task := List.count_pos_iff.mpr (List.mem_append_right _ h)
  have htotal := le_total (fun w : Worker => w.entries.count task) hi
  rw [queued]
  omega

theorem polled_pos (hi : s.workers[i]? = some w) (h : task ∈ w.place.polled) :
    0 < s.polled task :=
  (List.count_pos_iff.mpr h).trans_le (le_total (fun w : Worker => w.place.polled.count task) hi)

theorem queued_setWorker (hi : s.workers[i]? = some w) (hentries : w'.entries = w.entries)
    (task : ℕ) : (s.setWorker i w').queued task = s.queued task := by
  have htotal := total_set (fun w : Worker => w.entries.count task) hi w'
  rw [hentries] at htotal
  simp only [queued, setWorker]
  omega

theorem polled_setWorker (hi : s.workers[i]? = some w) (w' : Worker) (task : ℕ) :
    (s.setWorker i w').polled task + w.place.polled.count task =
      s.polled task + w'.place.polled.count task :=
  total_set (fun w : Worker => w.place.polled.count task) hi w'

theorem carried_of_begins (h : task ∈ p.begins c) : task ∈ p.carried := by
  unfold Place.begins at h
  split at h
  · exact h
  · cases h

theorem polled_of_ends (h : task ∈ p.ends c) : task ∈ p.polled := by
  unfold Place.ends at h
  split at h
  · exact h
  · cases h

/-- A task is woken by the thread, or it was woken when its poll returns. -/
theorem wakes_cases (p : Place) (c : Choice) :
    (∃ task target, c = .schedule task target ∧ p.wakes c = [task]) ∨
      c = .returns true ∧ p.wakes c = p.ends c ∨ p.wakes c = [] := by
  unfold Place.wakes
  split
  · exact .inl ⟨_, _, rfl, rfl⟩
  · exact .inr (.inl ⟨rfl, rfl⟩)
  · exact .inr (.inr rfl)

end State

end Eddy.WorkerLoop
