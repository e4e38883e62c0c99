import Mathlib.Data.ENat.Basic
import Mathlib.Algebra.BigOperators.Group.Finset.Piecewise
import Mathlib.Algebra.Order.BigOperators.Group.Finset
import Eddy.WorkerLoopStarvation
import Eddy.WorkerLoopTasks

/-!
# Workers in `block_in_place`

A task calls `block_in_place_on_worker` inside its poll, and a takeover thread goes on with the loop
of the worker; the tasks that it polls may call `block_in_place` again. Once the future of the call
is ready, the takeover thread leaves when it looks at `requested` with nothing in its LIFO slot and
in its local queue. The hand-offs are one step each, every takeover thread starts, and shutdown is
left out.
-/

namespace Eddy.WorkerLoop
open Interleaving

structure Takeover where
  /-- The task that has called `block_in_place`. -/
  task : ℕ
  /-- `tick` and `lifo_polls` of the loop that polls the task. -/
  tick : UInt32
  lifoPolls : ℕ
  requested : Bool
  /-- It has looked at `requested` in this iteration. -/
  looked : Bool
  /-- How many polls it has begun since it came, or since the request. -/
  polls : ℕ
  /-- How many tasks were woken or spawned since then. -/
  wakes : ℕ
  /-- How many steps it has made since then, and how many of them others have disturbed. -/
  steps : ℕ
  disturbed : ℕ

/-- A thief has a claim on the queue in flight, or the exchange of `searching` fails. -/
def Worker.disturbed (w : Worker) (searching : ℕ) (c : Choice) : Bool :=
  w.claimed ≠ 0 ||
    match w.place, c with
    | .claim _ _, .spurious => true
    | .claim _ count, .start _ => searching ≠ count
    | _, _ => false

namespace Takeover

def new (task : ℕ) (w : Worker) : Takeover := ⟨task, w.tick, w.lifoPolls, false, false, 0, 0, 0, 0⟩

def stepped (k : Takeover) (disturbed : Bool) : Takeover :=
  { k with steps := k.steps + 1, disturbed := k.disturbed + disturbed.toNat }

/-- A step in the loop; it cannot park before its look. -/
def advance (k : Takeover) (place : Place) (c : Choice) (disturbed : Bool) : Option Takeover :=
  match place with
  | .mark => if k.looked then some { k.stepped disturbed with looked := false } else none
  | _ => some { k.stepped disturbed with
      looked := false, polls := k.polls + (place.begins c).length }

def woken (tasks : List ℕ) (k : Takeover) : Takeover := { k with wakes := k.wakes + tasks.length }

def request (k : Takeover) : Takeover :=
  { k with requested := true, polls := 0, wakes := 0, steps := 0, disturbed := 0 }

end Takeover

/-- The innermost takeover thread runs the loop. -/
def advance (place : Place) (c : Choice) (disturbed : Bool) :
    List Takeover → Option (List Takeover)
  | [] => some []
  | k :: outer => (k.advance place c disturbed).map fun k => k :: outer

/-- A runtime whose workers may be blocked. -/
structure Served where
  state : State
  /-- Those of each worker, the innermost first. -/
  takeovers : List (List Takeover)

namespace Served

inductive Label where
  | worker (i : ℕ) (choice : Choice)
  | push (task : ℕ)
  | driver (l : Driver.Label)
  /-- The task that worker `i` polls calls `block_in_place`. -/
  | block (i : ℕ)
  /-- The future of a call is ready: `requested` is set, and the worker unparked. -/
  | request (i j : ℕ)
  /-- The innermost takeover thread of worker `i` looks at `requested`. -/
  | look (i : ℕ)

def new (workers : ℕ) (lifoSlotEnabled : Bool) : Served :=
  ⟨.new workers lifoSlotEnabled, List.replicate workers []⟩

def wake (x : Served) (tasks : List ℕ) : Served :=
  { x with takeovers := x.takeovers.map (List.map (Takeover.woken tasks)) }

/-- The look of the takeover thread `k` of worker `i`. -/
def look (x : Served) (i : ℕ) (w : Worker) (k : Takeover) (outer : List Takeover) : Served :=
  if k.requested ∧ w.lifo = none ∧ w.len = 0 then
    ⟨x.state.setWorker i { w with
      place := .poll k.task, tick := k.tick, lifoPolls := k.lifoPolls }, x.takeovers.set i outer⟩
  else { x with takeovers :=
    x.takeovers.set i ({ k.stepped (w.claimed ≠ 0) with looked := true } :: outer) }

def step (x : Served) : Label → Option Served
  | .worker i c =>
    x.state.workers[i]?.bind fun w => x.takeovers[i]?.bind fun ks =>
      (advance w.place c (w.disturbed x.state.searching c) ks).bind fun ks =>
        (x.state.next i w c).map fun state =>
          wake ⟨state, x.takeovers.set i ks⟩ (w.place.wakes c)
  | .push task => (x.state.step (.push task)).map fun state => wake { x with state } [task]
  | .driver l => (x.state.step (.driver l)).map fun state => { x with state }
  | .block i =>
    x.state.workers[i]?.bind fun w => x.takeovers[i]?.bind fun ks =>
      match w.place with
      | .poll task =>
        some ⟨x.state.setWorker i { w with place := .nextLifo, tick := 0, lifoPolls := 0 },
          x.takeovers.set i (.new task w :: ks)⟩
      | _ => none
  | .request i j =>
    x.takeovers[i]?.bind fun ks => ks[j]?.bind fun k =>
      if k.requested then none
      else (x.state.driver.step .unpark).map fun driver =>
        ⟨{ x.state with driver }, x.takeovers.set i (ks.set j k.request)⟩
  | .look i =>
    x.state.workers[i]?.bind fun w => x.takeovers[i]?.bind fun ks =>
      match w.place, ks with
      | .mark, k :: outer => if k.looked then none else some (x.look i w k outer)
      | _, _ => none

/-- How many threads are blocked inside a poll of the task. -/
def blocked (x : Served) (task : ℕ) : ℕ :=
  total (fun ks => (ks.map Takeover.task).count task) x.takeovers

def occupied (x : Served) (task : ℕ) : ℕ :=
  x.state.queued task + x.state.polled task + x.blocked task

/-- One more wake does not exceed the limit. -/
def Spare (limit : ℕ∞) (x : Served) : Prop :=
  ∀ ks ∈ x.takeovers, ∀ k ∈ ks, k.requested = true → (k.wakes : ℕ∞) < limit

/-- The tasks are those up to `n`: one that blocks a worker, and `n` others. A task is scheduled
when it is neither queued nor polled, or when its poll returns, and not more than `limit` times
after a request. -/
def Serves (n : ℕ) (limit : ℕ∞) (x : Served) : Label → Prop
  | .push task | .worker _ (.schedule task _) => task ≤ n ∧ x.occupied task = 0 ∧ x.Spare limit
  | .worker _ (.returns woken) => woken = true → x.Spare limit
  | _ => True

variable {x y : Served} {s t : State} {i n : ℕ} {w : Worker} {c : Choice} {limit : ℕ∞}
  {ks ks' : List Takeover} {k k' : Takeover}

/-- Every label with the conditions under which it is possible and what it leaves. -/
inductive Steps (x : Served) : Label → Served → Prop
  | worker {i : ℕ} {c : Choice} {w : Worker} {ks ks' : List Takeover} {t : State}
      (hi : x.state.workers[i]? = some w) (hks : x.takeovers[i]? = some ks)
      (hadvance : advance w.place c (w.disturbed x.state.searching c) ks = some ks')
      (hnext : x.state.next i w c = some t) :
      Steps x (.worker i c) (wake ⟨t, x.takeovers.set i ks'⟩ (w.place.wakes c))
  | push (task : ℕ) (driver : Driver.DriverShared) :
      Steps x (.push task) (wake ⟨{ x.state with
        injector := x.state.injector ++ [task], driver }, x.takeovers⟩ [task])
  | driver (l : Driver.Label) (driver : Driver.DriverShared) :
      Steps x (.driver l) { x with state := { x.state with driver } }
  | block {i task : ℕ} {lifo : Option ℕ} {queue : List ℕ} {claimed : ℕ} {tick : UInt32}
      {lifoPolls : ℕ} {ks : List Takeover}
      (hi : x.state.workers[i]? = some ⟨.poll task, lifo, queue, claimed, tick, lifoPolls⟩)
      (hks : x.takeovers[i]? = some ks) :
      Steps x (.block i) ⟨x.state.setWorker i ⟨.nextLifo, lifo, queue, claimed, 0, 0⟩,
        x.takeovers.set i (⟨task, tick, lifoPolls, false, false, 0, 0, 0, 0⟩ :: ks)⟩
  | request {i j : ℕ} {ks : List Takeover} {k : Takeover} (driver : Driver.DriverShared)
      (hks : x.takeovers[i]? = some ks) (hk : ks[j]? = some k) :
      Steps x (.request i j) ⟨{ x.state with driver }, x.takeovers.set i (ks.set j k.request)⟩
  | leaves {i : ℕ} {queue : List ℕ} {claimed : ℕ} {tick : UInt32} {lifoPolls : ℕ} {k : Takeover}
      {outer : List Takeover}
      (hi : x.state.workers[i]? = some ⟨.mark, none, queue, claimed, tick, lifoPolls⟩)
      (hks : x.takeovers[i]? = some (k :: outer)) :
      Steps x (.look i) ⟨x.state.setWorker i
        ⟨.poll k.task, none, queue, claimed, k.tick, k.lifoPolls⟩, x.takeovers.set i outer⟩
  | stays {i : ℕ} {lifo : Option ℕ} {queue : List ℕ} {claimed : ℕ} {tick : UInt32}
      {lifoPolls : ℕ} {k : Takeover} {outer : List Takeover}
      (hi : x.state.workers[i]? = some ⟨.mark, lifo, queue, claimed, tick, lifoPolls⟩)
      (hks : x.takeovers[i]? = some (k :: outer)) (hlooked : k.looked = false)
      (hstays : ¬ (k.requested ∧ lifo = none ∧ queue.length + claimed = 0)) :
      Steps x (.look i) ⟨x.state,
        x.takeovers.set i ({ (k.stepped (claimed ≠ 0)) with looked := true } :: outer)⟩

theorem steps_of_eq {l : Label} (hs : x.step l = some y) : x.Steps l y := by
  cases l with
  | worker i c =>
    obtain ⟨w, hi, hs⟩ := Option.bind_eq_some_iff.mp hs
    obtain ⟨ks, hks, hs⟩ := Option.bind_eq_some_iff.mp hs
    obtain ⟨ks', hadvance, hs⟩ := Option.bind_eq_some_iff.mp hs
    obtain ⟨t, hnext, rfl⟩ := Option.map_eq_some_iff.mp hs
    exact .worker hi hks hadvance hnext
  | push task =>
    simp only [step] at hs
    obtain ⟨state, hstate, rfl⟩ := Option.map_eq_some_iff.mp hs
    simp only [State.step] at hstate
    obtain ⟨driver, -, rfl⟩ := Option.map_eq_some_iff.mp hstate
    exact .push task driver
  | driver l =>
    obtain ⟨state, hstate, rfl⟩ := Option.map_eq_some_iff.mp hs
    obtain ⟨-, hdriver⟩ := Option.ite_none_right_eq_some.mp hstate
    obtain ⟨driver, -, rfl⟩ := Option.map_eq_some_iff.mp hdriver
    exact .driver l driver
  | block i =>
    obtain ⟨⟨place, lifo, queue, claimed, tick, lifoPolls⟩, hi, hs⟩ :=
      Option.bind_eq_some_iff.mp hs
    obtain ⟨ks, hks, hs⟩ := Option.bind_eq_some_iff.mp hs
    cases place with
    | poll task =>
      cases hs
      exact .block hi hks
    | _ => cases hs
  | request i j =>
    obtain ⟨ks, hks, hs⟩ := Option.bind_eq_some_iff.mp hs
    obtain ⟨k, hk, hs⟩ := Option.bind_eq_some_iff.mp hs
    obtain ⟨-, hs⟩ := Option.ite_none_left_eq_some.mp hs
    obtain ⟨driver, -, rfl⟩ := Option.map_eq_some_iff.mp hs
    exact .request driver hks hk
  | look i =>
    obtain ⟨⟨place, lifo, queue, claimed, tick, lifoPolls⟩, hi, hs⟩ :=
      Option.bind_eq_some_iff.mp hs
    obtain ⟨ks, hks, hs⟩ := Option.bind_eq_some_iff.mp hs
    split at hs
    · rename_i k outer hplace
      obtain rfl : place = .mark := hplace
      obtain ⟨hlooked, hs⟩ := Option.ite_none_left_eq_some.mp hs
      unfold Served.look at hs
      split_ifs at hs with hleaves
      · obtain rfl : lifo = none := hleaves.2.1
        cases hs
        exact .leaves hi hks
      · cases hs
        exact .stays hi hks (by simpa using hlooked) hleaves
    · cases hs

structure Advanced (begun woken : ℕ) (k k' : Takeover) : Prop where
  requested : k'.requested = k.requested
  polls : k'.polls ≤ k.polls + begun
  wakes : k'.wakes = k.wakes + woken

theorem Advanced.refl (begun : ℕ) (k : Takeover) : Advanced begun 0 k k :=
  ⟨rfl, Nat.le_add_right _ _, rfl⟩

theorem Advanced.woken {begun : ℕ} (h : Advanced begun 0 k k') (tasks : List ℕ) :
    Advanced begun tasks.length k (k'.woken tasks) :=
  ⟨h.requested, h.polls, congrArg (· + tasks.length) h.wakes⟩

variable {task : ℕ} {place : Place} {disturbed : Bool}

theorem advanced_of_advance
    (h : k.advance place c disturbed = some k') :
    k'.task = k.task ∧ Advanced (place.begins c).length 0 k k' := by
  unfold Takeover.advance at h
  split at h
  · obtain ⟨-, hk⟩ := Option.ite_none_right_eq_some.mp h
    obtain rfl := Option.some.inj hk
    exact ⟨rfl, rfl, Nat.le_add_right _ _, rfl⟩
  · obtain rfl := Option.some.inj h
    exact ⟨rfl, rfl, le_rfl, rfl⟩

/-- A step of the loop counts. -/
theorem stepped_of_advance
    (h : k.advance place c disturbed = some k') :
    (place = .mark → k.looked = true) ∧ k'.looked = false ∧ k'.steps = k.steps + 1 ∧
      k'.disturbed = k.disturbed + disturbed.toNat := by
  unfold Takeover.advance at h
  split at h
  · obtain ⟨hlooked, hk⟩ := Option.ite_none_right_eq_some.mp h
    obtain rfl := Option.some.inj hk
    exact ⟨fun _ => hlooked, rfl, rfl, rfl⟩
  · rename_i hplace
    obtain rfl := Option.some.inj h
    exact ⟨fun hmark => absurd hmark hplace, rfl, rfl, rfl⟩

/-- The tasks of the threads stay, and only the innermost one goes on. -/
theorem advance_spec (h : advance place c disturbed ks = some ks') :
    ks'.map Takeover.task = ks.map Takeover.task ∧
      ∀ k' ∈ ks', ∃ k ∈ ks, Advanced (place.begins c).length 0 k k' := by
  cases ks with
  | nil =>
    obtain rfl := Option.some.inj h
    exact ⟨rfl, nofun⟩
  | cons k outer =>
    obtain ⟨k', hk', rfl⟩ := Option.map_eq_some_iff.mp h
    obtain ⟨htask, hadvanced⟩ := advanced_of_advance hk'
    refine ⟨congrArg (· :: outer.map Takeover.task) htask, fun j hj => ?_⟩
    rcases List.mem_cons.mp hj with rfl | hj
    · exact ⟨k, List.mem_cons_self, hadvanced⟩
    · exact ⟨j, List.mem_cons_of_mem _ hj, .refl _ _⟩

theorem blocked_wake (x : Served) (tasks : List ℕ) (task : ℕ) :
    (x.wake tasks).blocked task = x.blocked task := by
  simp only [blocked, wake, total, List.map_map, Function.comp_def, Takeover.woken]

theorem blocked_set (hks : x.takeovers[i]? = some ks) (ks' : List Takeover) (state : State)
    (task : ℕ) :
    blocked ⟨state, x.takeovers.set i ks'⟩ task + (ks.map Takeover.task).count task =
      x.blocked task + (ks'.map Takeover.task).count task :=
  total_set (fun ks => (ks.map Takeover.task).count task) hks ks'

/-- How often the tasks up to `n` are queued. -/
def load (n : ℕ) (x : Served) : ℕ := ∑ task ∈ Finset.range (n + 1), x.state.queued task

/-- No task is in two places. -/
def Apart (n : ℕ) (x : Served) : Prop := ∀ task, x.occupied task ≤ if task ≤ n then 1 else 0

theorem Apart.le_of_occupied (h : x.Apart n) (ho : 0 < x.occupied task) : task ≤ n := by
  by_contra hlarge
  have hnone := h task
  rw [if_neg hlarge] at hnone
  omega

/-- The tasks that are in a list of tasks up to `n`. -/
theorem sum_count {tasks : List ℕ} (h : ∀ task ∈ tasks, task ≤ n) :
    ∑ task ∈ Finset.range (n + 1), tasks.count task = tasks.length := by
  have hcard := Multiset.sum_count_eq_card (s := Finset.range (n + 1)) (m := (tasks : Multiset ℕ))
    fun task htask => Finset.mem_range_succ_iff.mpr (h task htask)
  simpa using hcard

theorem load_of_moves (hmoves : x.state.Moves w c t) (hbegins : ∀ task ∈ w.place.begins c, task ≤ n)
    (hwakes : ∀ task ∈ w.place.wakes c, task ≤ n) (lists : List (List Takeover)) :
    load n ⟨t, lists⟩ + (w.place.begins c).length = load n x + (w.place.wakes c).length := by
  rw [load, load, ← sum_count hbegins, ← sum_count hwakes, ← Finset.sum_add_distrib,
    ← Finset.sum_add_distrib]
  exact Finset.sum_congr rfl fun task _ => hmoves.queued task

theorem queued_push (s : State) (task task' : ℕ) (driver : Driver.DriverShared) :
    State.queued { s with injector := s.injector ++ [task], driver } task' =
      s.queued task' + [task].count task' := by
  simp only [State.queued, List.count_append]
  omega

theorem load_of_push (hle : task ≤ n) (driver : Driver.DriverShared) :
    load n ⟨{ x.state with injector := x.state.injector ++ [task], driver }, x.takeovers⟩ + 0 =
      x.load n + [task].length := by
  have hsum : ∑ task' ∈ Finset.range (n + 1), [task].count task' = [task].length :=
    sum_count (by simpa using hle)
  rw [Nat.add_zero, ← hsum, load, load, ← Finset.sum_add_distrib]
  exact Finset.sum_congr rfl fun task' _ => queued_push x.state task task' driver

/-- What is queued, polled and blocked after a step of a worker. -/
theorem occupied_of_moves (hmoves : x.state.Moves w c t) (hks : x.takeovers[i]? = some ks)
    (htasks : ks'.map Takeover.task = ks.map Takeover.task) (task : ℕ) :
    (wake ⟨t, x.takeovers.set i ks'⟩ (w.place.wakes c)).occupied task +
        (w.place.ends c).count task =
      x.occupied task + (w.place.wakes c).count task := by
  have hqueued := hmoves.queued task
  have hpolled := hmoves.polled task
  have hset := blocked_set hks ks' t task
  rw [htasks] at hset
  rw [occupied, occupied, blocked_wake]
  simp only [wake]
  omega

theorem Apart.begins (h : x.Apart n) (hi : x.state.workers[i]? = some w)
    (htask : task ∈ w.place.begins c) : task ≤ n := by
  have hpos := State.queued_pos hi (State.carried_of_begins htask)
  exact h.le_of_occupied (by rw [occupied]; omega)

theorem Apart.wakes (h : x.Apart n) (hi : x.state.workers[i]? = some w)
    (hserves : x.Serves n limit (.worker i c)) :
    (∀ task, x.occupied task + (w.place.wakes c).count task ≤
        (if task ≤ n then 1 else 0) + (w.place.ends c).count task) ∧
      ∀ task ∈ w.place.wakes c, task ≤ n := by
  rcases State.wakes_cases w.place c with ⟨task, target, rfl, hwakes⟩ | ⟨-, hwakes⟩ | hwakes
  · obtain ⟨hle, hfree, -⟩ := hserves
    rw [hwakes]
    refine ⟨fun task' => ?_, fun task' htask' => ?_⟩
    · by_cases heq : task' = task
      · subst heq
        rw [hfree, if_pos hle, List.count_singleton_self]
        omega
      · have := h task'
        rw [List.count_eq_zero_of_not_mem (by simpa using heq)]
        omega
    · rw [List.mem_singleton.mp htask']
      exact hle
  · rw [hwakes]
    refine ⟨fun task => Nat.add_le_add_right (h task) _, fun task htask => h.le_of_occupied ?_⟩
    have hpos := State.polled_pos hi (State.polled_of_ends htask)
    rw [occupied]
    omega
  · rw [hwakes]
    exact ⟨fun task => (h task).trans (Nat.le_add_right _ _), nofun⟩

/-- The polls of a takeover thread are paid for by the tasks that were queued when it was asked to
leave, and by those woken since. -/
structure Within (n : ℕ) (limit : ℕ∞) (load : ℕ) (k : Takeover) : Prop where
  polls : k.requested = true → k.polls + load ≤ n + k.wakes
  wakes : k.requested = true → (k.wakes : ℕ∞) ≤ limit
  pos : 0 < k.polls + k.wakes → 0 < n

theorem Within.advanced {load load' begun woken : ℕ} (h : Within n limit load k)
    (hk : Advanced begun woken k k') (hload : load' + begun = load + woken)
    (hlimit : woken ≠ 0 → k.requested = true → (k.wakes : ℕ∞) < limit) (hone : woken ≤ 1)
    (hpos : 0 < begun + woken → 0 < n) : Within n limit load' k' := by
  have hpolls := hk.polls
  have hwakes := hk.wakes
  refine ⟨fun hrequested => ?_, fun hrequested => ?_, fun hsome => ?_⟩
  · rw [hk.requested] at hrequested
    have := h.polls hrequested
    omega
  · rw [hk.requested] at hrequested
    rw [hwakes]
    by_cases hnone : woken = 0
    · rw [hnone]
      exact h.wakes hrequested
    · obtain rfl : woken = 1 := by omega
      exact_mod_cast Order.add_one_le_of_lt (hlimit hnone hrequested)
  · by_cases hnone : begun + woken = 0
    · exact h.pos (by omega)
    · exact hpos (Nat.pos_of_ne_zero hnone)

theorem blocked_pos (hks : ks ∈ x.takeovers) (hk : k ∈ ks) : 0 < x.blocked k.task := by
  obtain ⟨i, hi⟩ := List.mem_iff_getElem?.mp hks
  exact (List.count_pos_iff.mpr (List.mem_map_of_mem hk)).trans_le
    (le_total (fun ks => (ks.map Takeover.task).count k.task) hi)

/-- A task beside one that is blocked shows that there are two. -/
theorem Apart.pos (h : x.Apart n) (hks : ks ∈ x.takeovers) (hk : k ∈ ks) (hle : task ≤ n)
    (hfree : x.state.queued task + x.state.polled task = 0 → x.blocked task = 0) : 0 < n := by
  have hblocked := blocked_pos hks hk
  have hle' := h.le_of_occupied (show 0 < x.occupied k.task by rw [occupied]; omega)
  have hne : task ≠ k.task := by
    rintro rfl
    have hone := h k.task
    rw [occupied, if_pos hle'] at hone
    omega
  omega

/-- The blocked task is not queued. -/
theorem Apart.load_le (h : x.Apart n) (hks : ks ∈ x.takeovers) (hk : k ∈ ks) : x.load n ≤ n := by
  have hblocked := blocked_pos hks hk
  have hle := h.le_of_occupied (show 0 < x.occupied k.task by rw [occupied]; omega)
  have hsum : ∑ task ∈ Finset.range (n + 1),
      (x.state.queued task + if k.task = task then 1 else 0) ≤
        ∑ _task ∈ Finset.range (n + 1), 1 := by
    refine Finset.sum_le_sum fun task htask => ?_
    have hone := h task
    rw [occupied, if_pos (Finset.mem_range_succ_iff.mp htask)] at hone
    split
    · rename_i heq
      subst heq
      omega
    · omega
  rw [Finset.sum_add_distrib, Finset.sum_ite_eq, if_pos (Finset.mem_range_succ_iff.mpr hle),
    ← Finset.card_eq_sum_ones, Finset.card_range] at hsum
  rw [load]
  omega

/-- A step of a worker wakes at most one task, and only below the limit. -/
theorem Serves.wakes (h : x.Serves n limit (.worker i c)) (w : Worker) :
    (w.place.wakes c).length ≤ 1 ∧ ((w.place.wakes c).length ≠ 0 → x.Spare limit) := by
  rcases State.wakes_cases w.place c with ⟨task, target, rfl, hwakes⟩ | ⟨rfl, -⟩ | hwakes
  · rw [hwakes]
    exact ⟨le_rfl, fun _ => h.2.2⟩
  · refine ⟨?_, fun _ => h rfl⟩
    unfold Place.wakes
    split
    · exact le_rfl
    · exact le_rfl
    · exact Nat.zero_le _
  · rw [hwakes]
    exact ⟨Nat.zero_le _, fun hsome => absurd rfl hsome⟩

structure Kept (n : ℕ) (limit : ℕ∞) (x : Served) : Prop where
  apart : x.Apart n
  within : ∀ ks ∈ x.takeovers, ∀ k ∈ ks, Within n limit (x.load n) k

theorem kept_new (n : ℕ) (limit : ℕ∞) (workers : ℕ) (lifoSlotEnabled : Bool) :
    (new workers lifoSlotEnabled).Kept n limit := by
  refine ⟨fun task => ?_, fun ks hks k hk => ?_⟩
  · have hworkers : ∀ f : Worker → ℕ, f .new = 0 →
        total f (State.new workers lifoSlotEnabled).workers = 0 := fun f hf =>
      total_eq_zero_iff.mpr fun w hw => (congrArg f (List.eq_of_mem_replicate hw)).trans hf
    have hblocked : (new workers lifoSlotEnabled).blocked task = 0 :=
      total_eq_zero_iff.mpr fun ks hks => by
        rw [List.eq_of_mem_replicate hks]
        rfl
    have hqueued : (new workers lifoSlotEnabled).state.queued task = 0 :=
      (Nat.zero_add _).trans (hworkers (fun w => w.entries.count task) rfl)
    have hpolled : (new workers lifoSlotEnabled).state.polled task = 0 :=
      hworkers (fun w => w.place.polled.count task) rfl
    rw [occupied, hqueued, hpolled, hblocked]
    exact Nat.zero_le _
  · rw [List.eq_of_mem_replicate hks] at hk
    cases hk

theorem Kept.worker (h : x.Kept n limit) (hserves : x.Serves n limit (.worker i c))
    (hi : x.state.workers[i]? = some w) (hks : x.takeovers[i]? = some ks)
    (hadvance : advance w.place c (w.disturbed x.state.searching c) ks = some ks')
    (hnext : x.state.next i w c = some t) :
    (wake ⟨t, x.takeovers.set i ks'⟩ (w.place.wakes c)).Kept n limit := by
  obtain ⟨htasks, hadvanced⟩ := advance_spec hadvance
  have hmoves := State.next_moves hi hnext
  obtain ⟨hapart, hwakes⟩ := h.apart.wakes hi hserves
  have hbegins : ∀ task ∈ w.place.begins c, task ≤ n := fun _ => h.apart.begins hi
  have hload := load_of_moves hmoves hbegins hwakes (x.takeovers.set i ks')
  refine ⟨fun task => ?_, fun ls' hls' k'' hk'' => ?_⟩
  · have hoccupied := occupied_of_moves hmoves hks htasks task
    have := hapart task
    omega
  · obtain ⟨js, hjs, rfl⟩ := List.mem_map.mp hls'
    obtain ⟨k', hk', rfl⟩ := List.mem_map.mp hk''
    have hbefore : ∃ ks ∈ x.takeovers, ∃ k ∈ ks, Advanced (w.place.begins c).length 0 k k' := by
      rcases List.mem_or_eq_of_mem_set hjs with hjs | rfl
      · exact ⟨js, hjs, k', hk', .refl _ _⟩
      · obtain ⟨k, hk, hadv⟩ := hadvanced k' hk'
        exact ⟨ks, List.mem_of_getElem? hks, k, hk, hadv⟩
    obtain ⟨ls, hls, k, hk, hadv⟩ := hbefore
    have hwoken := hserves.wakes w
    refine (h.within ls hls k hk).advanced (hadv.woken _) hload (fun hsome => ?_) hwoken.1
      fun hpos => ?_
    · exact hwoken.2 hsome ls hls k hk
    · rw [← List.length_append] at hpos
      obtain ⟨task, htask⟩ := List.exists_mem_of_length_pos hpos
      rcases List.mem_append.mp htask with htask | htask
      · have hqueued := State.queued_pos hi (State.carried_of_begins htask)
        exact h.apart.pos hls hk (hbegins task htask) (by omega)
      · refine h.apart.pos hls hk (hwakes task htask) fun hnone => ?_
        have hends : 0 < (w.place.ends c).count task → 0 < x.state.polled task := fun hends =>
          State.polled_pos hi (State.polled_of_ends (List.count_pos_iff.mp hends))
        have hone := hapart task
        have hwoken := List.count_pos_iff.mpr htask
        rw [occupied, if_pos (hwakes task htask)] at hone
        omega

/-- The tasks stay where they are, and takeover threads come, go and look. -/
theorem Kept.of_queued (h : x.Kept n limit) (hqueued : ∀ task, y.state.queued task =
      x.state.queued task)
    (hoccupied : ∀ task, y.state.polled task + y.blocked task =
      x.state.polled task + x.blocked task)
    (hwithin : ∀ ks ∈ y.takeovers, ∀ k ∈ ks, Within n limit (x.load n) k) : y.Kept n limit := by
  have hload : y.load n = x.load n := Finset.sum_congr rfl fun task _ => hqueued task
  refine ⟨fun task => ?_, fun ks hks k hk => hload ▸ hwithin ks hks k hk⟩
  have hbefore := h.apart task
  have hmoved := hoccupied task
  have hsame := hqueued task
  rw [occupied] at hbefore ⊢
  omega

theorem Kept.push (h : x.Kept n limit) (hserves : x.Serves n limit (.push task))
    (driver : Driver.DriverShared) :
    (wake ⟨{ x.state with injector := x.state.injector ++ [task], driver }, x.takeovers⟩
      [task]).Kept n limit := by
  obtain ⟨hle, hfree, hspare⟩ := hserves
  refine ⟨fun task' => ?_, fun ls' hls' k' hk' => ?_⟩
  · have hbefore := h.apart task'
    have hmoved := queued_push x.state task task' driver
    rw [occupied, blocked_wake]
    rw [occupied] at hbefore hfree
    simp only [wake, hmoved]
    by_cases heq : task' = task
    · subst heq
      rw [List.count_singleton_self, if_pos hle]
      simp only [blocked, State.polled] at hfree ⊢
      omega
    · rw [List.count_eq_zero_of_not_mem (by simpa using heq)]
      exact hbefore
  · obtain ⟨ks, hks, rfl⟩ := List.mem_map.mp hls'
    obtain ⟨k, hk, rfl⟩ := List.mem_map.mp hk'
    exact (h.within ks hks k hk).advanced ((Advanced.refl 0 k).woken [task]) (load_of_push hle driver)
      (fun _ => hspare ks hks k hk) le_rfl fun _ => h.apart.pos hks hk hle fun _ => by
        rw [occupied] at hfree
        omega

theorem Kept.exchange {w' : Worker} (h : x.Kept n limit) (hi : x.state.workers[i]? = some w)
    (hks : x.takeovers[i]? = some ks) (hentries : w'.entries = w.entries)
    (htasks : w'.place.polled ++ ks'.map Takeover.task =
      w.place.polled ++ ks.map Takeover.task)
    (hwithin : ∀ k ∈ ks', Within n limit (x.load n) k) :
    Kept n limit ⟨x.state.setWorker i w', x.takeovers.set i ks'⟩ := by
  refine h.of_queued (State.queued_setWorker hi hentries) (fun task => ?_) fun ls hls k hk => ?_
  · have hpolled := State.polled_setWorker hi w' task
    have hblocked := blocked_set hks ks' (x.state.setWorker i w') task
    have hcount := congrArg (List.count task) htasks
    rw [List.count_append, List.count_append] at hcount
    dsimp only
    omega
  · rcases List.mem_or_eq_of_mem_set hls with hls | rfl
    · exact h.within ls hls k hk
    · exact hwithin k hk

theorem Kept.request (h : x.Kept n limit) {j : ℕ} (hks : x.takeovers[i]? = some ks)
    (hk : ks[j]? = some k) (driver : Driver.DriverShared) :
    Kept n limit ⟨{ x.state with driver }, x.takeovers.set i (ks.set j k.request)⟩ := by
  have hmem := List.mem_of_getElem? hks
  have htasks : (ks.set j k.request).map Takeover.task = ks.map Takeover.task := by
    rw [List.map_set]
    apply List.ext_getElem?
    intro m
    by_cases hm : j = m
    · subst hm
      rw [List.getElem?_set_self', List.getElem?_map, hk]
      rfl
    · rw [List.getElem?_set_ne hm]
  refine h.of_queued (fun _ => rfl) (fun task => ?_) fun ls hls k' hk' => ?_
  · have hblocked := blocked_set hks (ks.set j k.request) { x.state with driver } task
    rw [htasks] at hblocked
    change x.state.polled task + _ = _
    omega
  · rcases List.mem_or_eq_of_mem_set hls with hls | rfl
    · exact h.within ls hls k' hk'
    · rcases List.mem_or_eq_of_mem_set hk' with hk' | rfl
      · exact h.within ks hmem k' hk'
      · have hload := h.apart.load_le hmem (List.mem_of_getElem? hk)
        refine ⟨fun _ => ?_, fun _ => ?_, nofun⟩
        · simpa [Takeover.request] using hload
        · simp [Takeover.request]

theorem Kept.step (h : x.Kept n limit) {l : Label} (hserves : x.Serves n limit l)
    (hs : x.step l = some y) : y.Kept n limit := by
  cases steps_of_eq hs with
  | worker hi hks hadvance hnext => exact h.worker hserves hi hks hadvance hnext
  | push task driver => exact h.push hserves driver
  | driver l driver => exact h.of_queued (fun _ => rfl) (fun _ => rfl) h.within
  | block hi hks =>
    refine h.exchange hi hks rfl rfl fun k hk => ?_
    rcases List.mem_cons.mp hk with rfl | hk
    · exact ⟨nofun, nofun, nofun⟩
    · exact h.within _ (List.mem_of_getElem? hks) k hk
  | request driver hks hk => exact h.request hks hk driver
  | leaves hi hks =>
    exact h.exchange hi hks rfl rfl fun k' hk' =>
      h.within _ (List.mem_of_getElem? hks) k' (List.mem_cons_of_mem _ hk')
  | @stays i lifo queue claimed tick lifoPolls k outer hi hks =>
    have hwithin := h.within _ (List.mem_of_getElem? hks)
    refine h.of_queued (fun _ => rfl) (fun task => ?_) fun ls hls k' hk' => ?_
    · have hblocked := blocked_set hks
        ({ k.stepped (claimed ≠ 0) with looked := true } :: outer) x.state task
      simp only [List.map_cons, Takeover.stepped] at hblocked ⊢
      omega
    · rcases List.mem_or_eq_of_mem_set hls with hls | rfl
      · exact h.within ls hls k' hk'
      · rcases List.mem_cons.mp hk' with rfl | hk'
        · have hk := hwithin k List.mem_cons_self
          exact ⟨hk.polls, hk.wakes, hk.pos⟩
        · exact hwithin k' (List.mem_cons_of_mem _ hk')

theorem nexts {z : Served} (h : Reachable step (Serves n limit) x y) (k : ℕ)
    (hrun : run step y (List.replicate k (.worker 0 .next)) = some z) :
    Reachable step (Serves n limit) x z := by
  induction k generalizing y with
  | zero =>
    cases hrun
    exact h
  | succ k ih =>
    obtain ⟨m, hm, hrest⟩ := Option.bind_eq_some_iff.mp hrun
    exact ih (h.next (a := Label.worker 0 .next) trivial hm) hrest

variable {tick : UInt32} {lifoPolls polls wakes : ℕ} {injector : List ℕ} {owner : ℕ → ℕ}
  {driver : Driver.DriverShared}

/-- A single worker does not search. -/
theorem searches (hks : advance (.search false) .next false ks = some ks')
    (h : Reachable step (Serves n limit) x
      ⟨⟨false, [⟨.search false, none, [], 0, tick, lifoPolls⟩], injector, 0, 0, owner, driver⟩,
        [ks]⟩) :
    Reachable step (Serves n limit) x
      ⟨⟨false, [⟨.takeInjected false, none, [], 0, tick, lifoPolls⟩], injector, 0, 0, owner,
        driver⟩, [ks']⟩ := by
  have hwoken : ks'.map (Takeover.woken []) = ks' := List.map_id ks'
  refine h.next (a := Label.worker 0 .next) trivial ?_
  simp [step, hks, Worker.disturbed, State.next, State.setWorker, Worker.goTo, searched, wake,
    Place.wakes, hwoken]

theorem spare_top (x : Served) : x.Spare ⊤ := fun _ _ _ _ _ => ENat.natCast_lt_top _

/-- Task `n`, which will block the worker, and task 0 wait in the injector. -/
theorem reachable_pushed (hn : 0 < n) :
    ∃ driver, Reachable step (Serves n ⊤) (.new 1 false)
      ⟨⟨false, [.new], [n, 0], 0, 0, fun _ => 1, driver⟩, [[]]⟩ := by
  have hstart : Reachable step (Serves n ⊤) (new 1 false) (new 1 false) := .start
  obtain ⟨driver, hpush⟩ : ∃ driver, Reachable step (Serves n ⊤) (new 1 false)
      ⟨⟨false, [.new], [n], 0, 0, fun _ => 1, driver⟩, [[]]⟩ :=
    ⟨_, hstart.next (a := Label.push n) ⟨le_rfl, rfl, spare_top _⟩ rfl⟩
  have hfree : occupied ⟨⟨false, [.new], [n], 0, 0, fun _ => 1, driver⟩, [[]]⟩ 0 = 0 := by
    have hother : [n].count 0 = 0 := List.count_eq_zero_of_not_mem (by simpa using hn.ne)
    simp [occupied, State.queued, State.polled, blocked, Worker.new, Worker.entries, Place.carried,
      Place.polled, hother]
  exact ⟨_, hpush.next (a := Label.push 0) ⟨hn.le, hfree, spare_top _⟩ rfl⟩

/-- Task `n` blocks the worker, and its takeover thread is asked to leave. -/
theorem reachable_asked (hn : 0 < n) :
    ∃ owner driver, Reachable step (Serves n ⊤) (.new 1 false)
      ⟨⟨false, [.new], [0], 0, 0, owner, driver⟩, [[⟨n, 1, 0, true, false, 0, 0, 0, 0⟩]]⟩ := by
  obtain ⟨driver, hpushed⟩ := reachable_pushed hn
  have hstarted : Reachable step (Serves n ⊤) (new 1 false)
      ⟨⟨false, [⟨.search false, none, [], 0, 1, 0⟩], [n, 0], 0, 0, fun _ => 1, driver⟩, [[]]⟩ :=
    nexts hpushed 2 rfl
  obtain ⟨owner, hcalls⟩ : ∃ owner, Reachable step (Serves n ⊤) (new 1 false)
      ⟨⟨false, [⟨.poll n, none, [], 0, 1, 0⟩], [0], 0, 0, owner, driver⟩, [[]]⟩ :=
    ⟨_, nexts (searches rfl hstarted) 4 rfl⟩
  have hblocked : Reachable step (Serves n ⊤) (new 1 false)
      ⟨⟨false, [.new], [0], 0, 0, owner, driver⟩, [[⟨n, 1, 0, false, false, 0, 0, 0, 0⟩]]⟩ :=
    hcalls.next (a := Label.block 0) trivial rfl
  exact ⟨_, _, hblocked.next (a := Label.request 0 0) trivial rfl⟩

/-- The takeover thread that was asked to leave has a task beside it that has woken itself. -/
theorem reachable_spinning (hn : 0 < n) :
    ∃ owner driver steps, Reachable step (Serves n ⊤) (.new 1 false)
      ⟨⟨false, [⟨.nextLifo, none, [0], 0, 1, 0⟩], [], 0, 0, owner, driver⟩,
        [[⟨n, 1, 0, true, false, 1, 1, steps, 0⟩]]⟩ := by
  obtain ⟨owner, driver, hasked⟩ := reachable_asked hn
  have hstarted : Reachable step (Serves n ⊤) (new 1 false)
      ⟨⟨false, [⟨.search false, none, [], 0, 1, 0⟩], [0], 0, 0, owner, driver⟩,
        [[⟨n, 1, 0, true, false, 0, 0, 2, 0⟩]]⟩ :=
    nexts hasked 2 rfl
  have hpolls : Reachable step (Serves n ⊤) (new 1 false)
      ⟨⟨false, [⟨.poll 0, none, [], 0, 1, 0⟩], [], 0, 0, Function.update owner 0 0, driver⟩,
        [[⟨n, 1, 0, true, false, 1, 0, 7, 0⟩]]⟩ :=
    nexts (searches rfl hstarted) 4 rfl
  have hwoken := hpolls.next (a := Label.worker 0 (.returns true)) (fun _ => spare_top _) rfl
  exact ⟨_, _, _, nexts hwoken 2 rfl⟩

theorem keeps_spinning {steps : ℕ} (h : Reachable step (Serves n ⊤) x
      ⟨⟨false, [⟨.nextLifo, none, [0], 0, tick, 0⟩], [], 0, 0, owner, driver⟩,
        [[⟨n, 1, 0, true, false, polls, wakes, steps, 0⟩]]⟩) (k : ℕ) :
    ∃ owner' steps', Reachable step (Serves n ⊤) x
      ⟨⟨false, [⟨.nextLifo, none, [0], 0, tick, 0⟩], [], 0, 0, owner', driver⟩,
        [[⟨n, 1, 0, true, false, polls + k, wakes + k, steps', 0⟩]]⟩ := by
  induction k with
  | zero => exact ⟨owner, steps, h⟩
  | succ k ih =>
    obtain ⟨owner', steps', hreach⟩ := ih
    have hwoken := (nexts hreach 3 rfl).next (a := Label.worker 0 (.returns true))
      (fun _ => spare_top _) rfl
    exact ⟨_, _, nexts hwoken 2 rfl⟩

/-- A task that wakes itself keeps the takeover thread for as many polls as one likes. -/
theorem exists_polls (hn : 0 < n) (bound : ℕ) :
    ∃ x, Reachable step (Serves n ⊤) (.new 1 false) x ∧
      ∃ ks ∈ x.takeovers, ∃ k ∈ ks, k.requested = true ∧ bound < k.polls := by
  obtain ⟨owner, driver, steps, hspinning⟩ := reachable_spinning hn
  obtain ⟨owner', steps', hkeeps⟩ := keeps_spinning hspinning bound
  exact ⟨_, hkeeps, _, List.mem_singleton_self _, _, List.mem_singleton_self _, rfl,
    by rw [Nat.add_comm]; exact Nat.lt_succ_self _⟩

end Served

end Eddy.WorkerLoop
