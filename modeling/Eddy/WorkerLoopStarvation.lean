import Eddy.WorkerLoopSteps

/-!
# One worker and tasks that wake themselves

The local queue is pushed and popped at the same end, and neither the LIFO slot nor the local queue
leaves a turn to what lies behind it: the task that holds the local queue keeps the others from
their polls.
-/

namespace Eddy.WorkerLoop
open Interleaving

/-- A runtime with one worker. -/
structure Spun where
  state : State
  spawned : List ℕ
  /-- The polls since the last task was spawned, the last one first. -/
  polls : List ℕ

namespace Spun

def new (lifoSlotEnabled : Bool) : Spun := ⟨.new 1 lifoSlotEnabled, [], []⟩

def spawns : Label → List ℕ
  | .push task | .worker _ (.schedule task _) => [task]
  | _ => []

/-- The task whose poll begins. -/
def polled (s : State) : Label → Option ℕ
  | .worker i .next => s.workers[i]?.bind fun w =>
      match w.place with
      | .run task _ => some task
      | _ => none
  | _ => none

def step (x : Spun) (l : Label) : Option Spun :=
  (x.state.step l).map fun state =>
    ⟨state, spawns l ++ x.spawned,
      match spawns l with
      | [] => (polled x.state l).toList ++ x.polls
      | _ => []⟩

/-- There are `n` tasks, each of which is spawned once, and every poll wakes its task. -/
def Spins (n : ℕ) (x : Spun) : Label → Prop
  | .push task | .worker _ (.schedule task _) => task < n ∧ task ∉ x.spawned
  | .worker _ (.returns woken) => woken = true
  | _ => True

instance (n : ℕ) (x : Spun) : (l : Label) → Decidable (Spins n x l)
  | .push task | .worker _ (.schedule task _) =>
    inferInstanceAs (Decidable (task < n ∧ task ∉ x.spawned))
  | .worker _ (.returns woken) => inferInstanceAs (Decidable (woken = true))
  | .worker _ .next | .worker _ .spurious | .worker _ (.start _) | .worker _ (.claim _)
  | .driver _ => inferInstanceAs (Decidable True)

/-- Once all of the `n` tasks are spawned, any `bound` polls in a row poll each of them. -/
def Fair (n : ℕ) (lifoSlotEnabled : Bool) (bound : ℕ) : Prop :=
  ∀ x, Reachable step (Spins n) (.new lifoSlotEnabled) x → x.spawned.length = n →
    bound ≤ x.polls.length → ∀ task < n, task ∈ x.polls.take bound

/-- The first `k` tasks are spawned from outside. -/
theorem reachable_of_spawned (n : ℕ) (lifoSlotEnabled : Bool) {k : ℕ} (hk : k ≤ n) :
    ∃ driver, Reachable step (Spins n) (.new lifoSlotEnabled)
      ⟨⟨lifoSlotEnabled, [.new], List.range k, 0, 0, fun _ => 1, driver⟩,
        (List.range k).reverse, []⟩ := by
  induction k with
  | zero => exact ⟨_, .start⟩
  | succ k ih =>
    obtain ⟨driver, hreach⟩ := ih (by omega)
    have hfresh : k < n ∧ k ∉ (List.range k).reverse := ⟨by omega, by simp⟩
    have hpush := hreach.next (a := Label.push k) hfresh rfl
    rw [List.range_succ, List.reverse_append]
    exact ⟨_, hpush⟩

variable {n : ℕ} {lifoSlotEnabled : Bool} {lifo : Option ℕ} {queue injector spawned polls : List ℕ}
  {tick : UInt32} {lifoPolls : ℕ} {owner : ℕ → ℕ} {driver : Driver.DriverShared} {x : Spun}

/-- A single worker does not search. -/
theorem searches (h : Reachable step (Spins n) x
      ⟨⟨lifoSlotEnabled, [⟨.search false, lifo, queue, 0, tick, lifoPolls⟩], injector, 0, 0, owner,
        driver⟩, spawned, polls⟩) :
    Reachable step (Spins n) x
      ⟨⟨lifoSlotEnabled, [⟨.takeInjected false, lifo, queue, 0, tick, lifoPolls⟩], injector, 0, 0,
        owner, driver⟩, spawned, polls⟩ := by
  refine h.next (a := Label.worker 0 .next) trivial ?_
  simp [step, spawns, polled, State.step, State.next, State.setWorker, Worker.goTo, searched]

theorem goes {y z : Spun} (h : Reachable step (Spins n) x y) (labels : List Label)
    (hrun : run (guarded step (Spins n)) y labels = some z) : Reachable step (Spins n) x z :=
  h.trans (reachable_of_run hrun)

theorem takes_queue (h : Reachable step (Spins n) x
      ⟨⟨false, [.new], 0 :: injector, 0, 0, owner, driver⟩, spawned, polls⟩) :
    ∃ owner', Reachable step (Spins n) x
      ⟨⟨false, [⟨.nextLifo, none, [0], 0, 1, 0⟩], injector, 0, 0, owner', driver⟩, spawned,
        0 :: polls⟩ := by
  have hticks := searches (goes h (List.replicate 2 (.worker 0 .next)) rfl)
  have hpoll := goes hticks (List.replicate 4 (.worker 0 .next)) rfl
  exact ⟨_, goes hpoll (pollSteps 0 2) rfl⟩

theorem keeps_queue (h : Reachable step (Spins n) x
      ⟨⟨false, [⟨.nextLifo, none, [0], 0, tick, 0⟩], injector, 0, 0, owner, driver⟩, spawned,
        polls⟩) (k : ℕ) :
    ∃ owner', Reachable step (Spins n) x
      ⟨⟨false, [⟨.nextLifo, none, [0], 0, tick, 0⟩], injector, 0, 0, owner', driver⟩, spawned,
        List.replicate k 0 ++ polls⟩ := by
  induction k with
  | zero => exact ⟨owner, h⟩
  | succ k ih =>
    obtain ⟨owner', hreach⟩ := ih
    exact ⟨_, goes hreach (pollSteps 3 2) rfl⟩

theorem slot_poll (hfew : lifoPolls < 3) (h : Reachable step (Spins n) x
      ⟨⟨true, [⟨.nextLifo, some 0, queue, 0, tick, lifoPolls⟩], injector, 0, 0, owner, driver⟩,
        spawned, polls⟩) :
    ∃ owner', Reachable step (Spins n) x
      ⟨⟨true, [⟨.nextLifo, some 0, queue, 0, tick, lifoPolls + 1⟩], injector, 0, 0, owner',
        driver⟩, spawned, 0 :: polls⟩ := by
  obtain rfl | rfl | rfl : lifoPolls = 0 ∨ lifoPolls = 1 ∨ lifoPolls = 2 := by omega
  · exact ⟨_, goes h (pollSteps 2 1) rfl⟩
  · exact ⟨_, goes h (pollSteps 2 1) rfl⟩
  · exact ⟨_, goes h (pollSteps 2 1) rfl⟩

theorem slot_turn (h : Reachable step (Spins n) x
      ⟨⟨true, [⟨.nextLifo, some 0, queue, 0, tick, 0⟩], injector, 0, 0, owner, driver⟩, spawned,
        polls⟩) :
    ∃ owner', Reachable step (Spins n) x
      ⟨⟨true, [⟨.pop, some 0, queue, 0, tick, 0⟩], injector, 0, 0, owner', driver⟩, spawned,
        0 :: 0 :: 0 :: polls⟩ := by
  obtain ⟨owner₁, hfirst⟩ := slot_poll (by omega) h
  obtain ⟨owner₂, hsecond⟩ := slot_poll (by omega) hfirst
  obtain ⟨owner₃, hthird⟩ := slot_poll (by omega) hsecond
  exact ⟨_, goes hthird [.worker 0 .next] rfl⟩

/-- The first task takes the LIFO slot, and after its turn the second one the local queue. -/
theorem takes_slot (h : Reachable step (Spins n) x
      ⟨⟨true, [.new], 0 :: 1 :: injector, 0, 0, owner, driver⟩, spawned, polls⟩) :
    ∃ owner', Reachable step (Spins n) x
      ⟨⟨true, [⟨.nextLifo, some 0, [1], 0, 2, 0⟩], injector, 0, 0, owner', driver⟩, spawned,
        1 :: 0 :: 0 :: 0 :: 0 :: polls⟩ := by
  have hticks := searches (goes h (List.replicate 2 (.worker 0 .next)) rfl)
  obtain ⟨owner', hturn⟩ := slot_turn (goes hticks (pollSteps 4 1) rfl)
  have hticks := searches (goes hturn [.worker 0 .next] rfl)
  have hpoll := goes hticks (List.replicate 4 (.worker 0 .next)) rfl
  exact ⟨_, goes hpoll (pollSteps 0 2) rfl⟩

/-- Three polls of the one to a poll of the other. -/
def turn : List ℕ := [1, 0, 0, 0]

theorem keeps_slot (h : Reachable step (Spins n) x
      ⟨⟨true, [⟨.nextLifo, some 0, [1], 0, tick, 0⟩], injector, 0, 0, owner, driver⟩, spawned,
        polls⟩) (k : ℕ) :
    ∃ owner', Reachable step (Spins n) x
      ⟨⟨true, [⟨.nextLifo, some 0, [1], 0, tick, 0⟩], injector, 0, 0, owner', driver⟩, spawned,
        (List.replicate k turn).flatten ++ polls⟩ := by
  induction k with
  | zero => exact ⟨owner, h⟩
  | succ k ih =>
    obtain ⟨owner', hreach⟩ := ih
    obtain ⟨owner'', hturn⟩ := slot_turn hreach
    exact ⟨_, goes hturn (pollSteps 2 2) rfl⟩

/-- Some runs poll only what comes before a task, as long as one likes. -/
theorem not_fair_of_polls (task : ℕ) (htask : task < n)
    (h : ∀ bound, ∃ x, Reachable step (Spins n) (.new lifoSlotEnabled) x ∧
      x.spawned.length = n ∧ bound ≤ x.polls.length ∧ ∀ polled ∈ x.polls, polled < task)
    (bound : ℕ) : ¬ Fair n lifoSlotEnabled bound := by
  intro hfair
  obtain ⟨x, hreach, hspawned, hbound, hpolls⟩ := h bound
  exact (hpolls task (List.mem_of_mem_take (hfair x hreach hspawned hbound task htask))).false

theorem not_fair_without_slot (hn : 2 ≤ n) : ∀ bound, ¬ Fair n false bound := by
  refine not_fair_of_polls 1 (by omega) fun bound => ?_
  obtain ⟨m, rfl⟩ := Nat.exists_eq_add_of_le' hn
  obtain ⟨driver, hspawned⟩ := reachable_of_spawned (m + 2) false le_rfl
  have hlength : (List.range (m + 2)).reverse.length = m + 2 := by simp
  rw [show List.range (m + 2) = 0 :: (List.range (m + 1)).map Nat.succ from
    List.range_succ_eq_map ..] at hspawned hlength
  obtain ⟨owner', htakes⟩ := takes_queue hspawned
  obtain ⟨owner'', hkeeps⟩ := keeps_queue htakes bound
  refine ⟨_, hkeeps, hlength, ?_, fun polled hpolled => ?_⟩
  · simp
  · simp at hpolled
    omega

theorem not_fair_with_slot (hn : 3 ≤ n) : ∀ bound, ¬ Fair n true bound := by
  refine not_fair_of_polls 2 (by omega) fun bound => ?_
  obtain ⟨m, rfl⟩ := Nat.exists_eq_add_of_le' hn
  obtain ⟨driver, hspawned⟩ := reachable_of_spawned (m + 3) true le_rfl
  have hlength : (List.range (m + 3)).reverse.length = m + 3 := by simp
  rw [show List.range (m + 3) = 0 :: 1 :: ((List.range (m + 1)).map Nat.succ).map Nat.succ from by
    rw [List.range_succ_eq_map, List.range_succ_eq_map]
    rfl] at hspawned hlength
  obtain ⟨owner', htakes⟩ := takes_slot hspawned
  obtain ⟨owner'', hkeeps⟩ := keeps_slot htakes bound
  refine ⟨_, hkeeps, hlength, ?_, fun polled hpolled => ?_⟩
  · simp [turn]
    omega
  · simp [turn] at hpolled
    omega

end Spun

end Eddy.WorkerLoop
