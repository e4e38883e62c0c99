import Eddy.CurrentThreadRuntime
import Mathlib.Data.List.Infix

/-!
# The run queues of a current-thread runtime

`next_task` and `enqueue` of `scheduler/current_thread.rs`, one lock at a time. The tick is
a 32-bit counter that wraps, and `2 ^ 32` is no multiple of the interval: the interval that
holds the wrap is cut short by the tick `0`, never made longer.
-/

namespace Eddy.CurrentThread
open Interleaving

def GLOBAL_QUEUE_INTERVAL : UInt32 := 61

/-- The next access of a `next_task` that has increased the tick. -/
inductive NextTask where
  | lockOwner (tick : UInt32)
  | popDeferred (tick : UInt32)
  /-- The pop of the injection queue that an interval ends with. -/
  | popInterval
  | popLocal
  | popInjection

def NextTask.locked : NextTask → Bool
  | .lockOwner _ => false
  | _ => true

structure Queues (α : Type) where
  tick : UInt32
  deferred : List α
  localQueue : List α
  injection : List α
  call : Option NextTask
  /-- What the calls of `next_task` have returned, in order. -/
  returned : List (Option α)

namespace Queues

variable {α : Type}

inductive Label (α : Type) where
  /-- The next access of `next_task`. -/
  | nextTask
  /-- A critical section of `enqueue` that finds the runtime in the state `env`. -/
  | enqueue (env : Env) (thread : Thread) (pre : Pre) (task : α)
  | deferDealloc (task : α)

/-- The call returns. -/
def finish (s : Queues α) (task : Option α) : Queues α :=
  { s with call := none, returned := s.returned ++ [task] }

def goTo (s : Queues α) (next : NextTask) : Queues α := { s with call := some next }

/-- The next access of `next_task`. -/
def nextTask (s : Queues α) : Queues α :=
  match s.call with
  | none => { s with tick := s.tick + 1, call := some (.lockOwner (s.tick + 1)) }
  | some (.lockOwner tick) => s.goTo (.popDeferred tick)
  | some (.popDeferred tick) =>
      match s.deferred with
      | task :: rest => { s with deferred := rest }.finish (some task)
      | [] => s.goTo (if tick % GLOBAL_QUEUE_INTERVAL = 0 then .popInterval else .popLocal)
  | some .popInterval =>
      match s.injection with
      | task :: rest => { s with injection := rest }.finish (some task)
      | [] => s.goTo .popLocal
  | some .popLocal =>
      match s.localQueue with
      | task :: rest => { s with localQueue := rest }.finish (some task)
      | [] => s.goTo .popInjection
  | some .popInjection => { s with injection := s.injection.tail }.finish s.injection.head?

/-- One critical section of `enqueue`; the first of them needs the owner lock. -/
def enqueueStep (s : Queues α) (env : Env) (thread : Thread) (pre : Pre) (task : α) :
    Option (Queues α) :=
  if pre = .checkOwner && s.call.any NextTask.locked then none
  else
    match enqueue env thread pre with
    | .queue .localQueue _ => some { s with localQueue := s.localQueue ++ [task] }
    | .queue .injection _ => some { s with injection := s.injection ++ [task] }
    | .goOn _ | .drop _ => some s

def step (s : Queues α) : Label α → Option (Queues α)
  | .nextTask => some s.nextTask
  | .enqueue env thread pre task => s.enqueueStep env thread pre task
  | .deferDealloc task => some { s with deferred := s.deferred ++ [task] }

/-- No entry of the deferred queue is made. -/
def NoDeferred (_ : Queues α) : Label α → Prop
  | .deferDealloc _ => False
  | _ => True

instance (s : Queues α) : (a : Label α) → Decidable (NoDeferred s a)
  | .deferDealloc _ => inferInstanceAs (Decidable False)
  | .nextTask | .enqueue _ _ _ _ => inferInstanceAs (Decidable True)

end Queues

/-- How many increments of the tick it takes to reach a multiple of the interval. -/
def due (tick : UInt32) : ℕ := min (61 - tick.toNat % 61) (4294967296 - tick.toNat)

theorem due_pos (tick : UInt32) : 0 < due tick := by
  have := tick.toNat_lt
  unfold due
  omega

theorem due_le (tick : UInt32) : due tick ≤ 61 := by
  unfold due
  omega

theorem ends_interval_iff (tick : UInt32) :
    tick % GLOBAL_QUEUE_INTERVAL = 0 ↔ tick.toNat % 61 = 0 := by
  rw [← UInt32.toNat_inj, UInt32.toNat_mod]
  rfl

theorem toNat_add_one (tick : UInt32) : (tick + 1).toNat = (tick.toNat + 1) % 4294967296 := by
  rw [UInt32.toNat_add]
  rfl

/-- An increment ends the interval or brings its end one closer; at the wrap it ends it. -/
theorem due_add_one (tick : UInt32) :
    (tick + 1) % GLOBAL_QUEUE_INTERVAL = 0 ∧ due tick = 1 ∨
      (tick + 1) % GLOBAL_QUEUE_INTERVAL ≠ 0 ∧ due tick = due (tick + 1) + 1 := by
  have hlt := tick.toNat_lt
  rw [ne_eq, ends_interval_iff, toNat_add_one]
  unfold due
  rw [toNat_add_one]
  have hrest : tick.toNat % 61 < 61 := Nat.mod_lt _ (by decide)
  by_cases hwrap : tick.toNat + 1 = 4294967296
  · rw [hwrap, Nat.mod_self]
    exact .inl ⟨rfl, by omega⟩
  · rw [Nat.mod_eq_of_lt (show tick.toNat + 1 < 4294967296 by omega)]
    by_cases hends : tick.toNat % 61 = 60
    · have hnext : (tick.toNat + 1) % 61 = 0 := by omega
      exact .inl ⟨hnext, by rw [hends]; omega⟩
    · have hnext : (tick.toNat + 1) % 61 = tick.toNat % 61 + 1 := by omega
      rw [hnext]
      generalize tick.toNat % 61 = rest at *
      exact .inr ⟨Nat.succ_ne_zero rest, by omega⟩

/-- Whether the call in progress is one that ends an interval and has not popped yet. -/
def NextTask.endsInterval : NextTask → Bool
  | .lockOwner tick | .popDeferred tick => tick % GLOBAL_QUEUE_INTERVAL = 0
  | .popInterval => true
  | .popLocal | .popInjection => false

namespace Queues

variable {α : Type} {s t : Queues α}

/-- The calls by which the entry at index `i` of the injection queue is returned: the call in
progress, the rest of its interval when the call may pop another queue, and one whole
interval for each entry before it. -/
def wait (s : Queues α) (i : ℕ) : ℕ :=
  61 * i +
    match s.call with
    | none => due s.tick
    | some call => 1 + if NextTask.endsInterval call then 0 else due s.tick

/-- The calls in progress. -/
def calls (s : Queues α) : ℕ := if s.call.isSome then 1 else 0

theorem wait_le (s : Queues α) (i : ℕ) : s.wait i ≤ s.calls + 61 * (i + 1) := by
  have := due_le s.tick
  unfold wait calls
  cases s.call with
  | none => simp; omega
  | some call => simp; split <;> omega

theorem wait_pos (s : Queues α) (i : ℕ) : 0 < s.wait i := by
  have := due_pos s.tick
  unfold wait
  cases s.call with
  | none => simp; omega
  | some call => simp

/-- The entry `task` has been returned after the first `m` calls, or it is in the injection
queue and is returned before the call with number `n`. -/
def Comes (task : α) (m n : ℕ) (s : Queues α) : Prop :=
  some task ∈ s.returned.drop m ∨
    m ≤ s.returned.length ∧ ∃ i, s.injection[i]? = some task ∧ s.returned.length + s.wait i ≤ n

variable {task : α} {m n i : ℕ}

/-- A call that pops the injection queue returns the entry or brings it one place forward. -/
theorem Comes.pop (hm : m ≤ s.returned.length)
    (hi : s.injection[i]? = some task) (hwait : s.returned.length + 1 + 61 * i ≤ n) :
    Comes task m n ({ s with injection := s.injection.tail }.finish s.injection.head?) := by
  cases i with
  | zero =>
    left
    have hhead : s.injection.head? = some task := by rw [List.head?_eq_getElem?, hi]
    simp [finish, List.drop_append_of_le_length hm, hhead]
  | succ i =>
    right
    refine ⟨by simp [finish]; omega, i, by simpa [finish] using hi, ?_⟩
    have := due_le s.tick
    simp only [finish, wait, List.length_append, List.length_singleton]
    omega

/-- A call that returns an entry of another queue counts, and the interval is as it was. -/
theorem Comes.other {other : Option α} (hm : m ≤ s.returned.length)
    (hi : s.injection[i]? = some task) (hwait : s.returned.length + 1 + due s.tick + 61 * i ≤ n) :
    Comes task m n (s.finish other) := by
  right
  refine ⟨by simp [finish]; omega, i, hi, ?_⟩
  simp only [finish, wait, List.length_append, List.length_singleton]
  omega

theorem Comes.goTo {next : NextTask} (hm : m ≤ s.returned.length)
    (hi : s.injection[i]? = some task)
    (hwait : s.returned.length + (s.goTo next).wait i ≤ n) : Comes task m n (s.goTo next) :=
  .inr ⟨hm, i, hi, hwait⟩

theorem Comes.nextTask (hdeferred : s.deferred = [])
    (h : Comes task m n s) : Comes task m n s.nextTask := by
  rcases h with h | ⟨hm, i, hi, hwait⟩
  · left
    have hgrows : s.returned <+: s.nextTask.returned := by
      unfold Queues.nextTask
      split <;> (try split) <;> simp [finish, Queues.goTo]
    exact (hgrows.drop m).subset h
  unfold Queues.nextTask
  unfold wait at hwait
  split
  case h_1 hcall =>
    refine .inr ⟨hm, i, hi, ?_⟩
    simp only [hcall] at hwait
    rcases due_add_one s.tick with ⟨hends, hdue⟩ | ⟨hends, hdue⟩ <;>
      simp only [wait, NextTask.endsInterval, hends, decide_true, decide_false, if_true,
        Bool.false_eq_true, if_false] <;> omega
  case h_2 tick hcall =>
    simp only [hcall, NextTask.endsInterval] at hwait
    exact .goTo hm hi hwait
  case h_3 tick hcall =>
    simp only [hcall, NextTask.endsInterval] at hwait
    rw [hdeferred]
    apply Comes.goTo hm hi
    by_cases hends : tick % GLOBAL_QUEUE_INTERVAL = 0 <;>
      simpa [wait, Queues.goTo, NextTask.endsInterval, hends] using hwait
  case h_4 hcall =>
    simp only [hcall, NextTask.endsInterval, if_true] at hwait
    split
    case h_1 first rest hinj =>
      have hpop : Comes task m n _ := Comes.pop hm hi (by omega)
      rwa [hinj] at hpop
    case h_2 hinj => simp [hinj] at hi
  case h_5 hcall =>
    simp only [hcall, NextTask.endsInterval, Bool.false_eq_true, if_false] at hwait
    split
    case h_1 first rest hlocal =>
      exact Comes.other (s := { s with localQueue := rest }) hm hi (by simp only; omega)
    case h_2 hlocal =>
      exact .goTo hm hi
        (by simp only [wait, Queues.goTo, NextTask.endsInterval, Bool.false_eq_true, if_false]; omega)
  case h_6 hcall =>
    simp only [hcall, NextTask.endsInterval, Bool.false_eq_true, if_false] at hwait
    exact .pop hm hi (by have := due_pos s.tick; omega)

theorem Comes.enqueueStep {env : Env} {thread : Thread} {pre : Pre} {x : α}
    (hs : s.enqueueStep env thread pre x = some t) (h : Comes task m n s) : Comes task m n t := by
  unfold Queues.enqueueStep at hs
  split_ifs at hs
  split at hs <;> cases hs
  · exact h
  · rcases h with h | ⟨hm, i, hi, hwait⟩
    · exact .inl h
    · refine .inr ⟨hm, i, ?_, hwait⟩
      obtain ⟨hlt, -⟩ := List.getElem?_eq_some_iff.mp hi
      rw [List.getElem?_append_left hlt, hi]
  · exact h
  · exact h

theorem enqueueStep_deferred {env : Env} {thread : Thread} {pre : Pre} {x : α}
    (hs : s.enqueueStep env thread pre x = some t) : t.deferred = s.deferred := by
  unfold enqueueStep at hs
  split_ifs at hs
  split at hs <;> cases hs <;> rfl

theorem nextTask_deferred (h : s.deferred = []) : s.nextTask.deferred = [] := by
  unfold nextTask
  split <;> (try split) <;> simp_all [finish, goTo]

theorem Comes.run {start : Queues α}
    (hrun : Reachable step NoDeferred start s) (hdeferred : start.deferred = [])
    (h : Comes task m n start) : s.deferred = [] ∧ Comes task m n s := by
  refine hrun.invariant (I := fun s => s.deferred = [] ∧ Comes task m n s) ⟨hdeferred, h⟩ ?_
  rintro s a t ⟨hs, hcomes⟩ hallowed htaken
  cases a with
  | nextTask =>
    cases htaken
    exact ⟨nextTask_deferred hs, hcomes.nextTask hs⟩
  | enqueue env thread pre x =>
    exact ⟨(enqueueStep_deferred htaken).trans hs, hcomes.enqueueStep htaken⟩
  | deferDealloc x => exact hallowed.elim

/-- Within `61 * k` further calls of `next_task` the task at position `k` of the injection
queue is returned, whatever is queued meanwhile and wherever the tick starts. A call in
progress is no further call. -/
theorem injected_task_is_returned {start s : Queues α} {task : α} {k : ℕ}
    (hdeferred : start.deferred = []) (hk : 1 ≤ k) (htask : start.injection[k - 1]? = some task)
    (hrun : Reachable step NoDeferred start s)
    (hcalls : start.returned.length + start.calls + 61 * k ≤ s.returned.length) :
    some task ∈ s.returned.drop start.returned.length := by
  have hstart : Comes task start.returned.length s.returned.length start := by
    refine .inr ⟨le_rfl, k - 1, htask, ?_⟩
    have := start.wait_le (k - 1)
    rw [Nat.sub_add_cancel hk] at this
    omega
  rcases (hstart.run hrun hdeferred).2 with h | ⟨-, i, -, hwait⟩
  · exact h
  · have := s.wait_pos i
    omega

/-- The local queue never empties, and the tick wraps before it comes to a multiple of `61`. -/
theorem injected_task_is_returned_past_the_wrap :
    let start : Queues ℕ := ⟨4294967260, [], List.replicate 70 0, [7], none, []⟩
    ∃ s, Reachable step NoDeferred start s ∧ s.localQueue ≠ [] ∧
      some 7 ∈ s.returned.drop start.returned.length := by
  intro start
  have hrun : (run (guarded step NoDeferred) start (List.replicate 244 .nextTask)).any
      (fun s => decide (s.localQueue ≠ [] ∧ 61 ≤ s.returned.length)) = true := by
    decide +kernel
  obtain ⟨s, hreach, hs⟩ := exists_reachable_of_run hrun
  have hs := of_decide_eq_true hs
  exact ⟨s, hreach, hs.1,
    injected_task_is_returned rfl le_rfl rfl hreach (by simpa [start, calls] using hs.2)⟩

end Queues

end Eddy.CurrentThread
