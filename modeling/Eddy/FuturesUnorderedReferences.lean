import Eddy.FuturesUnordered

/-!
# References to the waker of a member

The vtable in `future/unordered.rs` turns the pointer of a waker into an `Arc<EntryWake>` and back
by hand. `Arc::clone` adds a reference and the drop of an `Arc` gives one up. Waking by value consumes
the waker and forgets its reference, so the count is right as long as wakers are only woken by
reference.
-/

namespace Eddy.FuturesUnordered
open Interleaving

/-- A set, the `EntryWake` of one of its members and the wakers made from it. -/
structure Allocation where
  set : Members
  id : ℕ
  /-- `Arc::strong_count` of the `EntryWake`, which is freed with its last reference. -/
  strong : ℕ
  /-- `Arc::strong_count` of `Shared`. -/
  shared : ℕ
  /-- Which wakers have not been consumed. The first one is that of the entry. -/
  wakers : List Bool

namespace Allocation

/-- `push` on a set whose `Shared` has `others` references. -/
def push (set : Members) (others : ℕ) : Allocation :=
  ⟨set.push, set.nextId, 1, others + 1, [true]⟩

/-- `Arc::clone` -/
def cloneArc (s : Allocation) : Allocation := { s with strong := s.strong + 1 }

/-- The drop of an `Arc<EntryWake>`; the last one drops the reference to `Shared`. -/
def dropArc (s : Allocation) : Allocation :=
  { s with
    strong := s.strong - 1
    shared := if s.strong = 1 then s.shared - 1 else s.shared }

/-- `EntryWake::wake` -/
def wake (s : Allocation) : Allocation := { s with set := { s.set.wake s.id with outer := none } }

def consume (s : Allocation) (k : ℕ) : Allocation := { s with wakers := s.wakers.set k false }

/-- The entry is reconstituted, cloned and forgotten, and the clone goes into a waker. -/
def entryWakeClone (s : Allocation) : Allocation :=
  { s.cloneArc with wakers := s.wakers ++ [true] }

/-- The entry is reconstituted, woken and forgotten. -/
def entryWakeWake (s : Allocation) (k : ℕ) : Allocation := s.wake.consume k

def entryWakeWakeRef (s : Allocation) : Allocation := s.wake

/-- The entry is reconstituted and dropped. -/
def entryWakeDrop (s : Allocation) (k : ℕ) : Allocation := s.dropArc.consume k

/-- What is done with the `k`-th waker. -/
inductive Call where
  | clone (k : ℕ)
  | wake (k : ℕ)
  | wakeByRef (k : ℕ)
  | drop (k : ℕ)

/-- A call on a waker that has not been consumed. -/
def step (s : Allocation) : Call → Option Allocation
  | .clone k => if s.wakers[k]? = some true then some s.entryWakeClone else none
  | .wake k => if s.wakers[k]? = some true then some (s.entryWakeWake k) else none
  | .wakeByRef k => if s.wakers[k]? = some true then some s.entryWakeWakeRef else none
  | .drop k => if s.wakers[k]? = some true then some (s.entryWakeDrop k) else none

/-- How many wakers have not been consumed. -/
def live (s : Allocation) : ℕ := total Bool.toNat s.wakers

/-- Every reference belongs to a waker, and the allocation is freed with the last waker. -/
structure Balanced (others : ℕ) (s : Allocation) : Prop where
  strong : s.strong = s.live
  shared : s.shared = others + if s.live = 0 then 0 else 1

/-- No waker is consumed by waking it. -/
def WakesByRef (_ : Allocation) : Call → Prop
  | .wake _ => False
  | .clone _ | .wakeByRef _ | .drop _ => True

variable {s t : Allocation} {others k : ℕ} {call : Call}

theorem live_pos (h : s.wakers[k]? = some true) : 0 < s.live := le_total Bool.toNat h

theorem live_consume (h : s.wakers[k]? = some true) : (s.consume k).live + 1 = s.live :=
  total_set Bool.toNat h false

theorem live_entryWakeClone (s : Allocation) : s.entryWakeClone.live = s.live + 1 := by
  simp [live, entryWakeClone]

theorem step_counts (h : s.step call = some t) :
    (∃ k, call = .clone k ∧ t.strong = s.strong + 1 ∧ t.live = s.live + 1 ∧
      t.shared = s.shared ∧ 0 < s.live) ∨
    (∃ k, call = .wake k ∧ t.strong = s.strong ∧ t.live + 1 = s.live) ∨
    (∃ k, call = .wakeByRef k ∧ t.strong = s.strong ∧ t.live = s.live ∧ t.shared = s.shared) ∨
    ∃ k, call = .drop k ∧ t.strong = s.strong - 1 ∧ t.live + 1 = s.live ∧
      t.shared = if s.strong = 1 then s.shared - 1 else s.shared := by
  cases call with
  | clone k =>
    obtain ⟨hlive, heq⟩ := Option.ite_none_right_eq_some.mp h
    cases heq
    exact .inl ⟨k, rfl, rfl, live_entryWakeClone s, rfl, live_pos hlive⟩
  | wake k =>
    obtain ⟨hlive, heq⟩ := Option.ite_none_right_eq_some.mp h
    cases heq
    exact .inr (.inl ⟨k, rfl, rfl, live_consume hlive⟩)
  | wakeByRef k =>
    obtain ⟨hlive, heq⟩ := Option.ite_none_right_eq_some.mp h
    cases heq
    exact .inr (.inr (.inl ⟨k, rfl, rfl, rfl, rfl⟩))
  | drop k =>
    obtain ⟨hlive, heq⟩ := Option.ite_none_right_eq_some.mp h
    cases heq
    exact .inr (.inr (.inr ⟨k, rfl, rfl, live_consume hlive, rfl⟩))

theorem Balanced.push (set : Members) (others : ℕ) : Balanced others (push set others) :=
  ⟨rfl, rfl⟩

theorem Balanced.step (h : Balanced others s) (hcall : s.WakesByRef call)
    (hstep : s.step call = some t) : Balanced others t := by
  obtain ⟨hstrong, hshared⟩ := h
  rcases step_counts hstep with ⟨k, rfl, hstrong', hlive, hshared', hpos⟩ | ⟨k, rfl, -⟩ |
    ⟨k, rfl, hstrong', hlive, hshared'⟩ | ⟨k, rfl, hstrong', hlive, hshared'⟩
  · refine ⟨by omega, ?_⟩
    rw [hshared', hshared, if_neg hpos.ne', hlive, if_neg (Nat.succ_ne_zero _)]
  · exact hcall.elim
  · refine ⟨by omega, ?_⟩
    rw [hshared', hshared, hlive]
  · refine ⟨by omega, ?_⟩
    rw [hshared', hshared, if_neg (show s.live ≠ 0 by omega)]
    by_cases hlast : s.strong = 1
    · rw [if_pos hlast, if_pos (by omega)]
      omega
    · rw [if_neg hlast, if_neg (by omega)]

/-- A waker that is woken by value leaves its reference behind. -/
theorem Balanced.not_wake (h : Balanced others s) (hstep : s.step call = some t)
    (ht : Balanced others t) : s.WakesByRef call := by
  have hbefore := h.strong
  have hafter := ht.strong
  rcases step_counts hstep with ⟨k, rfl, -⟩ | ⟨k, rfl, hstrong, hlive⟩ | ⟨k, rfl, -⟩ |
    ⟨k, rfl, -⟩
  · trivial
  · omega
  · trivial
  · trivial

theorem balanced_iff_wakesByRef (set : Members) (others : ℕ) (calls : List Call) :
    Always step (Balanced others) (push set others) calls ↔
      Obeys step WakesByRef (push set others) calls :=
  always_iff_obeys (fun _ h => h) (fun _ _ _ h hcall hstep => h.step hcall hstep)
    (fun _ _ _ h hstep ht => h.not_wake hstep ht) (Balanced.push set others) calls

/-- A clone of the entry's waker is woken and the entry removed: no waker is left, and the
allocation keeps a reference and the reference to `Shared`. -/
theorem wake_leaks_reference :
    (∃ s, run step (push .new 1) [.clone 0, .wake 1, .drop 0] = some s ∧ s.live = 0 ∧
      s.strong = 1 ∧ s.shared = 2) ∧
    ¬ Always step (Balanced 1) (push .new 1) [.clone 0, .wake 1, .drop 0] := by
  refine ⟨⟨_, rfl, rfl, rfl, rfl⟩, fun h => ?_⟩
  have hlast := (((h.2 _ rfl).2 _ rfl).2 _ rfl).head.strong
  exact absurd hlast (by decide)

end Allocation
end Eddy.FuturesUnordered
