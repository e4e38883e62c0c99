import Eddy.CoopResources

/-!
# Tasks that wait for several resources

A task that polls its operations in a fixed order, on resources of all kinds. The operations
behind the first 128 are not registered by any poll of the task.
-/

namespace Eddy.Coop
open Interleaving

variable {α : Type} {waker : ℕ}

variable (α) in
inductive Resource where
  | channel (s : Mpsc.State α)
  | semaphore (s : Semaphore.State)
  | lock (s : RwLock.State)
  | notify (s : Notify.State)
  | broadcast (s : Broadcast.System α)
  | watch (s : Watch.System α)

/-- The poll with budget of a future or receiver of the resource, or of the `Recv` of a channel. -/
def Resource.poll (waker : ℕ) : Option ℕ → Resource α → Option (Bool × Resource α)
  | x, .channel s => (pollChannel waker x s).map (Prod.map id .channel)
  | some i, .semaphore s => (pollSemaphore waker i s).map (Prod.map id .semaphore)
  | some i, .lock s => (pollLock waker i s).map (Prod.map id .lock)
  | some i, .notify s => (pollNotified waker i s).map (Prod.map id .notify)
  | some i, .broadcast s => (pollBroadcast waker i s).map (Prod.map id .broadcast)
  | some i, .watch s => (pollWatch waker i s).map (Prod.map id .watch)
  | none, _ => none

/-- The operation is registered with its resource. -/
def Resource.Has : Option ℕ → Resource α → Prop
  | x, .channel s => channelHas x s
  | some i, .semaphore s => semaphoreHas i s
  | some i, .lock s => lockHas i s
  | some i, .notify s => notifyHas i s
  | some i, .broadcast s => broadcastHas i s
  | some i, .watch s => watchHas i s
  | none, _ => False

def Resource.Slotted : Resource α → Prop
  | .broadcast s => s.Slotted
  | .channel _ | .semaphore _ | .lock _ | .notify _ | .watch _ => True

def Resource.Waiting (waker : ℕ) (x : Option ℕ) (r : Resource α) : Prop :=
  Waits (Resource.poll waker) x r ∧ r.Slotted

theorem Resource.lift_future {ρ' : Type} {body' : ℕ → ρ' → Option (Bool × ρ')}
    {waiting' registered' : ℕ → ρ' → Prop} (h : Registers body' waiting' registered')
    {kind : ρ' → Resource α}
    (hbody : ∀ i s, Resource.poll waker (some i) (kind s) = (body' i s).map (Prod.map id kind))
    (hwaiting : ∀ i s, waiting' i s ↔ Waits body' i s ∧ (kind s).Slotted)
    (hhas : ∀ i s, Has (some i) (kind s) ↔ registered' i s)
    (hnone : ∀ s, Resource.poll waker none (kind s) = none ∧ ¬ Has none (kind s)) {x : Option ℕ}
    {s : ρ'} (hwait : Waiting waker x (kind s)) :
    ∃ r', Resource.poll waker x (kind s) = some (false, r') ∧ Has x r' ∧
      (∀ y, y ≠ x → (Has y r' ↔ Has y (kind s))) ∧
      ∀ y, Waiting waker y (kind s) → Waiting waker y r' := by
  refine h.lift kind some hbody (fun i s => ?_) hhas (fun y s => ?_) hwait
  · rw [hwaiting, Waiting, Waits, hbody, exists_map_pending]
    rfl
  · cases y with
    | none =>
      refine .inr ⟨fun hy => ?_, (hnone s).2⟩
      obtain ⟨r', hpoll⟩ := hy.1
      rw [(hnone s).1] at hpoll
      cases hpoll
    | some i => exact .inl ⟨i, rfl⟩

theorem resource_registers (waker : ℕ) :
    Registers (Resource.poll waker) (Resource.Waiting (α := α) waker) Resource.Has := by
  constructor
  intro x r hwait
  cases r with
  | channel s =>
    exact (channel_registers waker).lift Resource.channel id (fun _ _ => rfl)
      (fun x s => (and_iff_left trivial).trans (exists_map_pending Resource.channel))
      (fun _ _ => Iff.rfl) (fun x _ => .inl ⟨x, rfl⟩) hwait
  | semaphore s =>
    exact Resource.lift_future (semaphore_registers waker) (fun _ _ => rfl)
      (fun _ _ => (and_iff_left trivial).symm) (fun _ _ => Iff.rfl) (fun _ => ⟨rfl, id⟩) hwait
  | lock s =>
    exact Resource.lift_future (lock_registers waker) (fun _ _ => rfl)
      (fun _ _ => (and_iff_left trivial).symm) (fun _ _ => Iff.rfl) (fun _ => ⟨rfl, id⟩) hwait
  | notify s =>
    exact Resource.lift_future (notify_registers waker) (fun _ _ => rfl)
      (fun _ _ => (and_iff_left trivial).symm) (fun _ _ => Iff.rfl) (fun _ => ⟨rfl, id⟩) hwait
  | broadcast s =>
    exact Resource.lift_future (broadcast_registers waker) (fun _ _ => rfl)
      (fun _ _ => Iff.rfl) (fun _ _ => Iff.rfl) (fun _ => ⟨rfl, id⟩) hwait
  | watch s =>
    exact Resource.lift_future (watch_registers waker) (fun _ _ => rfl)
      (fun _ _ => (and_iff_left trivial).symm) (fun _ _ => Iff.rfl) (fun _ => ⟨rfl, id⟩) hwait

/-- The broadcast channels are in states that their operations lead to. -/
def Built (resources : List (Resource α)) : Prop :=
  ∀ s, .broadcast s ∈ resources → ∃ capacity, 0 < capacity ∧
    Reachable Broadcast.System.step anyStep (.new capacity) s

theorem Built.waiting {resources : List (Resource α)} (h : Built resources) {op : ℕ × Option ℕ}
    (hwait : Waits (pollTable (Resource.poll waker)) op resources) :
    OfTable (Resource.Waiting waker) op resources := by
  obtain ⟨resources', hpoll⟩ := hwait
  obtain ⟨r, hr, hpoll⟩ := Option.bind_eq_some_iff.mp hpoll
  obtain ⟨⟨ready, r'⟩, hpoll, heq⟩ := Option.map_eq_some_iff.mp hpoll
  obtain ⟨rfl, -⟩ := Prod.ext_iff.mp heq
  refine ⟨r, hr, ⟨r', hpoll⟩, ?_⟩
  cases r with
  | broadcast s =>
    obtain ⟨capacity, hcapacity, hs⟩ := h s (List.mem_of_getElem? hr)
    exact (Broadcast.System.sound_slotted hcapacity hs).2
  | channel | semaphore | lock | notify | watch => trivial

/-- An operation whose resource is not ready leaves the budget as it was only when there is none.
The operations that a task polls in their order are all registered at last only when no more than
128 of them had to be. -/
theorem waiting_spends_budget (waker : ℕ) {resources : List (Resource α)} (h : Built resources) :
    (∀ op cell resources', hasBudgetRemaining cell = true →
      pollTable (Resource.poll waker) op resources = some (false, resources') →
      (pollOperation (pollTable (Resource.poll waker) op) cell resources =
        some (false, cell, resources') ↔ cell = none)) ∧
    ∀ ops, (∀ op ∈ ops, Waits (pollTable (Resource.poll waker)) op resources) →
      ((∃ k resources', taskPolls (pollTable (Resource.poll waker)) ops k resources =
        some resources' ∧ ∀ op ∈ ops, OfTable Resource.Has op resources') ↔
        ∀ op ∈ ops, op ∈ ops.take budget ∨ OfTable Resource.Has op resources) := by
  constructor
  · intro op cell resources' hbudget hpoll
    exact pollOperation_waiting hbudget hpoll
  · intro ops hwait
    exact (resource_registers waker).table.exists_taskPolls fun op hop => h.waiting (hwait op hop)

/-- A `Notify` with 129 futures. -/
def crowd : Resource ℕ := .notify { Notify.State.new with futures := List.replicate 129 .new }

theorem crowd_waits {i : ℕ} (hi : i < 129) :
    Waits (pollTable (Resource.poll 0)) (0, some i) [crowd] := by
  have hlive : Notify.State.future { Notify.State.new with futures := List.replicate 129 .new } i
      .live = some .new := by
    rw [Notify.State.future, List.getElem?_replicate_of_lt hi]
    rfl
  obtain ⟨s', hpoll⟩ : ∃ s', pollNotified 0 i
      { Notify.State.new with futures := List.replicate 129 .new } = some (false, s') :=
    ⟨_, pollNotified_pending.mpr ⟨.new, hlive, ⟨rfl, rfl⟩, rfl⟩⟩
  have hcrowd : Resource.poll 0 (some i) crowd = some (false, .notify s') := by
    rw [crowd, Resource.poll, hpoll]
    rfl
  refine ⟨[.notify s'], ?_⟩
  rw [pollTable, List.getElem?_cons_zero, Option.bind_some, hcrowd]
  rfl

/-- A future spends a unit of the budget to wait, and a task never comes to the last future. -/
theorem waiting_starves :
    (¬ ∀ op cell resources', hasBudgetRemaining cell = true →
      pollTable (Resource.poll 0) op [crowd] = some (false, resources') →
      pollOperation (pollTable (Resource.poll 0) op) cell [crowd] =
        some (false, cell, resources')) ∧
    ¬ ∀ ops, (∀ op ∈ ops, Waits (pollTable (Resource.poll 0)) op [crowd]) →
      ∃ k resources', taskPolls (pollTable (Resource.poll 0)) ops k [crowd] = some resources' ∧
        ∀ op ∈ ops, OfTable Resource.Has op resources' := by
  constructor
  · intro h
    obtain ⟨resources', hpoll⟩ := crowd_waits (show 0 < 129 by decide)
    have hsame := h (0, some 0) (some 128) resources' rfl hpoll
    cases (pollOperation_waiting rfl hpoll).mp hsame
  · intro h
    have hwait : ∀ op ∈ (List.range 129).map fun i => (0, some i),
        OfTable (Resource.Waiting 0) op [crowd] := by
      intro op hop
      obtain ⟨i, hi, rfl⟩ := List.mem_map.mp hop
      exact Built.waiting (by simp [Built, crowd]) (crowd_waits (List.mem_range.mp hi))
    have hall := h _ fun op hop => by
      obtain ⟨i, hi, rfl⟩ := List.mem_map.mp hop
      exact crowd_waits (List.mem_range.mp hi)
    rcases ((resource_registers 0).table.exists_taskPolls hwait).mp hall (0, some 128)
      (by decide +kernel) with htake | ⟨r, hr, hhas⟩
    · exact absurd htake (by decide +kernel)
    · cases hr
      obtain ⟨f, hf, hregistered⟩ := hhas
      cases hf
      cases hregistered

/-- 128 futures are all registered by one poll of the task. -/
theorem waiting_spends_budget_crowd :
    ∃ k resources', taskPolls (pollTable (Resource.poll 0))
        ((List.range 128).map fun i => (0, some i)) k [crowd] = some resources' ∧
      ∀ op ∈ (List.range 128).map fun i => (0, some i), OfTable Resource.Has op resources' := by
  have hbuilt : Built [crowd] := by simp [Built, crowd]
  refine ((waiting_spends_budget 0 hbuilt).2 _ fun op hop => ?_).mpr fun op hop => .inl ?_
  · obtain ⟨i, hi, rfl⟩ := List.mem_map.mp hop
    exact crowd_waits (Nat.lt_succ_of_lt (List.mem_range.mp hi))
  · rwa [List.take_of_length_le (by simp [budget])]

end Eddy.Coop
