import Eddy.Watch

/-!
# The waker list of a watch channel

`changed()` of `sync/watch.rs` as a future that is polled and dropped: every poll that returns
`Pending` pushes a waker, and only a send and the drop of a sender take wakers out. The future
borrows its receiver, so that a receiver has one wait at most, and is not cloned, read or dropped
meanwhile.
-/

namespace Eddy.Watch
open Interleaving

variable {α : Type}

/-- The `changed()` of a receiver. -/
inductive Wait where
  | none
  /-- In progress, and not registered since the wakers were last taken. -/
  | fresh
  | registered
  deriving DecidableEq

structure Waiters (α : Type) where
  system : System α
  /-- The wait of each receiver. -/
  waits : List Wait
  /-- Since the wakers were last taken: the polls of waits that were registered already, and the
  waits that ended registered. -/
  leftOver : ℕ

inductive WaitLabel (α : Type) where
  | channel (a : Label α)
  /-- `changed()` -/
  | start (j : ℕ)
  | poll (j : ℕ) (proceed : Bool) (waker : ℕ)
  /-- The future is dropped. -/
  | cancel (j : ℕ)

namespace Waiters

def new (init : α) : Waiters α := ⟨.new init, [.none], 0⟩

/-- A receiver that a wait borrows is polled through the wait only. -/
def borrowed (s : Waiters α) : Label α → Bool
  | .cloneReceiver j | .borrowAndUpdate j | .dropReceiver j => s.waits[j]? ≠ some .none
  | .poll _ _ _ => true
  | _ => false

/-- A send, or the drop of a sender, has taken the wakers. -/
def take (s : Waiters α) : Waiters α :=
  { s with
    waits := s.waits.map fun w => if w = .registered then .fresh else w
    leftOver := 0 }

/-- A wait goes on, or ends. -/
def turn (s : Waiters α) (j : ℕ) (w next : Wait) : Waiters α :=
  { s with
    waits := s.waits.set j next
    leftOver := s.leftOver + if w = .registered then 1 else 0 }

def wait (s : Waiters α) (j : ℕ) : Option Wait := s.waits[j]?.filter (· ≠ .none)

def step (s : Waiters α) : WaitLabel α → Option (Waiters α)
  | .channel a =>
      if s.borrowed a then none
      else (s.system.step a).map fun system =>
        match a with
        | .send _ _ | .dropSender _ => { s with system := system }.take
        | .cloneReceiver _ => { s with system := system, waits := s.waits ++ [.none] }
        | _ => { s with system := system }
  | .start j =>
      (s.system.receiver j).bind fun _ =>
        if s.waits[j]? = some .none then some { s with waits := s.waits.set j .fresh } else none
  | .poll j proceed waker =>
      (s.system.receiver j).bind fun r => (s.wait j).bind fun w =>
        (s.system.step (.poll j proceed waker)).map fun system =>
          if proceed then
            match (s.system.state.pollChanged s.system.strongCount r.version waker).1 with
            | .pending => { s with system := system }.turn j w .registered
            | _ => { s with system := system }.turn j w .none
          else { s with system := system }
  | .cancel j => (s.wait j).map fun w => s.turn j w .none

/-- The waits in progress. -/
def inProgress (s : Waiters α) : ℕ := total (fun w => if w = .none then 0 else 1) s.waits

/-- Those that have not registered since the wakers were last taken. -/
def unregistered (s : Waiters α) : ℕ := total (fun w => if w = .fresh then 1 else 0) s.waits

def registered (s : Waiters α) : ℕ := total (fun w => if w = .registered then 1 else 0) s.waits

/-- The waits in progress are those of live receivers, and no more wakers are stored. -/
structure Bounded (s : Waiters α) : Prop where
  live : ∀ j, (s.wait j).isSome → (s.system.receiver j).isSome
  bound : s.system.state.wakers.length ≤ s.inProgress

/-- A wait that has registered is not polled again and does not end before the wakers are taken. -/
def RegistersOnce (s : Waiters α) : WaitLabel α → Prop
  | .poll j true _ | .cancel j => s.wait j ≠ some .registered
  | _ => True

/-- A wait is polled with budget, or ends, only while what is left over is less than the waits that
have not registered. -/
def Spare (s : Waiters α) : WaitLabel α → Prop
  | .poll _ true _ | .cancel _ => s.leftOver < s.unregistered
  | _ => True

end Waiters

namespace System

variable {s t : System α} {j : ℕ}

theorem isSome_receiver :
    (s.receiver j).isSome = true ↔ (s.receivers.map Receiver.live)[j]? = some true := by
  simp [receiver, Option.any_eq_true]

theorem live_modify {f : Receiver → Receiver} (h : ∀ r, (f r).live = r.live)
    (receivers : List Receiver) (k j : ℕ) :
    ((receivers.modify k f).map Receiver.live)[j]? = (receivers.map Receiver.live)[j]? := by
  simp only [List.getElem?_map, List.getElem?_modify]
  cases receivers[j]? with
  | none => rfl
  | some r => by_cases hkj : k = j <;> simp [hkj, h]

/-- A poll stores a waker just when it returns `Pending`. -/
theorem wakers_poll (s : System α) (j : ℕ) (r : Receiver) (waker : ℕ) :
    (s.poll j r waker).state.wakers.length = s.state.wakers.length +
      if (s.state.pollChanged s.strongCount r.version waker).1 = .pending then 1 else 0 := by
  unfold poll State.pollChanged
  split_ifs <;> simp_all

theorem live_step {a : Label α} (hs : s.step a = some t) (hkept : a ≠ .dropReceiver j)
    (h : (s.receiver j).isSome = true) : (t.receiver j).isSome = true := by
  rw [isSome_receiver] at h ⊢
  cases steps hs with
  | cloneSender | send | dropSender | releaseSender | exhausted => exact h
  | wake => simpa [wake] using h
  | cloneReceiver =>
    have hlt := (List.getElem?_eq_some_iff.mp h).1
    simpa [List.getElem?_append_left hlt] using h
  | poll | borrowAndUpdate =>
    rw [← h]
    apply live_modify
    intro r
    rfl
  | @dropReceiver k =>
    have hne : k ≠ j := fun heq => hkept (heq ▸ rfl)
    simpa [List.getElem?_modify, hne] using h

end System

namespace Waiters

variable {s t : Waiters α} {j : ℕ} {w : Wait}

theorem wait_eq_some (h : s.wait j = some w) : s.waits[j]? = some w ∧ w ≠ .none := by
  simpa [wait, Option.filter_eq_some_iff] using h

theorem inProgress_eq (s : Waiters α) : s.inProgress = s.registered + s.unregistered := by
  unfold inProgress registered unregistered
  rw [← total_add]
  congr 1
  funext w
  cases w <;> rfl

structure Counted (s : Waiters α) : Prop where
  live : ∀ j, (s.wait j).isSome → (s.system.receiver j).isSome
  count : s.system.state.wakers.length = s.registered + s.leftOver

theorem Counted.bounded_iff (h : Counted s) : s.Bounded ↔ s.leftOver ≤ s.unregistered := by
  have hcount := h.count
  have hsum := s.inProgress_eq
  constructor
  · intro hb
    have hbound := hb.bound
    omega
  · intro hle
    exact ⟨h.live, by omega⟩

theorem Counted.new (init : α) : Counted (.new init) where
  live := by
    intro j hj
    cases j <;> simp [Waiters.new, wait] at hj
  count := rfl

theorem registered_turn (hw : s.wait j = some w) (next : Wait) :
    (s.turn j w next).registered + (if w = .registered then 1 else 0) =
      s.registered + if next = .registered then 1 else 0 :=
  total_set _ (wait_eq_some hw).1 next

theorem unregistered_turn (hw : s.wait j = some w) (next : Wait) :
    (s.turn j w next).unregistered + (if w = .fresh then 1 else 0) =
      s.unregistered + if next = .fresh then 1 else 0 :=
  total_set _ (wait_eq_some hw).1 next

theorem registered_take (s : Waiters α) : s.take.registered = 0 := by
  unfold registered take
  rw [total_eq_zero_iff]
  intro w hw
  obtain ⟨v, -, rfl⟩ := List.mem_map.mp hw
  split_ifs <;> simp_all

variable {system : System α} {a : WaitLabel α}

/-- A wait that goes on or ends leaves its stored waker over. -/
theorem Counted.turn {next : Wait} (h : Counted s) (hw : s.wait j = some w)
    (hlive : ∀ k, (s.system.receiver k).isSome → (system.receiver k).isSome)
    (hwakers : system.state.wakers.length =
      s.system.state.wakers.length + if next = .registered then 1 else 0) :
    Counted ({ s with system := system }.turn j w next) where
  live := by
    intro k hk
    apply hlive
    by_cases hkj : k = j
    · rw [hkj]
      exact h.live j (by rw [hw]; rfl)
    · apply h.live
      simpa [wait, Waiters.turn, Ne.symm hkj] using hk
  count := by
    have hcount := h.count
    have hturn := registered_turn hw next
    simp only [Waiters.turn, registered] at hturn hcount ⊢
    omega

theorem Counted.keep (h : Counted s)
    (hlive : ∀ k, (s.wait k).isSome → (s.system.receiver k).isSome → (system.receiver k).isSome)
    (hwakers : system.state.wakers = s.system.state.wakers) :
    Counted { s with system := system } where
  live := fun k hk => hlive k hk (h.live k hk)
  count := by
    rw [hwakers]
    exact h.count

theorem Counted.take (h : Counted s)
    (hlive : ∀ k, (s.system.receiver k).isSome → (system.receiver k).isSome)
    (hwakers : system.state.wakers = []) : Counted { s with system := system }.take where
  live := by
    intro k hk
    apply hlive
    apply h.live
    unfold wait at hk ⊢
    simp only [Waiters.take, List.getElem?_map] at hk
    cases hw : s.waits[k]? with
    | none => simp [hw] at hk
    | some w => cases w <;> simp_all
  count := by
    rw [registered_take]
    simp [Waiters.take, hwakers]

theorem Counted.grow (h : Counted s)
    (hlive : ∀ k, (s.system.receiver k).isSome → (system.receiver k).isSome)
    (hwakers : system.state.wakers = s.system.state.wakers) :
    Counted { s with system := system, waits := s.waits ++ [.none] } where
  live := by
    intro k hk
    apply hlive
    apply h.live
    unfold wait at hk ⊢
    rcases lt_trichotomy k s.waits.length with hlt | heq | hgt
    · simpa [List.getElem?_append_left hlt] using hk
    · simp [heq] at hk
    · have hnone : (s.waits ++ [Wait.none])[k]? = none :=
        List.getElem?_eq_none (by rw [List.length_append, List.length_singleton]; omega)
      simp [hnone] at hk
  count := by
    have hcount := h.count
    simp only [registered, total_append, total_cons, total_nil] at hcount ⊢
    rw [hwakers, hcount]
    simp

/-- What does not concern the waits keeps the count of the wakers; a send makes it zero. -/
theorem Counted.channel {a : Label α} (h : Counted s) (hs : s.step (.channel a) = some t) :
    Counted t := by
  simp only [Waiters.step] at hs
  split_ifs at hs with hborrowed
  obtain ⟨system, hsystem, rfl⟩ := Option.map_eq_some_iff.mp hs
  have hlive (k : ℕ) (hkept : a ≠ .dropReceiver k) := System.live_step (j := k) hsystem hkept
  cases System.steps hsystem with
  | send | dropSender => exact h.take (fun k => hlive k nofun) rfl
  | cloneReceiver => exact h.grow (fun k => hlive k nofun) rfl
  | exhausted | poll => simp [borrowed] at hborrowed
  | @dropReceiver j =>
    refine h.keep (fun k hk => hlive k ?_) rfl
    rintro heq
    cases heq
    simp only [borrowed, ne_eq, decide_not, Bool.not_eq_true', decide_eq_false_iff_not,
      not_not] at hborrowed
    simp [wait, hborrowed] at hk
  | cloneSender | wake | releaseSender | borrowAndUpdate =>
    exact h.keep (fun k _ => hlive k nofun) rfl

theorem step_start (hs : s.step (.start j) = some t) :
    (s.system.receiver j).isSome = true ∧ s.waits[j]? = some .none ∧
      t = { s with waits := s.waits.set j .fresh } := by
  obtain ⟨r, hr, hs⟩ := Option.bind_eq_some_iff.mp hs
  obtain ⟨hnone, hs⟩ := Option.ite_none_right_eq_some.mp hs
  cases hs
  exact ⟨by rw [hr]; rfl, hnone, rfl⟩

/-- A poll without budget changes nothing; one with budget stores a waker or ends the wait. -/
theorem step_poll {proceed : Bool} {waker : ℕ} (hs : s.step (.poll j proceed waker) = some t) :
    ∃ system, (∀ k, (s.system.receiver k).isSome → (system.receiver k).isSome) ∧
      (proceed = false ∧ system.state.wakers = s.system.state.wakers ∧
          t = { s with system := system } ∨
        proceed = true ∧ ∃ w next, s.wait j = some w ∧ next ≠ .fresh ∧
          system.state.wakers.length =
            s.system.state.wakers.length + (if next = .registered then 1 else 0) ∧
          t = { s with system := system }.turn j w next) := by
  obtain ⟨r, hr, hs⟩ := Option.bind_eq_some_iff.mp hs
  obtain ⟨w, hw, hs⟩ := Option.bind_eq_some_iff.mp hs
  obtain ⟨system, hsystem, rfl⟩ := Option.map_eq_some_iff.mp hs
  refine ⟨system, fun k => System.live_step hsystem nofun, ?_⟩
  simp only [System.step, hr, Option.map_some, Option.some.injEq] at hsystem
  cases proceed with
  | false =>
    left
    subst hsystem
    exact ⟨rfl, rfl, rfl⟩
  | true =>
    right
    subst hsystem
    have hwakers := s.system.wakers_poll j r waker
    cases hresult : (s.system.state.pollChanged s.system.strongCount r.version waker).1 with
    | pending => exact ⟨rfl, w, .registered, hw, nofun, by simpa [hresult] using hwakers, rfl⟩
    | ok | error => exact ⟨rfl, w, .none, hw, nofun, by simpa [hresult] using hwakers, rfl⟩

theorem Counted.start (h : Counted s) (hr : (s.system.receiver j).isSome = true)
    (hnone : s.waits[j]? = some .none) : Counted { s with waits := s.waits.set j .fresh } where
  live := by
    intro k hk
    by_cases hkj : k = j
    · rw [hkj]
      exact hr
    · apply h.live
      simpa [wait, Ne.symm hkj] using hk
  count := by
    have hcount := h.count
    have hset := total_set (fun w => if w = .registered then 1 else 0) hnone .fresh
    simp only [registered] at hcount ⊢
    simp at hset
    omega

theorem Counted.step (h : Counted s) (hs : s.step a = some t) : Counted t := by
  cases a with
  | channel a => exact h.channel hs
  | start j =>
    obtain ⟨hr, hnone, rfl⟩ := step_start hs
    exact h.start hr hnone
  | poll j proceed waker =>
    obtain ⟨system, hlive, ⟨-, hwakers, rfl⟩ | ⟨-, w, next, hw, -, hwakers, rfl⟩⟩ := step_poll hs
    · exact h.keep (fun k _ => hlive k) hwakers
    · exact h.turn hw hlive hwakers
  | cancel j =>
    obtain ⟨w, hw, rfl⟩ := Option.map_eq_some_iff.mp hs
    exact h.turn hw (fun _ hk => hk) rfl

/-- Whatever becomes of a wait that is polled with budget or ends, one unregistered wait less is
left for the wakers that are left over. -/
theorem le_turn_iff {next : Wait} (hw : s.wait j = some w)
    (hnext : next ≠ .fresh) :
    ({ s with system := system }.turn j w next).leftOver ≤
      ({ s with system := system }.turn j w next).unregistered ↔ s.leftOver < s.unregistered := by
  have hturn := unregistered_turn hw next
  simp only [hnext, if_false, unregistered, Waiters.turn] at hturn ⊢
  cases w with
  | none => exact absurd rfl (wait_eq_some hw).2
  | fresh | registered =>
    simp only [if_true, reduceCtorEq, if_false] at hturn ⊢
    omega

theorem le_channel {a : Label α} (h : s.leftOver ≤ s.unregistered)
    (hs : s.step (.channel a) = some t) : t.leftOver ≤ t.unregistered := by
  simp only [Waiters.step] at hs
  split_ifs at hs
  obtain ⟨system, -, rfl⟩ := Option.map_eq_some_iff.mp hs
  split
  · exact Nat.zero_le _
  · exact Nat.zero_le _
  · simpa [unregistered] using h
  · exact h

theorem le_start (h : s.leftOver ≤ s.unregistered) (hs : s.step (.start j) = some t) :
    t.leftOver ≤ t.unregistered := by
  obtain ⟨-, hnone, rfl⟩ := step_start hs
  have hset := total_set (fun w => if w = .fresh then 1 else 0) hnone .fresh
  simp only [unregistered] at h ⊢
  simp at hset
  omega

/-- A step that is polled with budget or ends a wait keeps the bound just when there is room. -/
theorem le_step_iff (h : s.leftOver ≤ s.unregistered) (hs : s.step a = some t) :
    t.leftOver ≤ t.unregistered ↔ s.Spare a := by
  cases a with
  | channel a => exact iff_of_true (le_channel h hs) trivial
  | start j => exact iff_of_true (le_start h hs) trivial
  | poll j proceed waker =>
    obtain ⟨system, -, ⟨rfl, -, rfl⟩ | ⟨rfl, w, next, hw, hnext, -, rfl⟩⟩ := step_poll hs
    · exact iff_of_true h trivial
    · exact le_turn_iff hw hnext
  | cancel j =>
    obtain ⟨w, hw, rfl⟩ := Option.map_eq_some_iff.mp hs
    exact le_turn_iff hw nofun

theorem always_bounded_iff (init : α) (labels : List (WaitLabel α)) :
    Always step Bounded (new init) labels ↔ Obeys step Spare (new init) labels := by
  apply always_iff_obeys (I := fun s => Counted s ∧ s.leftOver ≤ s.unregistered)
  · rintro s ⟨hcounted, hle⟩
    exact hcounted.bounded_iff.mpr hle
  · rintro s a t ⟨hcounted, hle⟩ hspare hs
    exact ⟨hcounted.step hs, (le_step_iff hle hs).mpr hspare⟩
  · rintro s a t ⟨hcounted, hle⟩ hs hbounded
    exact (le_step_iff hle hs).mp ((hcounted.step hs).bounded_iff.mp hbounded)
  · exact ⟨.new init, Nat.zero_le _⟩

theorem leftOver_step (hnone : s.leftOver = 0) (honce : s.RegistersOnce a)
    (hs : s.step a = some t) : t.leftOver = 0 := by
  cases a with
  | channel a =>
    simp only [Waiters.step] at hs
    split_ifs at hs
    obtain ⟨system, -, rfl⟩ := Option.map_eq_some_iff.mp hs
    split
    · rfl
    · rfl
    · exact hnone
    · exact hnone
  | start j =>
    obtain ⟨-, -, rfl⟩ := step_start hs
    exact hnone
  | poll j proceed waker =>
    obtain ⟨system, -, ⟨-, -, rfl⟩ | ⟨rfl, w, next, hw, -, -, rfl⟩⟩ := step_poll hs
    · exact hnone
    · have hw' : w ≠ .registered := fun heq => honce (hw.trans (congrArg some heq))
      simp [Waiters.turn, hnone, hw']
  | cancel j =>
    obtain ⟨w, hw, rfl⟩ := Option.map_eq_some_iff.mp hs
    have hw' : w ≠ .registered := fun heq => honce (hw.trans (congrArg some heq))
    simp [Waiters.turn, hnone, hw']

/-- As long as no wait registers twice or ends registered, no waker is left over. -/
theorem always_bounded_of_once (init : α) {labels : List (WaitLabel α)}
    (h : Obeys step RegistersOnce (new init) labels) : Always step Bounded (new init) labels := by
  apply h.always (I := fun s => Counted s ∧ s.leftOver = 0)
  · rintro s ⟨hcounted, hnone⟩
    exact hcounted.bounded_iff.mpr (hnone ▸ Nat.zero_le _)
  · rintro s a t ⟨hcounted, hnone⟩ honce hs
    exact ⟨hcounted.step hs, leftOver_step hnone honce hs⟩
  · exact ⟨.new init, rfl⟩

/-- The stored wakers are no more than the waits in progress just as long as no wait is polled with
budget, and none ends, without an unregistered wait to spare; in particular when every wait
registers once and ends with its waker taken. -/
theorem wakers_bounded (init : α) (labels : List (WaitLabel α)) :
    (Always step Bounded (new init) labels ↔ Obeys step Spare (new init) labels) ∧
      (Obeys step RegistersOnce (new init) labels → Always step Bounded (new init) labels) :=
  ⟨always_bounded_iff init labels, always_bounded_of_once init⟩

/-- A wait is polled twice, and another run drops it after its first poll. -/
theorem wakers_pile_up :
    (∃ s, run step (new 0) [.start 0, .poll 0 true 7, .poll 0 true 7] = some s ∧
      s.system.state.wakers = [7, 7] ∧ s.inProgress = 1 ∧ ¬ s.Bounded) ∧
    ∃ s, run step (new 0) [.start 0, .poll 0 true 7, .cancel 0] = some s ∧
      s.system.state.wakers = [7] ∧ s.inProgress = 0 ∧ ¬ s.Bounded := by
  refine ⟨⟨_, rfl, rfl, rfl, fun h => ?_⟩, _, rfl, rfl, rfl, fun h => ?_⟩
  · exact absurd h.bound (by decide)
  · exact absurd h.bound (by decide)

end Waiters

end Eddy.Watch
