import Eddy.LocalQueueInvariant

/-!
# Every accepted item is handed out exactly once

As long as each claim that succeeds ends at or before the owner's tail, an accepted item
has been popped, or moved out by a steal, or is still live, and only one of the three. The
owner's `pop` touches the head word only for the last item, so a thief that read the tail before
several pops can still claim slots whose items the owner has taken.
-/

namespace Eddy.LocalQueue
open WrappingIndex Interleaving

variable {T : Type}

section
variable [DecidableEq T]

theorem reachable_inv {cap : Capacity} {s : State T}
    (h : Reachable (step cap) (ClaimFits cap) State.init s) : ∃ p, Inv cap s p := by
  refine h.invariant (I := fun s => ∃ p, Inv cap s p) ⟨_, inv_init⟩ ?_
  rintro s a t ⟨p, inv⟩ hfit hs
  obtain ⟨p', inv', -⟩ := inv.step hfit hs
  exact ⟨p', inv'⟩

theorem handed_out_exactly_once {cap : Capacity} {s : State T}
    (h : Reachable (step cap) (ClaimFits cap) State.init s) (x : T) :
    s.queue.popped.count x + s.queue.stolen.count x + s.live cap x = s.queue.accepted.count x ∧
      (s.queue.accepted.Nodup → x ∈ s.queue.accepted →
        s.queue.popped.count x + s.queue.stolen.count x + s.live cap x = 1) := by
  obtain ⟨p, inv⟩ := reachable_inv h
  have hbal := inv.live_eq x
  refine ⟨hbal, fun hnodup hx => ?_⟩
  rw [hbal]
  exact List.count_eq_one_of_mem hnodup hx

end

/-- A `pop` that takes an item which is not the last one. -/
def popSteps : List (Action T) := .pop :: List.replicate 5 .owner

/-- Four items are pushed and a thief computes that it will claim two of them. -/
def beforeClaim : List (Action ℕ) :=
  pushSteps 0 ++ pushSteps 1 ++ pushSteps 2 ++ pushSteps 3 ++
    Action.steal 256 :: List.replicate 3 (Action.thief 0)

def claimAndCommit : List (Action ℕ) := List.replicate 6 (.thief 0)

/-- One pop between the thief's tail read and its claim leaves room for the claim. -/
def fittingRun : List (Action ℕ) := beforeClaim ++ popSteps ++ claimAndCommit

def overlappingRun : List (Action ℕ) :=
  beforeClaim ++ popSteps ++ popSteps ++ popSteps ++ claimAndCommit

theorem handed_out_once_after_fitting_claim :
    ∃ s, Reachable (step localQueueCapacity) (ClaimFits localQueueCapacity)
        (State.init : State ℕ) s ∧
      s.queue.popped = [3] ∧ s.queue.stolen = [0, 1] ∧ s.queue.accepted = [0, 1, 2, 3] ∧
      s.queue.popped.count 2 + s.queue.stolen.count 2 + s.live localQueueCapacity 2 = 1 := by
  obtain ⟨s, hreach, hs⟩ := exists_reachable_of_run
    (show (run (guarded (step localQueueCapacity) (ClaimFits localQueueCapacity))
      State.init fittingRun).any (fun s => s.queue.popped = [3] ∧ s.queue.stolen = [0, 1] ∧
        s.queue.accepted = [0, 1, 2, 3]) = true by decide +kernel)
  obtain ⟨hpopped, hstolen, haccepted⟩ := of_decide_eq_true hs
  have honce := (handed_out_exactly_once hreach 2).2
  rw [haccepted] at honce
  exact ⟨s, hreach, hpopped, hstolen, haccepted, honce (by decide) (by decide)⟩

/-- Item 1 is popped by the owner and moved out by the thief. -/
theorem item_handed_out_twice :
    ∃ s, Reachable (step localQueueCapacity) anyStep (State.init : State ℕ) s ∧
      s.queue.accepted = [0, 1, 2, 3] ∧ s.queue.popped = [3, 2, 1] ∧ s.queue.stolen = [0, 1] ∧
      s.queue.popped.count 1 + s.queue.stolen.count 1 + s.live localQueueCapacity 1 ≠ 1 := by
  obtain ⟨s, hreach, hs⟩ := exists_reachable_of_run
    (show (run (guarded (step localQueueCapacity) anyStep)
      State.init overlappingRun).any (fun s => s.queue.accepted = [0, 1, 2, 3] ∧
        s.queue.popped = [3, 2, 1] ∧ s.queue.stolen = [0, 1]) = true by decide +kernel)
  obtain ⟨haccepted, hpopped, hstolen⟩ := of_decide_eq_true hs
  refine ⟨s, hreach, haccepted, hpopped, hstolen, ?_⟩
  have htwice : [3, 2, 1].count 1 + [0, 1].count 1 = 2 := by decide
  rw [hpopped, hstolen]
  omega

end Eddy.LocalQueue
