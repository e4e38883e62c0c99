import Eddy.Interleaving

/-!
# The cooperative budget

`coop.rs`, and the polls on one thread that share its budget cell. The poll of a task arms the
budget and its guard restores the cell, also after a panic; `unconstrained` puts the budget aside
until the inner poll returns; the loops of `block_on` and `block_in_place` poll their root future
with the cell as it is. The calls in progress form a stack.
-/

namespace Eddy.Coop
open Interleaving

/-- Operations granted to one task poll. -/
def budget : ℕ := 128

/-- `poll_proceed`: whether the operation goes on, and the cell after it. The task was woken when
the operation does not go on. -/
def pollProceed : Option ℕ → Bool × Option ℕ
  | none => (true, none)
  | some 0 => (false, some 0)
  | some (remaining + 1) => (true, some remaining)

def hasBudgetRemaining (cell : Option ℕ) : Bool := cell.all (0 < ·)

theorem pollProceed_snd_eq_none (cell : Option ℕ) : (pollProceed cell).2 = none ↔ cell = none := by
  match cell with
  | none | some 0 | some (_ + 1) => simp [pollProceed]

inductive Root where
  | blockOn
  | blockInPlaceOnWorker
  | inlineBlockInPlace
  /-- `CurrentThread::block_on`, which runs tasks between the polls of its root. -/
  | currentThread
  deriving DecidableEq

inductive Frame where
  /-- `previous` is in the guard; the budget is lost when an unconstrained future has panicked. -/
  | task (previous : Option ℕ) (lost : Bool)
  | unconstrained (previous : Option ℕ)
  /-- `entered` is the budget at the call. -/
  | root (kind : Root) (polling : Bool) (entered : Option ℕ)
  deriving DecidableEq

structure Thread where
  /-- `BUDGET_CELL` -/
  cell : Option ℕ
  /-- The innermost call comes first. -/
  frames : List Frame
  deriving DecidableEq

def Thread.new : Thread := ⟨none, []⟩

/-- How a poll ends. -/
inductive Exit where
  | ready
  | pending
  | panicked
  deriving DecidableEq

inductive Label where
  | pollTask
  | enter (kind : Root)
  | pollRoot
  | unconstrained
  | pollProceed
  /-- The innermost poll ends. -/
  | leave (exit : Exit)

/-- The innermost task poll goes on without the budget that an unconstrained future has put
aside. -/
def loseBudget : List Frame → List Frame
  | .task previous _ :: rest => .task previous true :: rest
  | .root kind polling entered :: rest => .root kind polling entered :: loseBudget rest
  | .unconstrained previous :: rest => .unconstrained previous :: rest
  | [] => []

namespace Thread

def schedules (s : Thread) : Bool :=
  match s.frames with
  | [] | .root .currentThread false _ :: _ => true
  | _ => false

def runsUserCode (s : Thread) : Bool :=
  match s.frames with
  | .root _ false _ :: _ => false
  | _ => true

def leave (s : Thread) (exit : Exit) : Option Thread :=
  match s.frames with
  | .task previous _ :: rest => some { cell := previous, frames := rest }
  | .unconstrained previous :: rest =>
    match exit with
    | .ready | .pending => some { cell := previous, frames := rest }
    | .panicked => some { s with frames := loseBudget rest }
  | .root kind true entered :: rest =>
    match exit with
    | .pending => some { s with frames := .root kind false entered :: rest }
    | .ready | .panicked => some { s with frames := rest }
  | .root _ false _ :: _ | [] => none

def step (s : Thread) : Label → Option Thread
  | .pollTask =>
    if s.schedules then
      some { cell := some budget, frames := .task s.cell false :: s.frames }
    else none
  | .enter kind =>
    if s.runsUserCode then some { s with frames := .root kind false s.cell :: s.frames }
    else none
  | .pollRoot =>
    match s.frames with
    | .root kind false entered :: rest => some { s with frames := .root kind true entered :: rest }
    | _ => none
  | .unconstrained =>
    if s.runsUserCode then some { cell := none, frames := .unconstrained s.cell :: s.frames }
    else none
  | .pollProceed =>
    if s.runsUserCode then some { s with cell := (Coop.pollProceed s.cell).2 } else none
  | .leave exit => s.leave exit

end Thread

/-- Neither a task poll that has its budget is the innermost context of its kind nor is there
any. -/
def unbudgeted : List Frame → Bool
  | [] => true
  | .task _ lost :: _ => lost
  | .unconstrained _ :: _ => true
  | .root .. :: rest => unbudgeted rest

def Saved : Option ℕ → List Frame → Prop
  | cell, [] => cell = none
  | cell, .task previous lost :: rest => (cell = none ↔ lost = true) ∧ Saved previous rest
  | cell, .unconstrained previous :: rest => cell = none ∧ Saved previous rest
  | cell, .root _ _ _ :: rest => Saved cell rest

variable {frames : List Frame} {cell : Option ℕ}

theorem Saved.eq_none_iff (h : Saved cell frames) :
    cell = none ↔ unbudgeted frames = true := by
  induction frames with
  | nil => simpa [unbudgeted, Saved] using h
  | cons frame rest ih =>
    cases frame with
    | task previous lost => exact h.1
    | unconstrained previous => simpa [unbudgeted] using h.1
    | root kind polling entered => exact ih h

theorem Saved.congr {cell' : Option ℕ} (h : Saved cell frames)
    (hcell : cell' = none ↔ cell = none) : Saved cell' frames := by
  induction frames with
  | nil => exact hcell.mpr h
  | cons frame rest ih =>
    cases frame with
    | task previous lost => exact ⟨hcell.trans h.1, h.2⟩
    | unconstrained previous => exact ⟨hcell.mpr h.1, h.2⟩
    | root kind polling entered => exact ih h

theorem Saved.loseBudget (h : Saved cell frames) :
    Saved none (loseBudget frames) := by
  induction frames with
  | nil => rfl
  | cons frame rest ih =>
    cases frame with
    | task previous lost => exact ⟨by simp, h.2⟩
    | unconstrained previous => exact ⟨rfl, h.2⟩
    | root kind polling entered => exact ih h

theorem unbudgeted_loseBudget (frames : List Frame) : unbudgeted (loseBudget frames) = true := by
  induction frames with
  | nil => rfl
  | cons frame rest ih =>
    cases frame with
    | task previous lost => rfl
    | unconstrained previous => rfl
    | root kind polling entered => exact ih

namespace Thread
variable {s t : Thread}

theorem saved_leave {exit : Exit} (h : Saved s.cell s.frames) (hleave : s.leave exit = some t) :
    Saved t.cell t.frames := by
  obtain ⟨cell, frames⟩ := s
  match frames with
  | [] | .root _ false _ :: _ => cases hleave
  | .task previous lost :: rest =>
    cases hleave
    exact h.2
  | .unconstrained previous :: rest =>
    cases exit with
    | ready | pending =>
      cases hleave
      exact h.2
    | panicked =>
      cases hleave
      obtain rfl : cell = none := h.1
      exact h.2.loseBudget
  | .root kind true entered :: rest =>
    cases exit with
    | ready | pending | panicked =>
      cases hleave
      exact h

theorem saved_step {a : Label} (h : Saved s.cell s.frames) (hstep : s.step a = some t) :
    Saved t.cell t.frames := by
  cases a with
  | pollTask =>
    obtain ⟨-, ⟨⟩⟩ := Option.ite_none_right_eq_some.mp hstep
    exact ⟨by simp, h⟩
  | enter kind =>
    obtain ⟨-, ⟨⟩⟩ := Option.ite_none_right_eq_some.mp hstep
    exact h
  | pollRoot =>
    simp only [Thread.step] at hstep
    split at hstep
    · next hframes =>
      cases hstep
      rw [hframes] at h
      exact h
    · cases hstep
  | unconstrained =>
    obtain ⟨-, ⟨⟩⟩ := Option.ite_none_right_eq_some.mp hstep
    exact ⟨rfl, h⟩
  | pollProceed =>
    obtain ⟨-, ⟨⟩⟩ := Option.ite_none_right_eq_some.mp hstep
    exact h.congr (pollProceed_snd_eq_none s.cell)
  | leave exit => exact saved_leave h hstep

/-- In every run of the thread the cell is empty exactly where no task poll has a budget. -/
theorem saved {guard : Thread → Label → Prop} (h : Reachable step guard new s) :
    Saved s.cell s.frames :=
  h.invariant (I := fun s => Saved s.cell s.frames) (show Saved none [] from rfl)
    (fun _ _ _ hsaved _ hstep => saved_step hsaved hstep)

/-- What a root future sees of the budget and what its call leaves of it. -/
structure RootsUnbudgeted (s : Thread) : Prop where
  polled : ∀ kind entered rest, s.frames = .root kind true entered :: rest →
    s.cell = none ∧ Coop.pollProceed s.cell = (true, none)
  restored : ∀ kind polling entered rest exit t, s.frames = .root kind polling entered :: rest →
    s.leave exit = some t → t.frames = rest → t.cell = entered

/-- A root is entered in a task poll only from an unconstrained future, unless the poll has lost
its budget. -/
def EntersUnbudgeted (s : Thread) : Label → Prop
  | .enter _ => unbudgeted s.frames = true
  | _ => True

instance (s : Thread) (a : Label) : Decidable (EntersUnbudgeted s a) := by
  cases a <;> unfold EntersUnbudgeted <;> infer_instance

def Entered : List Frame → Prop
  | [] => True
  | .root _ _ entered :: rest => entered = none ∧ unbudgeted rest = true ∧ Entered rest
  | .task _ _ :: rest | .unconstrained _ :: rest => Entered rest

theorem Entered.loseBudget {frames : List Frame} (h : Entered frames) :
    Entered (loseBudget frames) := by
  induction frames with
  | nil => exact h
  | cons frame rest ih =>
    cases frame with
    | task previous lost => exact h
    | unconstrained previous => exact h
    | root kind polling entered =>
      exact ⟨h.1, unbudgeted_loseBudget rest, ih h.2.2⟩

theorem Entered.leave {exit : Exit} (h : Entered s.frames) (hleave : s.leave exit = some t) :
    Entered t.frames := by
  obtain ⟨cell, frames⟩ := s
  match frames with
  | [] | .root _ false _ :: _ => cases hleave
  | .task previous lost :: rest =>
    cases hleave
    exact h
  | .unconstrained previous :: rest =>
    cases exit with
    | ready | pending =>
      cases hleave
      exact h
    | panicked =>
      cases hleave
      exact Entered.loseBudget h
  | .root kind true entered :: rest =>
    cases exit with
    | pending =>
      cases hleave
      exact h
    | ready | panicked =>
      cases hleave
      exact h.2.2

theorem Entered.step {a : Label} (h : Entered s.frames) (hsaved : Saved s.cell s.frames)
    (hguard : EntersUnbudgeted s a) (hstep : s.step a = some t) : Entered t.frames := by
  cases a with
  | pollTask | unconstrained | pollProceed =>
    obtain ⟨-, ⟨⟩⟩ := Option.ite_none_right_eq_some.mp hstep
    exact h
  | enter kind =>
    obtain ⟨-, ⟨⟩⟩ := Option.ite_none_right_eq_some.mp hstep
    exact ⟨hsaved.eq_none_iff.mpr hguard, hguard, h⟩
  | pollRoot =>
    simp only [Thread.step] at hstep
    split at hstep
    · next hframes =>
      cases hstep
      rw [hframes] at h
      exact h
    · cases hstep
  | leave exit => exact Entered.leave h hstep

/-- Where roots are entered without a budget, they are polled without one, and the call leaves the
budget as it was. -/
theorem roots_unbudgeted (h : Reachable step EntersUnbudgeted new s) : s.RootsUnbudgeted := by
  have hsaved := saved h
  have hentered : Entered s.frames := by
    refine (h.invariant (I := fun s => Saved s.cell s.frames ∧ Entered s.frames)
      ⟨show Saved none [] from rfl, show Entered [] from trivial⟩ ?_).2
    intro s a t hs hguard hstep
    exact ⟨saved_step hs.1 hstep, hs.2.step hs.1 hguard hstep⟩
  have hcell : ∀ kind polling entered rest, s.frames = .root kind polling entered :: rest →
      s.cell = none ∧ entered = none := by
    intro kind polling entered rest hframes
    rw [hframes] at hsaved hentered
    exact ⟨hsaved.eq_none_iff.mpr hentered.2.1, hentered.1⟩
  constructor
  · intro kind entered rest hframes
    have hnone := (hcell _ _ _ _ hframes).1
    exact ⟨hnone, by rw [hnone]; rfl⟩
  · intro kind polling entered rest exit t hframes hleave hrest
    obtain ⟨hnone, rfl⟩ := hcell _ _ _ _ hframes
    have hsame : t.cell = s.cell := by
      simp only [Thread.leave, hframes] at hleave
      cases polling with
      | false => cases hleave
      | true => cases exit <;> cases hleave <;> rfl
    exact hsame.trans hnone

/-- A task that calls `block_in_place` polls the root with its own budget, and what the root spends
is gone after the call. -/
theorem roots_share_budget :
    ¬ ∀ s, Reachable step anyStep new s → s.RootsUnbudgeted := by
  intro h
  have hrun : (run (guarded step anyStep) new
      [.pollTask, .enter .blockInPlaceOnWorker, .pollRoot, .pollProceed]).any (fun s => decide
        (s = ⟨some 127, [.root .blockInPlaceOnWorker true (some 128), .task none false]⟩)) =
      true := by decide +kernel
  obtain ⟨s, hreach, hs⟩ := exists_reachable_of_run hrun
  obtain rfl := of_decide_eq_true hs
  have hpolled := (h _ hreach).polled _ _ _ rfl
  cases hpolled.1

/-- An unconstrained future of a task blocks on a root. -/
theorem roots_unbudgeted_unconstrained :
    ∃ s : Thread, s.frames = [.root .blockOn true none, .unconstrained (some 127),
      .task none false] ∧ s.RootsUnbudgeted := by
  have hrun : (run (guarded step EntersUnbudgeted) new
      [.pollTask, .pollProceed, .unconstrained, .enter .blockOn, .pollRoot, .pollProceed]).any
        (fun s => decide (s.frames = [.root .blockOn true none, .unconstrained (some 127),
          .task none false])) = true := by decide +kernel
  obtain ⟨s, hreach, hs⟩ := exists_reachable_of_run hrun
  exact ⟨s, of_decide_eq_true hs, roots_unbudgeted hreach⟩

end Thread

end Eddy.Coop
