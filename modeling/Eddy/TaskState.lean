import Eddy.PackedWord

/-!
# The task's state word

`task/state.rs`: one atomic word `[refcount : 48][flags : 16]`. A transition loads the word
and retries a compare-and-swap until it succeeds, so it takes effect in one step, on the
value that the successful compare-and-swap found. `View` is what the word says.
-/

namespace Eddy.TaskState
open PackedWord

def running : UInt64 := 0b00000001
def complete : UInt64 := 0b00000010
def notified : UInt64 := 0b00000100
def cancelled : UInt64 := 0b00001000
def joinInterest : UInt64 := 0b00010000
def joinWakerSet : UInt64 := 0b00100000

/-- `1 << 16`. -/
def refOne : UInt64 := 0x10000
def refMask : UInt64 := ~~~(refOne - 1)
def refMax : ℕ := 2 ^ 40
/-- At this count the process is aborted rather than let the counter run on. -/
def refMaxCount : ℕ := refMax / 2 ^ 16

namespace Snapshot

def refCount (snap : UInt64) : ℕ := ((snap &&& refMask) >>> 16).toNat
def isRunning (snap : UInt64) : Bool := snap &&& running != 0
def isComplete (snap : UInt64) : Bool := snap &&& complete != 0
def isNotified (snap : UInt64) : Bool := snap &&& notified != 0
def isCancelled (snap : UInt64) : Bool := snap &&& cancelled != 0
def hasJoinInterest (snap : UInt64) : Bool := snap &&& joinInterest != 0
def hasJoinWaker (snap : UInt64) : Bool := snap &&& joinWakerSet != 0

def setRunning (snap : UInt64) : UInt64 := snap ||| running
def unsetRunning (snap : UInt64) : UInt64 := snap &&& ~~~running
def setComplete (snap : UInt64) : UInt64 := snap ||| complete
def setNotified (snap : UInt64) : UInt64 := snap ||| notified
def unsetNotified (snap : UInt64) : UInt64 := snap &&& ~~~notified
def setCancelled (snap : UInt64) : UInt64 := snap ||| cancelled
def unsetJoinInterest (snap : UInt64) : UInt64 := snap &&& ~~~joinInterest
def setJoinWaker (snap : UInt64) : UInt64 := snap ||| joinWakerSet
def unsetJoinWaker (snap : UInt64) : UInt64 := snap &&& ~~~joinWakerSet

/-- `none` is the abort of the process. -/
def refInc (snap : UInt64) : Option UInt64 :=
  if refCount snap ≥ refMaxCount then none else some (snap + refOne)

end Snapshot

open Snapshot

inductive TransitionToRunning where
  | success
  | failed (snap : UInt64)

inductive TransitionToIdle where
  | ok
  | okNotified
  | cancelled

inductive TransitionToNotified where
  | submit
  | doNothing

namespace State

/-- Two references, for the `JoinHandle` and the queue entry of the first poll. -/
def new : UInt64 := (2 * refOne) ||| joinInterest ||| notified

def transitionToRunning (snap : UInt64) : TransitionToRunning × UInt64 :=
  if isComplete snap || isCancelled snap || isRunning snap then (.failed snap, snap)
  else (.success, unsetNotified (setRunning snap))

def transitionToIdle (snap : UInt64) : TransitionToIdle × UInt64 :=
  let snap := unsetRunning snap
  if isCancelled snap then (.cancelled, snap)
  else if isNotified snap then (.okNotified, snap)
  else (.ok, snap)

def transitionToComplete (snap : UInt64) : UInt64 :=
  unsetNotified (setComplete (unsetRunning snap))

def transitionToNotifiedByRef (snap : UInt64) : Option (TransitionToNotified × UInt64) :=
  if isComplete snap || isNotified snap || isCancelled snap then some (.doNothing, snap)
  else if isRunning snap then some (.doNothing, setNotified snap)
  else (refInc (setNotified snap)).map fun snap => (.submit, snap)

def transitionToNotifiedByVal (snap : UInt64) : TransitionToNotified × UInt64 :=
  if isComplete snap || isNotified snap || isCancelled snap then (.doNothing, snap)
  else if isRunning snap then (.doNothing, setNotified snap)
  else (.submit, setNotified snap)

/-- `set_join_waker` fails when the task is already complete. -/
def setJoinWaker (snap : UInt64) : Bool × UInt64 :=
  if isComplete snap then (false, snap) else (true, Snapshot.setJoinWaker snap)

/-- `fetch_add`, with an abort of the process at `refMaxCount`. -/
def refInc (snap : UInt64) : Option UInt64 := Snapshot.refInc snap

/-- Whether this was the last reference, and the word after the `fetch_sub`. -/
def refDec (prev : UInt64) : Bool × UInt64 := (refCount prev == 1, prev - refOne)

end State

structure View where
  running : Bool
  complete : Bool
  notified : Bool
  cancelled : Bool
  joinInterest : Bool
  joinWaker : Bool
  refs : ℕ
  deriving DecidableEq

def view (w : UInt64) : View where
  running := isRunning w
  complete := isComplete w
  notified := isNotified w
  cancelled := isCancelled w
  joinInterest := hasJoinInterest w
  joinWaker := hasJoinWaker w
  refs := refCount w

@[simp] theorem isRunning_eq (w : UInt64) : isRunning w = (view w).running := rfl
@[simp] theorem isComplete_eq (w : UInt64) : isComplete w = (view w).complete := rfl
@[simp] theorem isNotified_eq (w : UInt64) : isNotified w = (view w).notified := rfl
@[simp] theorem isCancelled_eq (w : UInt64) : isCancelled w = (view w).cancelled := rfl
@[simp] theorem hasJoinInterest_eq (w : UInt64) : hasJoinInterest w = (view w).joinInterest := rfl
@[simp] theorem refCount_eq (w : UInt64) : refCount w = (view w).refs := rfl

private theorem view_eq_flags (w : UInt64) :
    view w = ⟨flag 0 w, flag 1 w, flag 2 w, flag 3 w, flag 4 w, flag 5 w, count w⟩ := rfl

private theorem view_or (w : UInt64) (k : Fin 16) :
    view (w ||| mask k) = ⟨flag 0 w || k == 0, flag 1 w || k == 1, flag 2 w || k == 2,
      flag 3 w || k == 3, flag 4 w || k == 4, flag 5 w || k == 5, count w⟩ := by
  have hflag : ∀ j, flag j (w ||| mask k) = (flag j w || k == j) := by
    intro j
    by_cases h : j = k
    · subst h
      simp
    · rw [flag_or_ne j k w h]
      simp [Ne.symm h]
  rw [view_eq_flags]
  simp only [hflag, count_or]

private theorem view_and_not (w : UInt64) (k : Fin 16) :
    view (w &&& ~~~(mask k)) = ⟨flag 0 w && k != 0, flag 1 w && k != 1, flag 2 w && k != 2,
      flag 3 w && k != 3, flag 4 w && k != 4, flag 5 w && k != 5, count w⟩ := by
  have hflag : ∀ j, flag j (w &&& ~~~(mask k)) = (flag j w && k != j) := by
    intro j
    by_cases h : j = k
    · subst h
      simp
    · rw [flag_and_not_ne j k w h]
      simp [Ne.symm h]
  rw [view_eq_flags]
  simp only [hflag, count_and_not]

section
variable (w : UInt64)

@[simp] theorem view_setRunning : view (setRunning w) = { view w with running := true } := by
  rw [setRunning, show running = mask 0 from rfl, view_or, view_eq_flags]
  simp

@[simp] theorem view_unsetRunning : view (unsetRunning w) = { view w with running := false } := by
  rw [unsetRunning, show running = mask 0 from rfl, view_and_not, view_eq_flags]
  simp

@[simp] theorem view_setComplete : view (setComplete w) = { view w with complete := true } := by
  rw [setComplete, show complete = mask 1 from rfl, view_or, view_eq_flags]
  simp

@[simp] theorem view_setNotified : view (setNotified w) = { view w with notified := true } := by
  rw [setNotified, show notified = mask 2 from rfl, view_or, view_eq_flags]
  simp

@[simp] theorem view_unsetNotified :
    view (unsetNotified w) = { view w with notified := false } := by
  rw [unsetNotified, show notified = mask 2 from rfl, view_and_not, view_eq_flags]
  simp

@[simp] theorem view_setCancelled :
    view (Snapshot.setCancelled w) = { view w with cancelled := true } := by
  rw [Snapshot.setCancelled, show cancelled = mask 3 from rfl, view_or, view_eq_flags]
  simp

@[simp] theorem view_unsetJoinInterest :
    view (unsetJoinInterest w) = { view w with joinInterest := false } := by
  rw [unsetJoinInterest, show joinInterest = mask 4 from rfl, view_and_not, view_eq_flags]
  simp

@[simp] theorem view_setJoinWaker :
    view (Snapshot.setJoinWaker w) = { view w with joinWaker := true } := by
  rw [Snapshot.setJoinWaker, show joinWakerSet = mask 5 from rfl, view_or, view_eq_flags]
  simp

@[simp] theorem view_unsetJoinWaker :
    view (unsetJoinWaker w) = { view w with joinWaker := false } := by
  rw [unsetJoinWaker, show joinWakerSet = mask 5 from rfl, view_and_not, view_eq_flags]
  simp

end

@[simp] theorem view_new : view State.new = ⟨false, false, true, false, true, false, 2⟩ := by
  decide

/-- An increment that does not abort counts one more and leaves the flags alone. -/
theorem view_refInc {w w' : UInt64} (h : Snapshot.refInc w = some w') :
    view w' = { view w with refs := (view w).refs + 1 } ∧ (view w).refs < refMaxCount := by
  have hmax : refMaxCount = 2 ^ 24 := by decide
  unfold Snapshot.refInc at h
  split at h
  · cases h
  · rename_i hlt
    obtain rfl := Option.some.inj h
    have hlt' : (view w).refs < refMaxCount := Nat.lt_of_not_le hlt
    have hc : count w < 2 ^ 48 - 1 := by
      have : count w < refMaxCount := hlt'
      omega
    refine ⟨?_, hlt'⟩
    rw [show refOne = one from rfl, view_eq_flags, view_eq_flags]
    simp only [flag_add_one _ hc, count_add_one hc]

/-- A decrement of a positive count never borrows from the flags. -/
theorem view_refDec {w : UInt64} (h : 0 < (view w).refs) :
    view (State.refDec w).2 = { view w with refs := (view w).refs - 1 } := by
  have hc : 0 < count w := h
  rw [State.refDec, show refOne = one from rfl, view_eq_flags, view_eq_flags]
  simp only [flag_sub_one _ hc, count_sub_one hc]

end Eddy.TaskState
