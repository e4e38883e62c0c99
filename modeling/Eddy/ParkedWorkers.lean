import Eddy.Interleaving
import Eddy.WordDigits

/-!
# The bitmap of the parked workers

`IdleState` of `multi_thread/worker.rs`. A worker sets its bit, looks for work once more, blocks in
the driver unless there is some, and clears its bit. `unpark_any` reads the bitmap, and clears the
lowest bit that it has read in a step of its own. Any number of workers is admitted: a shift by 64
or more stays in the word, and where overflow is checked it panics.
-/

namespace Eddy.ParkedWorkers
open Interleaving WordDigits

/-- `usize::BITS` -/
def usizeBits : ℕ := 64

/-- `1 << id`, whose shift is taken modulo the width. -/
def bit (id : ℕ) : BitVec usizeBits := BitVec.ofNat usizeBits 1 <<< (id % usizeBits)

/-- Where a worker is in `park`. -/
inductive Place where
  | running
  /-- It has set its bit and looks for work once more. -/
  | announced
  /-- It is in `park_worker`. -/
  | parked
  /-- It is about to clear its bit. -/
  | leaving
  deriving DecidableEq

structure Worker where
  place : Place
  /-- An `unpark_any` has cleared the bit of the worker since the worker set it. -/
  cleared : Bool
  deriving DecidableEq

/-- The worker is between setting its bit and leaving `park`, and its bit was not cleared. -/
def Worker.holds (w : Worker) : Bool := w.place ≠ .running && !w.cleared

structure IdleState where
  parked : BitVec usizeBits
  workers : List Worker
  /-- The workers that calls of `unpark_any` have picked and whose bits they are to clear. -/
  picked : List ℕ
  /-- How far `1` was shifted. -/
  shifts : List ℕ

namespace IdleState

def new (workers : ℕ) : IdleState := ⟨0, List.replicate workers ⟨.running, false⟩, [], []⟩

/-- A runtime with the workers that `Builder::worker_threads` admits, none of which is parked. -/
def build (workerThreads : ℕ) : Option IdleState :=
  if 0 < workerThreads then some (new (max workerThreads 1)) else none

inductive Label where
  /-- The worker sets its bit. -/
  | park (id : ℕ)
  /-- It looks for work once more. -/
  | recheck (id : ℕ) (hasWork : Bool)
  /-- `park_worker` returns. -/
  | unparked (id : ℕ)
  /-- The worker clears its bit and leaves `park`. -/
  | leave (id : ℕ)
  /-- `unpark_any` reads the bitmap. -/
  | unparkAny
  /-- It clears the bit of the worker that it picked. -/
  | unpark (k : ℕ)

/-- The worker, when it is in the place. -/
def worker (s : IdleState) (id : ℕ) (place : Place) : Option Worker :=
  (s.workers[id]?).filter fun w => w.place = place

def fetchOr (s : IdleState) (id : ℕ) : IdleState :=
  { s with parked := s.parked ||| bit id, shifts := s.shifts ++ [id] }

def fetchAnd (s : IdleState) (id : ℕ) : IdleState :=
  { s with parked := s.parked &&& ~~~ bit id, shifts := s.shifts ++ [id] }

def modifyWorker (s : IdleState) (id : ℕ) (f : Worker → Worker) : IdleState :=
  { s with workers := s.workers.modify id f }

/-- What a call of `unpark_any` picks. -/
def pick (s : IdleState) : Option ℕ :=
  if s.parked = 0 then none
  else
    let id := s.parked.ctz.toNat
    if s.workers.length ≤ id then none else some id

def step (s : IdleState) : Label → Option IdleState
  | .park id =>
    (s.worker id .running).map fun _ => (s.fetchOr id).modifyWorker id fun _ => ⟨.announced, false⟩
  | .recheck id hasWork =>
    (s.worker id .announced).map fun _ =>
      s.modifyWorker id fun w => { w with place := if hasWork then .leaving else .parked }
  | .unparked id =>
    (s.worker id .parked).map fun _ => s.modifyWorker id fun w => { w with place := .leaving }
  | .leave id =>
    (s.worker id .leaving).map fun _ =>
      (s.fetchAnd id).modifyWorker id fun w => { w with place := .running }
  | .unparkAny => some { s with picked := s.picked ++ s.pick.toList }
  | .unpark k =>
    (s.picked[k]?).map fun id =>
      { (s.fetchAnd id).modifyWorker id fun w => { w with cleared := true } with
        picked := s.picked.eraseIdx k }

/-- What the bitmap is for. -/
structure Exact (s : IdleState) : Prop where
  shifts : ∀ n ∈ s.shifts, n < usizeBits
  distinct : ∀ i < s.workers.length, ∀ j < s.workers.length, bit i = bit j → i = j
  bits : ∀ id w, s.workers[id]? = some w → (s.parked &&& bit id ≠ 0 ↔ w.holds = true)
  /-- A call of `unpark_any` that finds a bit picks a worker that has set its own. -/
  picks : s.parked ≠ 0 → ∃ id w, s.pick = some id ∧ s.workers[id]? = some w ∧ w.holds = true

/-- Every worker has a bit of its own, which is set while the worker holds it. -/
structure Sound (workers : ℕ) (s : IdleState) : Prop where
  length : s.workers.length = workers
  shifts : ∀ n ∈ s.shifts, n < workers
  picked : ∀ id ∈ s.picked, id < workers
  bits : ∀ i < usizeBits, s.parked.getLsbD i = (s.workers[i]?).any Worker.holds

variable {s t : IdleState} {workers id : ℕ} {w : Worker} {f : Worker → Worker} {label : Label}

theorem bit_eq (h : id < usizeBits) : bit id = BitVec.ofNat usizeBits 1 <<< id := by
  rw [bit, Nat.mod_eq_of_lt h]

theorem worker_eq_some {place : Place} (h : s.worker id place = some w) :
    s.workers[id]? = some w ∧ w.place = place := by
  simpa [worker, Option.filter_eq_some_iff] using h

theorem lt_of_getElem? (h : s.workers[id]? = some w) : id < s.workers.length :=
  (List.getElem?_eq_some_iff.mp h).1

theorem any_modifyWorker (h : s.workers[id]? = some w) (i : ℕ) :
    ((s.modifyWorker id f).workers[i]?).any Worker.holds =
      if i = id then (f w).holds else (s.workers[i]?).any Worker.holds := by
  simp only [modifyWorker, List.getElem?_modify]
  by_cases hi : i = id
  · subst hi
    simp [h]
  · rw [if_neg hi]
    cases s.workers[i]? with
    | none => rfl
    | some x => simp [Ne.symm hi]

theorem Sound.new (workers : ℕ) : Sound workers (new workers) := by
  refine ⟨List.length_replicate, by simp [IdleState.new], by simp [IdleState.new], fun i _ => ?_⟩
  simp only [IdleState.new, List.getElem?_replicate]
  split_ifs <;> simp [Worker.holds]

theorem Sound.move (h : Sound workers s) (hw : s.workers[id]? = some w)
    (hf : (f w).holds = w.holds) : Sound workers (s.modifyWorker id f) := by
  refine ⟨by simp [modifyWorker, h.length], h.shifts, h.picked, fun i hi => ?_⟩
  rw [any_modifyWorker hw, show (s.modifyWorker id f).parked = s.parked from rfl, h.bits i hi]
  split_ifs with heq
  · subst heq
    simp [hw, hf]
  · rfl

theorem Sound.fetchOr (h : Sound workers s) (hworkers : workers ≤ usizeBits)
    (hw : s.workers[id]? = some w) (hf : (f w).holds = true) :
    Sound workers ((s.fetchOr id).modifyWorker id f) := by
  have hid : id < workers := h.length ▸ lt_of_getElem? hw
  refine ⟨by simp [modifyWorker, IdleState.fetchOr, h.length], ?_, h.picked, fun i hi => ?_⟩
  · intro n hn
    rcases List.mem_append.mp hn with hn | hn
    · exact h.shifts n hn
    · exact List.mem_singleton.mp hn ▸ hid
  · rw [any_modifyWorker (s := s.fetchOr id) hw]
    show (s.parked ||| bit id).getLsbD i = _
    rw [bit_eq (hid.trans_le hworkers), getLsbD_or_bit hi, h.bits i hi]
    split_ifs with heq
    · simp [heq, hf]
    · simp [heq, IdleState.fetchOr]

theorem Sound.fetchAnd (h : Sound workers s) (hworkers : workers ≤ usizeBits)
    (hw : s.workers[id]? = some w) (hf : (f w).holds = false) :
    Sound workers ((s.fetchAnd id).modifyWorker id f) := by
  have hid : id < workers := h.length ▸ lt_of_getElem? hw
  refine ⟨by simp [modifyWorker, IdleState.fetchAnd, h.length], ?_, h.picked, fun i hi => ?_⟩
  · intro n hn
    rcases List.mem_append.mp hn with hn | hn
    · exact h.shifts n hn
    · exact List.mem_singleton.mp hn ▸ hid
  · rw [any_modifyWorker (s := s.fetchAnd id) hw]
    show (s.parked &&& ~~~ bit id).getLsbD i = _
    rw [bit_eq (hid.trans_le hworkers), getLsbD_and_not_bit hi, h.bits i hi]
    split_ifs with heq
    · simp [heq, hf]
    · simp [heq, IdleState.fetchAnd]

theorem pick_lt (h : s.pick = some id) : id < s.workers.length := by
  simp only [pick] at h
  split_ifs at h with _ hle
  cases h
  exact Nat.lt_of_not_le hle

theorem Sound.step (h : Sound workers s) (hworkers : workers ≤ usizeBits)
    (hstep : s.step label = some t) : Sound workers t := by
  cases label with
  | park id =>
    obtain ⟨w, hw, rfl⟩ := Option.map_eq_some_iff.mp hstep
    exact h.fetchOr hworkers (worker_eq_some hw).1 rfl
  | recheck id hasWork =>
    obtain ⟨w, hw, rfl⟩ := Option.map_eq_some_iff.mp hstep
    obtain ⟨hw, hplace⟩ := worker_eq_some hw
    refine h.move hw ?_
    cases hasWork <;> simp [Worker.holds, hplace]
  | unparked id =>
    obtain ⟨w, hw, rfl⟩ := Option.map_eq_some_iff.mp hstep
    obtain ⟨hw, hplace⟩ := worker_eq_some hw
    exact h.move hw (by simp [Worker.holds, hplace])
  | leave id =>
    obtain ⟨w, hw, rfl⟩ := Option.map_eq_some_iff.mp hstep
    exact h.fetchAnd hworkers (worker_eq_some hw).1 (by simp [Worker.holds])
  | unparkAny =>
    cases hstep
    refine ⟨h.length, h.shifts, fun id hid => ?_, h.bits⟩
    rcases List.mem_append.mp hid with hid | hid
    · exact h.picked id hid
    · exact h.length ▸ pick_lt (Option.mem_toList.mp hid)
  | unpark k =>
    obtain ⟨id, hid, rfl⟩ := Option.map_eq_some_iff.mp hstep
    have hlt := h.picked id (List.mem_of_getElem? hid)
    have hw := List.getElem?_eq_getElem (h.length ▸ hlt : id < s.workers.length)
    have hcleared := h.fetchAnd hworkers hw (f := fun w => { w with cleared := true })
      (by simp [Worker.holds])
    exact { hcleared with picked := fun n hn => h.picked n (List.mem_of_mem_eraseIdx hn) }

theorem Sound.exact (h : Sound workers s) (hworkers : workers ≤ usizeBits) : s.Exact where
  shifts n hn := (h.shifts n hn).trans_le hworkers
  distinct := by
    intro i hi j hj heq
    rw [h.length] at hi hj
    have hself := getLsbD_one_shiftLeft (j := i) (hi.trans_le hworkers)
    rw [← bit_eq (hi.trans_le hworkers), heq, bit_eq (hj.trans_le hworkers),
      getLsbD_one_shiftLeft (hi.trans_le hworkers)] at hself
    simpa using hself
  bits := by
    intro id w hw
    have hid : id < usizeBits := (h.length ▸ lt_of_getElem? hw).trans_le hworkers
    have hbit := and_bit_ne_zero (x := s.parked) hid
    rw [h.bits id hid, hw, Option.any_some, ← bit_eq hid] at hbit
    rw [← hbit, bne_iff_ne]
    rfl
  picks := by
    intro hne
    have hbit := BitVec.getLsbD_true_ctz_of_ne_zero hne
    have hlt := BitVec.lt_of_getLsbD hbit
    rw [h.bits _ hlt] at hbit
    obtain ⟨w, hw, hholds⟩ := (Option.any_eq_true _ _).mp hbit
    refine ⟨_, w, ?_, hw, hholds⟩
    simp only [pick]
    rw [if_neg hne, if_neg (Nat.not_le.mpr (lt_of_getElem? hw))]

/-- The worker after the last one that has a bit of its own shifts by the width. -/
theorem not_exact_of_park (h : usizeBits < workers) :
    ∃ s, Reachable step anyStep (new workers) s ∧ ¬ s.Exact := by
  have hw : (new workers).worker usizeBits .running = some ⟨.running, false⟩ := by
    simp [worker, IdleState.new, h]
  have hpark : (new workers).step (.park usizeBits) =
      some (((new workers).fetchOr usizeBits).modifyWorker usizeBits fun _ => ⟨.announced, false⟩) := by
    rw [step, hw, Option.map_some]
  refine ⟨_, .next .start trivial hpark, fun hexact => ?_⟩
  exact absurd (hexact.shifts usizeBits (List.mem_append_right _ (List.mem_singleton.mpr rfl)))
    (Nat.lt_irrefl _)

theorem exact_iff_workers_le {workerThreads : ℕ} {init : IdleState}
    (hinit : build workerThreads = some init) :
    (∀ s, Reachable step anyStep init s → s.Exact) ↔ workerThreads ≤ usizeBits := by
  obtain ⟨hpos, hinit⟩ := Option.ite_none_right_eq_some.mp hinit
  rw [max_eq_left hpos] at hinit
  cases hinit
  constructor
  · intro hexact
    by_contra hgt
    obtain ⟨s, hs, hnot⟩ := not_exact_of_park (Nat.lt_of_not_le hgt)
    exact hnot (hexact s hs)
  · intro hle s hs
    have hsound : Sound workerThreads s := hs.invariant (Sound.new workerThreads)
      fun _ _ _ h _ hstep => h.step hle hstep
    exact hsound.exact hle

theorem exact_for_every_bit : ∃ init, build 64 = some init ∧
    ∀ s, Reachable step anyStep init s → s.Exact :=
  ⟨_, rfl, (exact_iff_workers_le rfl).mpr (le_refl _)⟩

/-- With 65 workers the last one parks on the bit of the first, and `unpark_any` picks the first,
which is running. -/
theorem worker_parks_on_foreign_bit : ∃ init s, build 65 = some init ∧
    Reachable step anyStep init s ∧ s.shifts = [64] ∧ s.picked = [0] ∧
    s.workers[0]? = some ⟨.running, false⟩ ∧ ¬ s.Exact := by
  have hrun : (run (guarded step anyStep) (new 65) [.park 64, .unparkAny]).any
      (fun s => decide (s.shifts = [64] ∧ s.picked = [0] ∧
        s.workers[0]? = some ⟨.running, false⟩)) = true := by decide +kernel
  obtain ⟨s, hreach, hs⟩ := exists_reachable_of_run hrun
  obtain ⟨hshifts, hpicked, hworker⟩ := of_decide_eq_true hs
  refine ⟨_, s, rfl, hreach, hshifts, hpicked, hworker, fun hexact => ?_⟩
  have hlt := hexact.shifts 64 (by simp [hshifts])
  exact absurd hlt (by decide)

end IdleState
end Eddy.ParkedWorkers
