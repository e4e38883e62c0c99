import Mathlib.Tactic.Linarith
import Eddy.BlockInPlace

/-!
# The takeover thread hands the queue back

From its place in the loop a worker has a number of steps to go until it polls a task or looks at
`requested` with nothing in its LIFO slot and in its local queue: at most the rest of this iteration
and two more, if the LIFO slot is passed over. A wake, and a poll, which takes a task from those that
are queued, pay for starting again; so does a step that others disturb.
-/

namespace Eddy.WorkerLoop
open Interleaving Driver

/-- The steps of an iteration, with a search of all the other workers. -/
def iteration (workers : ℕ) : ℕ := workers + capacity + 21

/-- The iterations to go from the start of one. -/
def again (workers lifoPolls : ℕ) : ℕ :=
  iteration workers + if MAX_LIFO_POLLS_PER_TICK ≤ lifoPolls then iteration workers else 0

/-- Those to go once the local queue was found empty. -/
def slotAgain (workers : ℕ) (lifo : Option ℕ) (lifoPolls : ℕ) : ℕ :=
  if lifo = none then 0 else again workers lifoPolls

/-- Those to go after a look at `requested`. -/
def leftAgain (workers : ℕ) (lifo : Option ℕ) (queue : List ℕ) (lifoPolls : ℕ) : ℕ :=
  if lifo = none ∧ queue = [] then 0 else again workers lifoPolls

def pollRank (workers : ℕ) : ℕ := 2 * iteration workers + 10

/-- What a poll, a wake or a disturbed step may cost. -/
def restart (workers : ℕ) : ℕ := 3 * iteration workers + 20

def noticesLeft : Notify → ℕ
  | .starts => 3
  | .stored => 2
  | .decided _ => 1

def searchedRank (globalFirst : Bool) : ℕ := if globalFirst then 6 else 9

def overflowRank (queue : List ℕ) : ℕ := if capacity ≤ queue.length then 7 else 5

/-- At most the steps after a `schedule`. -/
def Resume.rank (workers lifoPolls : ℕ) : Resume → ℕ
  | .polls _ => pollRank workers
  | .ended => again workers lifoPolls
  | .parked => 1 + again workers lifoPolls
  | .searched globalFirst => searchedRank globalFirst + 2 * iteration workers

def Worker.rank (workers : ℕ) (looked : Bool) (w : Worker) : ℕ :=
  match w.place with
  | .nextLifo => again workers w.lifoPolls
  | .pop => workers + capacity + 20 + slotAgain workers w.lifo w.lifoPolls
  | .takeInjected globalFirst => (if globalFirst then workers + capacity + 19 else 9) +
      leftAgain workers w.lifo w.queue w.lifoPolls
  | .keep globalFirst _ => (if globalFirst then workers + capacity + 18 else 8) +
      slotAgain workers w.lifo w.lifoPolls
  | .retake globalFirst _ => (if globalFirst then workers + capacity + 17 else 7) +
      slotAgain workers w.lifo w.lifoPolls
  | .search globalFirst => workers + capacity + searchedRank globalFirst + 10 +
      leftAgain workers w.lifo w.queue w.lifoPolls
  | .count globalFirst => workers + capacity + searchedRank globalFirst + 9 +
      leftAgain workers w.lifo w.queue w.lifoPolls
  | .claim globalFirst _ => workers + capacity + searchedRank globalFirst + 8 +
      leftAgain workers w.lifo w.queue w.lifoPolls
  | .steal globalFirst victims => victims.length + capacity + searchedRank globalFirst + 7 +
      leftAgain workers w.lifo w.queue w.lifoPolls
  | .copy _ _ _ _ rest => rest.length + 3
  | .leave _ (some _) => 2
  | .leave globalFirst none => searchedRank globalFirst + 6 +
      leftAgain workers w.lifo w.queue w.lifoPolls
  | .unparkAny globalFirst => searchedRank globalFirst + 5 +
      leftAgain workers w.lifo w.queue w.lifoPolls
  | .unmark globalFirst _ => searchedRank globalFirst + 4 +
      leftAgain workers w.lifo w.queue w.lifoPolls
  | .notify n (.searched globalFirst) => noticesLeft n + searchedRank globalFirst +
      leftAgain workers w.lifo w.queue w.lifoPolls
  | .notify n resume => noticesLeft n + resume.rank workers w.lifoPolls
  | .mark =>
      if looked then 5 + again workers w.lifoPolls
      else 6 + leftAgain workers w.lifo w.queue w.lifoPolls
  | .checkInject => 4 + again workers w.lifoPolls
  | .checkLocal => 3 + again workers w.lifoPolls
  | .enter => 2 + again workers w.lifoPolls
  | .retreat | .parked => 1 + again workers w.lifoPolls
  | .run _ _ => 1
  | .poll _ => pollRank workers
  | .schedule _ _ resume => 9 + resume.rank workers w.lifoPolls
  | .push _ resume => 8 + resume.rank workers w.lifoPolls
  | .overflow _ _ resume => overflowRank w.queue + resume.rank workers w.lifoPolls
  | .spill _ _ resume => 6 + resume.rank workers w.lifoPolls
  | .injectBatch _ resume | .inject _ resume => 4 + resume.rank workers w.lifoPolls

/-- How many tasks the thread is still to copy to its queue. -/
def Place.copying : Place → ℕ
  | .copy _ _ _ _ rest => rest.length
  | _ => 0

/-- How many victims the search has to go. -/
def Place.ahead : Place → ℕ
  | .steal _ victims => victims.length
  | _ => 0

/-- The queue holds what it has room for, and a search goes through the workers. -/
structure Worker.Fits (workers : ℕ) (w : Worker) : Prop where
  room : w.len + w.place.copying ≤ capacity
  ahead : w.place.ahead ≤ workers
  victim : ∀ victim size, w.place.copied = some (victim, size) → victim < workers

section
variable {workers lifoPolls : ℕ} {lifo : Option ℕ} {queue : List ℕ} {w w' : Worker} {looked : Bool}

theorem iteration_le_again (workers lifoPolls : ℕ) :
    iteration workers ≤ again workers lifoPolls := Nat.le_add_right _ _

theorem again_le (workers lifoPolls : ℕ) : again workers lifoPolls ≤ 2 * iteration workers := by
  unfold again
  split_ifs <;> omega

theorem again_of_few (workers : ℕ) (h : lifoPolls < MAX_LIFO_POLLS_PER_TICK) :
    again workers lifoPolls = iteration workers := by
  rw [again, if_neg (not_le.mpr h), Nat.add_zero]

theorem again_of_enough (workers : ℕ) (h : MAX_LIFO_POLLS_PER_TICK ≤ lifoPolls) :
    again workers lifoPolls = 2 * iteration workers := by
  rw [again, if_pos h]
  omega

theorem slotAgain_le_again (workers : ℕ) (lifo : Option ℕ) (lifoPolls : ℕ) :
    slotAgain workers lifo lifoPolls ≤ again workers lifoPolls := by
  unfold slotAgain
  split_ifs
  · exact Nat.zero_le _
  · exact le_rfl

theorem slotAgain_le_leftAgain (workers : ℕ) (lifo : Option ℕ) (queue : List ℕ) (lifoPolls : ℕ) :
    slotAgain workers lifo lifoPolls ≤ leftAgain workers lifo queue lifoPolls := by
  unfold slotAgain leftAgain
  split_ifs <;> simp_all

theorem leftAgain_nil (workers : ℕ) (lifo : Option ℕ) (lifoPolls : ℕ) :
    leftAgain workers lifo [] lifoPolls = slotAgain workers lifo lifoPolls := by
  unfold slotAgain leftAgain
  simp

theorem leftAgain_le_again (workers : ℕ) (lifo : Option ℕ) (queue : List ℕ) (lifoPolls : ℕ) :
    leftAgain workers lifo queue lifoPolls ≤ again workers lifoPolls := by
  unfold leftAgain
  split_ifs
  · exact Nat.zero_le _
  · exact le_rfl

theorem overflowRank_le (queue : List ℕ) : overflowRank queue ≤ 7 := by
  unfold overflowRank
  split_ifs <;> omega

theorem overflowRank_of_full (h : capacity ≤ queue.length) : overflowRank queue = 7 := if_pos h

theorem overflowRank_of_room (h : queue.length < capacity) : overflowRank queue = 5 :=
  if_neg (not_le.mpr h)

theorem le_overflowRank (queue : List ℕ) : 5 ≤ overflowRank queue := by
  unfold overflowRank
  split_ifs <;> omega

theorem searchedRank_le (globalFirst : Bool) : searchedRank globalFirst ≤ 9 := by
  cases globalFirst <;> decide

theorem noticesLeft_le (n : Notify) : noticesLeft n ≤ 3 := by
  cases n <;> simp [noticesLeft]

theorem Resume.rank_le (workers lifoPolls : ℕ) (resume : Resume) :
    resume.rank workers lifoPolls ≤ 2 * iteration workers + 10 := by
  have hagain := again_le workers lifoPolls
  cases resume with
  | searched globalFirst =>
    have := searchedRank_le globalFirst
    simp only [Resume.rank]
    omega
  | _ =>
    simp only [Resume.rank, pollRank]
    omega

/-- A worker that has returned from a `schedule`. -/
theorem rank_place_le (workers : ℕ) (resume : Resume) (h : w.place = resume.place) :
    w.rank workers false ≤ resume.rank workers w.lifoPolls := by
  have hleft := leftAgain_le_again workers w.lifo w.queue w.lifoPolls
  have hagain := again_le workers w.lifoPolls
  cases resume with
  | searched globalFirst =>
    cases globalFirst
    all_goals
      simp only [Worker.rank, h, Resume.place, searched, Resume.rank, searchedRank]
      simp
      omega
  | _ => simp only [Worker.rank, h, Resume.place, Resume.rank, le_refl]

theorem rank_searched (workers : ℕ) (globalFirst : Bool) (h : w.place = searched globalFirst) :
    w.rank workers false =
      searchedRank globalFirst + leftAgain workers w.lifo w.queue w.lifoPolls := by
  cases globalFirst <;> simp [Worker.rank, h, searched, searchedRank]

theorem Worker.Fits.rank_lt (h : w.Fits workers) : w.rank workers looked < restart workers := by
  obtain ⟨place, lifo, queue, claimed, tick, lifoPolls⟩ := w
  have hroom := h.room
  have hahead := h.ahead
  have hagain := again_le workers lifoPolls
  have hslot := slotAgain_le_again workers lifo lifoPolls
  have hleft := leftAgain_le_again workers lifo queue lifoPolls
  have hiteration : iteration workers = workers + capacity + 21 := rfl
  simp only [Worker.rank, restart]
  cases place with
  | takeInjected globalFirst | keep globalFirst | retake globalFirst | mark =>
    simp only
    split_ifs
    all_goals omega
  | search globalFirst | count globalFirst | claim globalFirst | unparkAny globalFirst
  | unmark globalFirst =>
    have := searchedRank_le globalFirst
    simp only
    omega
  | steal globalFirst victims =>
    have := searchedRank_le globalFirst
    simp only [Place.ahead] at hahead ⊢
    omega
  | copy globalFirst victim count task rest =>
    simp only [Place.copying] at hroom ⊢
    omega
  | leave globalFirst task =>
    have := searchedRank_le globalFirst
    cases task with
    | _ =>
      simp only
      omega
  | notify n resume =>
    have := noticesLeft_le n
    cases resume with
    | searched globalFirst =>
      have := searchedRank_le globalFirst
      simp only
      omega
    | _ =>
      simp only [Resume.rank, pollRank]
      omega
  | schedule task target resume | push task resume | spill task overflow resume
  | injectBatch overflow resume | inject task resume =>
    have := resume.rank_le workers lifoPolls
    simp only
    omega
  | overflow task overflow resume =>
    have := resume.rank_le workers lifoPolls
    have := overflowRank_le queue
    simp only
    omega
  | _ =>
    simp only [pollRank]
    omega

structure Worker.Yields (v v' : Worker) : Prop where
  place : v'.place = v.place
  lifo : v'.lifo = v.lifo
  lifoPolls : v'.lifoPolls = v.lifoPolls
  queue : v'.queue.length ≤ v.queue.length
  len : v'.len ≤ v.len

theorem Worker.Yields.refl (v : Worker) : v.Yields v := ⟨rfl, rfl, rfl, le_rfl, le_rfl⟩

theorem Worker.Yields.fits (h : w.Yields w') (hfits : w.Fits workers) : w'.Fits workers := by
  refine ⟨?_, ?_, ?_⟩
  · rw [h.place]
    exact (Nat.add_le_add_right h.len _).trans hfits.room
  · rw [h.place]
    exact hfits.ahead
  · rw [h.place]
    exact hfits.victim

theorem Worker.Yields.leftAgain_le (workers : ℕ) (h : w.Yields w') :
    leftAgain workers w'.lifo w'.queue w'.lifoPolls ≤ leftAgain workers w.lifo w.queue w.lifoPolls := by
  have hqueue : w.queue = [] → w'.queue = [] := fun hnil =>
    List.length_eq_zero_iff.mp (Nat.le_zero.mp (h.queue.trans_eq (congrArg List.length hnil)))
  rw [h.lifo, h.lifoPolls]
  unfold leftAgain
  split_ifs <;> simp_all

theorem Worker.Yields.rank_le (h : w.Yields w') :
    w'.rank workers looked ≤ w.rank workers looked := by
  have hleft := h.leftAgain_le workers
  have hqueue := h.queue
  obtain ⟨place, lifo, queue, claimed, tick, lifoPolls⟩ := w
  obtain ⟨place', lifo', queue', claimed', tick', lifoPolls'⟩ := w'
  obtain rfl : place' = place := h.place
  obtain rfl : lifo' = lifo := h.lifo
  obtain rfl : lifoPolls' = lifoPolls := h.lifoPolls
  simp only [Worker.rank] at hleft hqueue ⊢
  cases place' with
  | leave globalFirst task => cases task <;> simp only <;> omega
  | notify n resume => cases resume <;> simp only <;> omega
  | mark =>
    simp only
    split_ifs
    all_goals omega
  | overflow task overflow resume =>
    simp only
    unfold overflowRank
    split_ifs
    all_goals omega
  | _ =>
    simp only
    omega

/-- Neither in a copy nor in a search. -/
def Place.still (p : Place) : Prop := p.copying = 0 ∧ p.ahead = 0 ∧ p.copied = none

theorem searched_still (globalFirst : Bool) : (searched globalFirst).still := by
  cases globalFirst <;> exact ⟨rfl, rfl, rfl⟩

theorem injectorEmpty_still (globalFirst : Bool) : (injectorEmpty globalFirst).still := by
  cases globalFirst <;> exact ⟨rfl, rfl, rfl⟩

theorem Resume.place_still (resume : Resume) : resume.place.still := by
  cases resume with
  | searched globalFirst => exact searched_still globalFirst
  | _ => exact ⟨rfl, rfl, rfl⟩

theorem Resume.after_still (resume : Resume) (n : Option Notify) : (resume.after n).still := by
  cases n with
  | some n => exact ⟨rfl, rfl, rfl⟩
  | none => exact resume.place_still

theorem Worker.Fits.len_le (h : w.Fits workers) : w.len ≤ capacity :=
  (Nat.le_add_right _ _).trans h.room

theorem Worker.Fits.of_still (hlen : w'.len ≤ capacity) (hstill : w'.place.still) :
    w'.Fits workers := by
  obtain ⟨hcopying, hahead, hcopied⟩ := hstill
  refine ⟨?_, ?_, fun victim size hsome => ?_⟩
  · rw [hcopying]
    exact hlen
  · rw [hahead]
    exact Nat.zero_le _
  · rw [hcopied] at hsome
    cases hsome

theorem claimed_of_calm {searching : ℕ} {c : Choice} (h : w.disturbed searching c = false) :
    w.claimed = 0 := by
  simpa using (Bool.or_eq_false_iff.mp h).1

namespace State
variable {s t : State} {i victim : ℕ} {v v' : Worker} {c : Choice} {p q : Place}

/-- A step of worker `i`, which may take from the queue of another one. -/
structure Turned (s : State) (i : ℕ) (w' : Worker) (t : State) : Prop where
  own : t.workers[i]? = some w'
  others : ∀ j v', j ≠ i → t.workers[j]? = some v' → ∃ v, s.workers[j]? = some v ∧ v.Yields v'
  length : t.workers.length = s.workers.length

theorem Turned.of_set (hi : s.workers[i]? = some w) (hworkers : t.workers = s.workers.set i w') :
    s.Turned i w' t := by
  obtain ⟨hown, -, hlength⟩ := workers_set hi w' hworkers
  refine ⟨hown, fun j v' hj hv' => ⟨v', ?_, .refl v'⟩, hlength⟩
  rwa [hworkers, List.getElem?_set_ne (Ne.symm hj)] at hv'

theorem Turned.of_set_set (hi : s.workers[i]? = some w) (hv : s.workers[victim]? = some v)
    (hyields : v.Yields v') (hworkers : t.workers = (s.workers.set victim v').set i w') :
    s.Turned i w' t := by
  have hlt := (List.getElem?_eq_some_iff.mp hi).1
  refine ⟨?_, fun j u hj hu => ?_, ?_⟩
  · rw [hworkers, List.getElem?_set_self (by rwa [List.length_set])]
  · rw [hworkers, List.getElem?_set_ne (Ne.symm hj)] at hu
    by_cases hjv : victim = j
    · subst hjv
      rw [List.getElem?_set_self (List.getElem?_eq_some_iff.mp hv).1] at hu
      obtain rfl := Option.some.inj hu
      exact ⟨v, hv, hyields⟩
    · rw [List.getElem?_set_ne hjv] at hu
      exact ⟨u, hu, .refl u⟩
  · rw [hworkers, List.length_set, List.length_set]

theorem Goes.fits (h : s.Goes i w p c q) (hp : w.place = p) (hfits : w.Fits workers) :
    (w.goTo q).Fits workers := by
  have hlen := hfits.len_le
  have hahead := hfits.ahead
  rw [hp] at hahead
  cases h with
  | tooMany globalFirst | counted globalFirst | noneParked globalFirst =>
    exact .of_still hlen (searched_still globalFirst)
  | passes globalFirst victim rest =>
    exact ⟨hlen, (Nat.le_succ _).trans hahead, nofun⟩
  | _ => exact .of_still hlen ⟨rfl, rfl, rfl⟩

theorem eq_nil_of_take_stealCount
    (h : queue.take (LocalQueue.stealCount queue.length capacity) = []) : queue = [] := by
  rcases List.take_eq_nil_iff.mp h with hzero | hnil
  · have hpos : 1 ≤ LocalQueue.stealCount queue.length capacity := le_max_right _ _
    omega
  · exact hnil

/-- An undisturbed step brings the worker nearer. -/
theorem Goes.rank_lt (h : s.Goes i w p c q) (hp : w.place = p) (hfits : w.Fits workers)
    (hcalm : w.disturbed s.searching c = false) (hlooked : w.place = .mark → looked = true) :
    (w.goTo q).rank workers false < w.rank workers looked := by
  have hclaimed := claimed_of_calm hcalm
  have hiteration : iteration workers = workers + capacity + 21 := rfl
  have hrank : ∀ globalFirst, (w.goTo (searched globalFirst)).rank workers false =
      searchedRank globalFirst + leftAgain workers w.lifo w.queue w.lifoPolls := fun _ =>
    rank_searched workers _ rfl
  obtain ⟨place, lifo, queue, claimed, tick, lifoPolls⟩ := w
  obtain rfl : place = p := hp
  have hagain := iteration_le_again workers lifoPolls
  cases h with
  | noLifo few none =>
    have hslot : slotAgain workers lifo lifoPolls = 0 := if_pos none
    simp only [Worker.rank, Worker.goTo]
    omega
  | keepsNone =>
    simp only [Worker.rank, Worker.goTo]
    split_ifs
    all_goals omega
  | tooMany globalFirst | counted globalFirst | noneParked globalFirst =>
    rw [hrank]
    simp only [Worker.rank]
    omega
  | fails => simp [Worker.disturbed] at hcalm
  | loses globalFirst count victim other => simp [Worker.disturbed, other] at hcalm
  | stealsNone =>
    simp only [Worker.rank, Worker.goTo]
    omega
  | stillFull task overflow resume full =>
    have hfull : capacity ≤ queue.length := by
      simp only [Worker.len] at full hclaimed
      omega
    have := overflowRank_of_full hfull
    simp only [Worker.rank, Worker.goTo]
    omega
  | spillsNone task overflow resume none =>
    obtain rfl : queue = [] := eq_nil_of_take_stealCount none
    have := overflowRank_of_room (show ([] : List ℕ).length < capacity by decide)
    simp only [Worker.rank, Worker.goTo]
    omega
  | full task resume =>
    have := overflowRank_le queue
    simp only [Worker.rank, Worker.goTo]
    omega
  | passes | finds | searches | counts | offTarget | onTarget =>
    simp only [Worker.rank, Worker.goTo, List.length_cons]
    omega

structure Nears (s : State) (i : ℕ) (w : Worker) (c : Choice) (looked : Bool) (w' : Worker)
    (t : State) : Prop where
  turned : s.Turned i w' t
  fits : w'.Fits s.workers.length
  rank : w.disturbed s.searching c = false → w.place.begins c = [] → w.place.wakes c = [] →
    w'.rank s.workers.length false < w.rank s.workers.length looked

theorem Nears.own (hi : s.workers[i]? = some w) (hworkers : t.workers = s.workers.set i w')
    (hlen : w'.len ≤ capacity) (hstill : w'.place.still)
    (hrank : w.disturbed s.searching c = false → w.place.begins c = [] → w.place.wakes c = [] →
      w'.rank s.workers.length false < w.rank s.workers.length looked) :
    ∃ w', s.Nears i w c looked w' t :=
  ⟨w', .of_set hi hworkers, .of_still hlen hstill, hrank⟩

theorem eq_nil_of_popped (h : w.popped = none) (hclaimed : w.claimed = 0) : w.queue = [] := by
  rw [Worker.popped, if_pos hclaimed] at h
  exact List.getLast?_eq_none_iff.mp h

theorem length_victims_le (workers i start : ℕ) : (victims workers i start).length ≤ workers :=
  (List.length_filter_le _ _).trans_eq (by simp)

/-- A step of a `notify_driver`. -/
theorem rank_after_lt {n : Notify} {resume : Resume} (hw : w.place = .notify n resume)
    (hw' : w' = w.goTo (resume.after (s.driver.signal n).2)) :
    w'.rank workers false < w.rank workers looked := by
  subst hw'
  cases n with
  | decided condvar =>
    have hplace : (resume.after (s.driver.signal (.decided condvar)).2) = resume.place := by
      cases condvar <;> rfl
    have hle := rank_place_le (w := w.goTo resume.place) workers resume rfl
    rw [hplace]
    cases resume with
    | searched globalFirst =>
      rw [rank_searched workers globalFirst rfl]
      simp only [Worker.rank, hw, noticesLeft, Worker.goTo]
      omega
    | _ =>
      refine hle.trans_lt ?_
      simp only [Worker.rank, hw, noticesLeft, Worker.goTo]
      omega
  | starts | stored =>
    cases resume with
    | _ =>
      simp only [Worker.rank, hw, noticesLeft, Worker.goTo, DriverShared.signal, Resume.after]
      omega

/-- Every step keeps what a queue has room for, and an undisturbed one brings the worker nearer. -/
theorem nears_of_next (h : s.next i w c = some t) (hi : s.workers[i]? = some w)
    (hfits : w.Fits s.workers.length) (hlooked : w.place = .mark → looked = true) :
    ∃ w', s.Nears i w c looked w' t := by
  have hsteps := steps_of_next h
  have hlen := hfits.len_le
  have hroom := hfits.room
  have hnil : w.disturbed s.searching c = false → w.popped = none → w.queue = [] :=
    fun hcalm hpopped => eq_nil_of_popped hpopped (claimed_of_calm hcalm)
  have hiteration : iteration s.workers.length = s.workers.length + capacity + 21 := rfl
  obtain ⟨place, lifo, queue, claimed, tick, lifoPolls⟩ := w
  have hagain := iteration_le_again s.workers.length lifoPolls
  have hagain' := again_le s.workers.length lifoPolls
  have hslot := slotAgain_le_leftAgain s.workers.length lifo queue lifoPolls
  have hslotNil := leftAgain_nil s.workers.length lifo lifoPolls
  have hleft := leftAgain_le_again s.workers.length lifo queue lifoPolls
  dsimp only at hsteps
  have hdrop : queue.dropLast.length ≤ queue.length := by simp
  simp only [Worker.len] at hlen hroom
  cases hsteps with
  | goes goes =>
    exact ⟨_, .of_set hi rfl, goes.fits rfl hfits, fun hcalm _ _ =>
      goes.rank_lt rfl hfits hcalm hlooked⟩
  | capped enough =>
    refine Nears.own hi rfl hlen ⟨rfl, rfl, rfl⟩ fun _ _ _ => ?_
    have hslot := slotAgain_le_again s.workers.length lifo 0
    have hfew := again_of_few s.workers.length (show 0 < MAX_LIFO_POLLS_PER_TICK by
      decide)
    have henough := again_of_enough s.workers.length enough
    simp only [Worker.rank] at henough ⊢
    omega
  | takesLifo task =>
    refine Nears.own hi rfl hlen ⟨rfl, rfl, rfl⟩ fun _ _ _ => ?_
    simp only [Worker.rank]
    omega
  | pops task popped =>
    refine Nears.own hi rfl ?_ ⟨rfl, rfl, rfl⟩ fun _ _ _ => ?_
    · simp only [Worker.len]
      omega
    · simp only [Worker.rank]
      omega
  | ticks popped =>
    split_ifs
    all_goals
      refine Nears.own hi rfl hlen ⟨rfl, rfl, rfl⟩ fun hcalm _ _ => ?_
      obtain rfl : queue = [] := hnil hcalm popped
      simp only [Worker.rank, searchedRank, if_true, Bool.false_eq_true, if_false]
      omega
  | takes globalFirst task injector =>
    refine Nears.own hi rfl hlen ⟨rfl, rfl, rfl⟩ fun _ _ _ => ?_
    simp only [Worker.rank, Worker.goTo]
    split_ifs
    all_goals omega
  | misses globalFirst =>
    refine Nears.own hi rfl hlen (injectorEmpty_still globalFirst) fun _ _ _ => ?_
    cases globalFirst with
    | _ =>
      simp only [Worker.rank, Worker.goTo, injectorEmpty, searchedRank, if_true,
        Bool.false_eq_true, if_false]
      omega
  | keeps globalFirst task room =>
    refine Nears.own hi rfl ?_ ⟨rfl, rfl, rfl⟩ fun _ _ _ => ?_
    · simp only [Worker.len, List.length_append, List.length_singleton] at room ⊢
      omega
    · simp only [Worker.rank]
      split_ifs
      all_goals omega
  | retakes globalFirst task popped =>
    refine Nears.own hi rfl ?_ ⟨rfl, rfl, rfl⟩ fun _ _ _ => ?_
    · simp only [Worker.len]
      omega
    · simp only [Worker.rank]
      split_ifs
      all_goals omega
  | robbed globalFirst task popped =>
    refine Nears.own hi rfl hlen (injectorEmpty_still globalFirst) fun hcalm _ _ => ?_
    obtain rfl : queue = [] := hnil hcalm popped
    cases globalFirst with
    | _ =>
      simp only [Worker.rank, Worker.goTo, injectorEmpty, searchedRank, if_true,
        Bool.false_eq_true, if_false]
      omega
  | wins globalFirst count victim =>
    have hlength := length_victims_le s.workers.length i victim
    refine ⟨_, .of_set hi rfl, ⟨hlen, hlength, fun _ _ hcopied => ?_⟩, fun _ _ _ => ?_⟩
    · cases hcopied
    · simp only [Worker.rank, Worker.goTo]
      omega
  | claims globalFirst victim count task rest stolen v found taken other pos enough room =>
    have hlength := congrArg List.length taken
    simp only [List.length_take, List.length_cons] at hlength
    simp only [Worker.len] at room
    have hyields : v.Yields { v with
        queue := v.queue.drop count, claimed := v.claimed + count } := by
      refine ⟨rfl, rfl, rfl, ?_, ?_⟩
      · simp
      · simp only [Worker.len, List.length_drop]
        omega
    refine ⟨_, .of_set_set hi found hyields rfl, ⟨?_, Nat.zero_le _, ?_⟩, fun _ _ _ => ?_⟩
    · simp only [Worker.goTo, Worker.len, Place.copying]
      omega
    · rintro victim' size ⟨⟩
      exact (List.getElem?_eq_some_iff.mp found).1
    · simp only [Worker.rank, Worker.goTo]
      omega
  | copies globalFirst victim count task stolen rest =>
    simp only [Place.copying, List.length_cons] at hroom
    refine ⟨_, .of_set hi rfl, ⟨?_, Nat.zero_le _, hfits.victim⟩, fun _ _ _ => ?_⟩
    · simp only [Worker.len, Place.copying, List.length_append, List.length_singleton]
      omega
    · simp only [Worker.rank, List.length_cons]
      omega
  | commits globalFirst victim count task v found =>
    have hyields : v.Yields { v with claimed := v.claimed - count } := by
      refine ⟨rfl, rfl, rfl, le_rfl, ?_⟩
      simp only [Worker.len]
      omega
    refine ⟨_, .of_set_set hi found hyields rfl, .of_still hlen ⟨rfl, rfl, rfl⟩, fun _ _ _ => ?_⟩
    simp only [Worker.rank, Worker.goTo]
    omega
  | leaves globalFirst task =>
    cases task with
    | some task =>
      refine Nears.own hi rfl hlen ⟨rfl, rfl, rfl⟩ fun _ _ _ => ?_
      simp only [Worker.rank, Worker.goTo]
      omega
    | none =>
      dsimp only
      split_ifs
      · refine Nears.own hi rfl hlen ⟨rfl, rfl, rfl⟩ fun _ _ _ => ?_
        simp only [Worker.rank, Worker.goTo]
        omega
      · refine Nears.own hi rfl hlen (searched_still globalFirst) fun _ _ _ => ?_
        rw [rank_searched _ globalFirst rfl]
        simp only [Worker.rank, Worker.goTo]
        omega
  | unmarks globalFirst =>
    refine Nears.own hi rfl hlen ⟨rfl, rfl, rfl⟩ fun _ _ _ => ?_
    simp only [Worker.rank, Worker.goTo, noticesLeft]
    omega
  | notifies n resume =>
    exact Nears.own hi rfl hlen (resume.after_still _) fun _ _ _ => rank_after_lt rfl rfl
  | marks =>
    obtain rfl := hlooked rfl
    refine Nears.own hi rfl hlen ⟨rfl, rfl, rfl⟩ fun _ _ _ => ?_
    simp only [Worker.rank, Worker.goTo, if_true]
    omega
  | looks | decides =>
    split_ifs
    all_goals
      refine Nears.own hi rfl hlen ⟨rfl, rfl, rfl⟩ fun _ _ _ => ?_
      simp only [Worker.rank, Worker.goTo]
      omega
  | retreats | enters | unparks =>
    refine Nears.own hi rfl hlen ⟨rfl, rfl, rfl⟩ fun _ _ _ => ?_
    simp only [Worker.rank, Worker.goTo]
    omega
  | runs => exact Nears.own hi rfl hlen ⟨rfl, rfl, rfl⟩ fun _ hbegins _ => by cases hbegins
  | wakes | releases =>
    exact Nears.own hi rfl hlen ⟨rfl, rfl, rfl⟩ fun _ _ hwakes => by cases hwakes
  | returns task woken =>
    cases woken with
    | true => exact Nears.own hi rfl hlen ⟨rfl, rfl, rfl⟩ fun _ _ hwakes => by cases hwakes
    | false =>
      refine Nears.own hi rfl hlen ⟨rfl, rfl, rfl⟩ fun _ _ _ => ?_
      simp only [Worker.rank, Worker.goTo, pollRank, Bool.false_eq_true, if_false]
      omega
  | fills task target resume =>
    refine Nears.own hi rfl hlen resume.place_still fun _ _ _ => ?_
    refine (rank_place_le _ resume rfl).trans_lt ?_
    simp only [Worker.rank]
    omega
  | pushes task resume room =>
    refine Nears.own hi rfl ?_ resume.place_still fun _ _ _ => ?_
    · simp only [Worker.len, List.length_append, List.length_singleton] at room ⊢
      omega
    · refine (rank_place_le _ resume rfl).trans_lt ?_
      simp only [Worker.rank]
      omega
  | overflows task overflow resume room =>
    refine Nears.own hi rfl ?_ ⟨rfl, rfl, rfl⟩ fun _ _ _ => ?_
    · simp only [Worker.len, List.length_append, List.length_singleton] at room ⊢
      omega
    · have := le_overflowRank queue
      simp only [Worker.rank]
      omega
  | spills task first overflow staged resume taken =>
    have hpos : 1 ≤ LocalQueue.stealCount queue.length capacity := le_max_right _ _
    have htaken := congrArg List.length taken
    simp only [List.length_take, List.length_cons] at htaken
    refine Nears.own hi rfl ?_ ⟨rfl, rfl, rfl⟩ fun _ _ _ => ?_
    · simp only [Worker.len, List.length_drop]
      omega
    · have hshort : (queue.drop (LocalQueue.stealCount queue.length capacity)).length < capacity := by
        simp
        omega
      have := overflowRank_of_room hshort
      simp only [Worker.rank]
      omega
  | injects tasks resume before hbefore =>
    refine Nears.own hi rfl hlen ⟨rfl, rfl, rfl⟩ fun _ _ _ => ?_
    have hrank : Worker.rank s.workers.length looked ⟨place, lifo, queue, claimed, tick, lifoPolls⟩ =
        4 + resume.rank s.workers.length lifoPolls := by
      obtain rfl | ⟨task, rfl, -⟩ := hbefore <;> rfl
    rw [hrank]
    cases resume with
    | _ =>
      simp only [Worker.rank, Worker.goTo, noticesLeft, Resume.rank]
      omega

/-- A worker that the driver does not hold can go on without a wake. -/
theorem exists_next (hfits : w.Fits s.workers.length)
    (hparks : w.place = .enter → (s.driver.step (.park i)).isSome = true)
    (hrunning : w.place = .parked → s.driver.workers[i]? = some .running) :
    ∃ c ∈ [Choice.next, .start 0, .claim 0, .returns false], (s.next i w c).isSome = true := by
  obtain ⟨place, lifo, queue, claimed, tick, lifoPolls⟩ := w
  cases place with
  | claim globalFirst count =>
    refine ⟨.start 0, by simp, ?_⟩
    simp only [next]
    split_ifs <;> rfl
  | steal globalFirst victims =>
    cases victims with
    | nil => exact ⟨.next, by simp, rfl⟩
    | cons victim rest => exact ⟨.claim 0, by simp, rfl⟩
  | copy globalFirst victim count task rest =>
    cases rest with
    | nil =>
      have hlt := hfits.victim victim count rfl
      exact ⟨.next, by simp, by simp [next, List.getElem?_eq_getElem hlt]⟩
    | cons stolen rest => exact ⟨.next, by simp, rfl⟩
  | poll task => exact ⟨.returns false, by simp, rfl⟩
  | enter => exact ⟨.next, by simp, by simpa [next] using hparks rfl⟩
  | parked => exact ⟨.next, by simp, by simp [next, hrunning rfl]⟩
  | _ =>
    refine ⟨.next, by simp, ?_⟩
    simp only [next]
    repeat' split
    all_goals rfl

end State

end

/-- The steps that a takeover thread has made since the request, and those to go, are paid for. -/
def Takeover.Paid (n workers load rank : ℕ) (k : Takeover) : Prop :=
  k.requested = true →
    k.steps + restart workers * load + rank ≤
      restart workers * (n + 2 * k.wakes + k.disturbed + 1)

/-- The steps that a takeover thread has to go, where it is the `j`-th of its worker: an outer one is
in a poll. -/
def rankAt (workers : ℕ) (w : Worker) (j : ℕ) (k : Takeover) : ℕ :=
  if j = 0 then w.rank workers k.looked else pollRank workers

section
variable {n workers load load' rank rank' begun : ℕ} {k k' : Takeover} {tasks : List ℕ}

theorem Takeover.Paid.mono (h : k.Paid n workers load rank) (hle : rank' ≤ rank) :
    k.Paid n workers load rank' := fun hrequested => by
  have := h hrequested
  omega

/-- Another worker goes on, and may wake tasks. -/
theorem Takeover.Paid.woken (h : k.Paid n workers load rank)
    (hload : load' + begun = load + tasks.length) : (k.woken tasks).Paid n workers load' rank := by
  intro hrequested
  have hpaid := h hrequested
  have hload' : restart workers * load' ≤ restart workers * (load + tasks.length) :=
    Nat.mul_le_mul_left _ (by omega)
  change k.steps + restart workers * load' + rank ≤
    restart workers * (n + 2 * (k.wakes + tasks.length) + k.disturbed + 1)
  nlinarith

theorem Takeover.Paid.stepped {disturbed : Bool} (h : k.Paid n workers load rank)
    (hrequested : k'.requested = k.requested) (hwakes : k'.wakes = k.wakes)
    (hsteps : k'.steps = k.steps + 1) (hdisturbed : k'.disturbed = k.disturbed + disturbed.toNat)
    (hload : load' + begun = load + tasks.length)
    (hrank : disturbed = false → begun = 0 → tasks = [] → rank' < rank)
    (hlt : rank' < restart workers) : (k'.woken tasks).Paid n workers load' rank' := by
  intro hk
  have hpaid := h (hrequested.symm.trans hk)
  have hcost : rank' + 1 ≤ rank + restart workers * (begun + tasks.length + disturbed.toNat) := by
    by_cases hfree : begun + tasks.length + disturbed.toNat = 0
    · have hcalm : disturbed = false := by
        cases disturbed
        · rfl
        · exact absurd hfree (by simp)
      have := hrank hcalm (by omega) (List.length_eq_zero_iff.mp (by omega))
      omega
    · have := Nat.le_mul_of_pos_right (restart workers) (Nat.pos_of_ne_zero hfree)
      omega
  have hload' : restart workers * (load' + begun) = restart workers * (load + tasks.length) :=
    congrArg _ hload
  change k'.steps + restart workers * load' + rank' ≤
    restart workers * (n + 2 * (k'.wakes + tasks.length) + k'.disturbed + 1)
  rw [hsteps, hwakes, hdisturbed]
  nlinarith

end

namespace Served
variable {x y : Served} {s t : State} {i n : ℕ} {w w' : Worker} {c : Choice} {limit : ℕ∞}
  {ks ks' : List Takeover} {k k' : Takeover}

/-- Each takeover thread that was asked to leave can pay for the steps that it has to go. -/
structure Nearing (n : ℕ) (x : Served) : Prop where
  aligned : x.takeovers.length = x.state.workers.length
  fits : ∀ (i : ℕ) (w : Worker), x.state.workers[i]? = some w → w.Fits x.state.workers.length
  paid : ∀ (i : ℕ) (w : Worker) (ks : List Takeover), x.state.workers[i]? = some w →
    x.takeovers[i]? = some ks → ∀ (j : ℕ) (k : Takeover), ks[j]? = some k →
      k.Paid n x.state.workers.length (x.load n) (rankAt x.state.workers.length w j k)

theorem nearing_new (n workers : ℕ) (lifoSlotEnabled : Bool) :
    (new workers lifoSlotEnabled).Nearing n := by
  refine ⟨by simp [new, State.new], fun i w hw => ?_, fun i w ks _ hks j k hk => ?_⟩
  · obtain rfl := List.eq_of_mem_replicate (List.mem_of_getElem? hw)
    exact .of_still (Nat.zero_le _) ⟨rfl, rfl, rfl⟩
  · obtain rfl := List.eq_of_mem_replicate (List.mem_of_getElem? hks)
    cases hk

theorem Nearing.worker (h : x.Nearing n) (hkept : x.Kept n limit)
    (hserves : x.Serves n limit (.worker i c)) (hi : x.state.workers[i]? = some w)
    (hks : x.takeovers[i]? = some ks)
    (hadvance : advance w.place c (w.disturbed x.state.searching c) ks = some ks')
    (hnext : x.state.next i w c = some t) :
    (wake ⟨t, x.takeovers.set i ks'⟩ (w.place.wakes c)).Nearing n := by
  have hload := load_of_moves (State.next_moves hi hnext) (fun _ => hkept.apart.begins hi)
    (hkept.apart.wakes hi hserves).2 (x.takeovers.set i ks')
  have hlooked : w.place = .mark → ks.head?.all Takeover.looked = true := by
    cases ks with
    | nil => exact fun _ => rfl
    | cons k outer =>
      obtain ⟨k', hk', -⟩ := Option.map_eq_some_iff.mp hadvance
      exact (stepped_of_advance hk').1
  obtain ⟨w', hnears⟩ := State.nears_of_next hnext hi (h.fits i w hi) hlooked
  have hlength := hnears.turned.length
  refine ⟨?_, fun j v' hv' => ?_, fun j v' ls' hv' hls' m k'' hk'' => ?_⟩
  · simp only [wake, List.length_map, List.length_set]
    exact h.aligned.trans hlength.symm
  · simp only [wake] at hv' ⊢
    rw [hlength]
    by_cases hj : j = i
    · subst hj
      obtain rfl := Option.some.inj (hnears.turned.own.symm.trans hv')
      exact hnears.fits
    · obtain ⟨v, hv, hyields⟩ := hnears.turned.others j v' hj hv'
      exact hyields.fits (h.fits j v hv)
  · simp only [wake, List.getElem?_map] at hv' hls' ⊢
    obtain ⟨ls, hls, rfl⟩ := Option.map_eq_some_iff.mp hls'
    rw [List.getElem?_map] at hk''
    obtain ⟨k', hk', rfl⟩ := Option.map_eq_some_iff.mp hk''
    rw [hlength]
    by_cases hj : j = i
    · subst hj
      obtain rfl := Option.some.inj (hnears.turned.own.symm.trans hv')
      rw [List.getElem?_set_self (List.getElem?_eq_some_iff.mp hks).1] at hls
      obtain rfl := Option.some.inj hls
      cases ks with
      | nil =>
        obtain rfl := Option.some.inj hadvance
        cases hk'
      | cons k outer =>
        obtain ⟨k₁, hk₁, rfl⟩ := Option.map_eq_some_iff.mp hadvance
        cases m with
        | zero =>
          obtain rfl := Option.some.inj hk'
          obtain ⟨-, hlooked', hsteps, hdisturbed⟩ := stepped_of_advance hk₁
          obtain ⟨-, hadvanced⟩ := advanced_of_advance hk₁
          have hpaid := h.paid j w _ hi hks 0 k rfl
          refine hpaid.stepped hadvanced.requested hadvanced.wakes hsteps hdisturbed hload
            (fun hcalm hbegins hwakes => ?_) ?_
          · simp only [rankAt, if_true, Takeover.woken, hlooked']
            exact hnears.rank hcalm (List.length_eq_zero_iff.mp hbegins) hwakes
          · exact hnears.fits.rank_lt
        | succ m => exact (h.paid j w _ hi hks (m + 1) k' hk').woken hload
    · obtain ⟨v, hv, hyields⟩ := hnears.turned.others j v' hj hv'
      rw [List.getElem?_set_ne (Ne.symm hj)] at hls
      refine ((h.paid j v ls hv hls m k' hk').woken hload).mono ?_
      unfold rankAt
      split_ifs
      · exact hyields.rank_le
      · exact le_rfl

theorem Nearing.push (h : x.Nearing n) {task : ℕ} (hserves : x.Serves n limit (.push task))
    (driver : Driver.DriverShared) :
    (wake ⟨{ x.state with injector := x.state.injector ++ [task], driver }, x.takeovers⟩
      [task]).Nearing n := by
  have hload := load_of_push (x := x) hserves.1 driver
  refine ⟨by simpa [wake] using h.aligned, h.fits, fun i w ls' hw hls' j k' hk' => ?_⟩
  simp only [wake, List.getElem?_map] at hls'
  obtain ⟨ls, hls, rfl⟩ := Option.map_eq_some_iff.mp hls'
  rw [List.getElem?_map] at hk'
  obtain ⟨k, hk, rfl⟩ := Option.map_eq_some_iff.mp hk'
  exact (h.paid i w ls hw hls j k hk).woken hload

theorem Nearing.exchange (h : x.Nearing n) (hi : x.state.workers[i]? = some w)
    (hentries : w'.entries = w.entries) (hfits : w'.Fits x.state.workers.length)
    (hpaid : ∀ j (k : Takeover), ks'[j]? = some k →
      k.Paid n x.state.workers.length (x.load n) (rankAt x.state.workers.length w' j k)) :
    Nearing n ⟨x.state.setWorker i w', x.takeovers.set i ks'⟩ := by
  have hload : load n ⟨x.state.setWorker i w', x.takeovers.set i ks'⟩ = x.load n :=
    Finset.sum_congr rfl fun task _ => State.queued_setWorker hi hentries task
  have hlength : (x.state.setWorker i w').workers.length = x.state.workers.length :=
    List.length_set
  refine ⟨?_, fun j v hv => ?_, fun j v ls hv hls m k hk => ?_⟩
  · rw [hlength, List.length_set]
    exact h.aligned
  · rw [hlength]
    simp only [State.setWorker, List.getElem?_set] at hv
    split_ifs at hv
    · obtain rfl := Option.some.inj hv
      exact hfits
    · exact h.fits j v hv
  · rw [hlength, hload]
    simp only [State.setWorker, List.getElem?_set] at hv hls
    split_ifs at hv hls
    · obtain rfl := Option.some.inj hv
      obtain rfl := Option.some.inj hls
      exact hpaid m k hk
    · exact h.paid j v ls hv hls m k hk

theorem Nearing.request (h : x.Nearing n) (hkept : x.Kept n limit) {j : ℕ}
    (driver : Driver.DriverShared) (hks : x.takeovers[i]? = some ks) (hk : ks[j]? = some k) :
    Nearing n ⟨{ x.state with driver }, x.takeovers.set i (ks.set j k.request)⟩ := by
  refine ⟨by simpa using h.aligned, h.fits, fun i' w ls hw hls m k' hk' => ?_⟩
  have hold := h.paid i' w
  simp only [List.getElem?_set] at hls
  split_ifs at hls with hi
  · subst hi
    obtain rfl := Option.some.inj hls
    simp only [List.getElem?_set] at hk'
    split_ifs at hk' with hm
    · subst hm
      obtain rfl := Option.some.inj hk'
      have hload : x.load n ≤ n :=
        hkept.apart.load_le (List.mem_of_getElem? hks) (List.mem_of_getElem? hk)
      have hrank : rankAt x.state.workers.length w j k.request ≤ restart x.state.workers.length := by
        unfold rankAt
        split_ifs
        · exact (h.fits i w hw).rank_lt.le
        · simp only [pollRank, restart]
          omega
      intro _
      change 0 + restart x.state.workers.length * x.load n + _ ≤
        restart x.state.workers.length * (n + 2 * 0 + 0 + 1)
      have := Nat.mul_le_mul_left (restart x.state.workers.length) hload
      linarith
    · exact hold ks hw hks m k' hk'
  · exact hold ls hw hls m k' hk'

theorem Nearing.stays (h : x.Nearing n) {lifo : Option ℕ} {queue : List ℕ} {claimed lifoPolls : ℕ}
    {tick : UInt32} {outer : List Takeover}
    (hi : x.state.workers[i]? = some ⟨.mark, lifo, queue, claimed, tick, lifoPolls⟩)
    (hks : x.takeovers[i]? = some (k :: outer)) (hlooked : k.looked = false)
    (hstays : ¬ (k.requested ∧ lifo = none ∧ queue.length + claimed = 0)) :
    Nearing n ⟨x.state,
      x.takeovers.set i ({ (k.stepped (claimed ≠ 0)) with looked := true } :: outer)⟩ := by
  refine ⟨by simpa using h.aligned, h.fits, fun i' w ls hw hls m k' hk' => ?_⟩
  have hold := h.paid i' w
  simp only [List.getElem?_set] at hls
  split_ifs at hls with hi'
  · subst hi'
    obtain rfl := Option.some.inj (hi.symm.trans hw)
    obtain rfl := Option.some.inj hls
    cases m with
    | zero =>
      obtain rfl := Option.some.inj hk'
      intro hrequested
      have hsome : claimed = 0 → ¬ (lifo = none ∧ queue = []) := by
        rintro rfl ⟨rfl, rfl⟩
        exact hstays ⟨hrequested, rfl, rfl⟩
      have hload : x.load n + 0 = x.load n + ([] : List ℕ).length := rfl
      let w : Worker := ⟨.mark, lifo, queue, claimed, tick, lifoPolls⟩
      let k' : Takeover := { (k.stepped (claimed ≠ 0)) with looked := true }
      have hpaid : (k'.woken []).Paid n x.state.workers.length (x.load n)
          (w.rank x.state.workers.length true) := by
        refine (hold _ hi hks 0 k rfl).stepped rfl rfl rfl rfl hload
          (fun hcalm _ _ => ?_) (h.fits i _ hi).rank_lt
        have hleft : leftAgain x.state.workers.length lifo queue lifoPolls =
            again x.state.workers.length lifoPolls := if_neg (hsome (by simpa using hcalm))
        simp only [w, rankAt, Worker.rank, hlooked, hleft, if_true, Bool.false_eq_true, if_false]
        omega
      exact hpaid hrequested
    | succ m => exact hold _ hi hks (m + 1) k' hk'
  · exact hold ls hw hls m k' hk'

theorem Nearing.step (h : x.Nearing n) (hkept : x.Kept n limit) {l : Label}
    (hserves : x.Serves n limit l) (hs : x.step l = some y) : y.Nearing n := by
  cases steps_of_eq hs with
  | worker hi hks hadvance hnext => exact h.worker hkept hserves hi hks hadvance hnext
  | push task driver => exact h.push hserves driver
  | driver l driver => exact ⟨h.aligned, h.fits, h.paid⟩
  | block hi hks =>
    refine h.exchange hi rfl (.of_still (h.fits _ _ hi).len_le ⟨rfl, rfl, rfl⟩) fun j k hk => ?_
    cases j with
    | zero =>
      obtain rfl := Option.some.inj hk
      exact nofun
    | succ j =>
      have hpaid := h.paid _ _ _ hi hks j k hk
      cases j with
      | _ => exact hpaid
  | request driver hks hk => exact h.request hkept driver hks hk
  | leaves hi hks =>
    refine h.exchange hi rfl (.of_still (h.fits _ _ hi).len_le ⟨rfl, rfl, rfl⟩) fun j k' hk' => ?_
    have hpaid := h.paid _ _ _ hi hks (j + 1) k' hk'
    cases j with
    | _ => exact hpaid
  | stays hi hks hlooked hstays => exact h.stays hi hks hlooked hstays

theorem length_step (hnearing : x.Nearing n) {l : Label} (hs : x.step l = some y) :
    y.state.workers.length = x.state.workers.length := by
  cases steps_of_eq hs with
  | worker hi hks hadvance hnext =>
    obtain ⟨w', hnears⟩ :=
      State.nears_of_next hnext hi (hnearing.fits _ _ hi) fun _ => Eq.refl true
    exact hnears.turned.length
  | block | leaves => exact List.length_set
  | push | driver | request | stays => rfl

theorem Reachable.nearing {workers : ℕ} {lifoSlotEnabled : Bool}
    (h : Reachable step (Serves n limit) (new workers lifoSlotEnabled) x) :
    x.Kept n limit ∧ x.Nearing n ∧ x.state.workers.length = workers :=
  h.invariant (I := fun x => x.Kept n limit ∧ x.Nearing n ∧ x.state.workers.length = workers)
    ⟨kept_new n limit workers lifoSlotEnabled, nearing_new n workers lifoSlotEnabled,
      List.length_replicate⟩
    fun _ _ _ ⟨hkept, hnearing, hlength⟩ hserves hs => ⟨hkept.step hserves hs,
      hnearing.step hkept hserves hs, (length_step hnearing hs).trans hlength⟩

/-- The worker whose loop makes the step. -/
def Label.turn : Label → Option ℕ
  | .worker i _ | .look i => some i
  | .push _ | .driver _ | .block _ | .request _ _ => none

def Awake (x : Served) (i : ℕ) (w : Worker) : Prop :=
  (w.place = .enter → (x.state.driver.step (.park i)).isSome = true) ∧
    (w.place = .parked → x.state.driver.workers[i]? = some .running)

theorem exists_advance {place : Place} (c : Choice) (disturbed : Bool)
    (hlooked : place = .mark → k.looked = true) :
    ∃ k', k.advance place c disturbed = some k' := by
  unfold Takeover.advance
  split
  · exact ⟨_, if_pos (hlooked rfl)⟩
  · exact ⟨_, rfl⟩

theorem Nearing.goes (h : x.Nearing n) (limit : ℕ∞) (hi : x.state.workers[i]? = some w)
    (hawake : x.Awake i w) :
    ∃ l y, l.turn = some i ∧ x.Serves n limit l ∧ x.step l = some y := by
  have hlt : i < x.takeovers.length := by
    rw [h.aligned]
    exact (List.getElem?_eq_some_iff.mp hi).1
  obtain ⟨ks, hks⟩ : ∃ ks, x.takeovers[i]? = some ks := ⟨_, List.getElem?_eq_getElem hlt⟩
  by_cases hlook : w.place = .mark ∧ ∃ k outer, ks = k :: outer ∧ k.looked = false
  · obtain ⟨hmark, k, outer, rfl, hlooked⟩ := hlook
    refine ⟨.look i, x.look i w k outer, rfl, trivial, ?_⟩
    simp [Served.step, hi, hks, hmark, hlooked]
  · obtain ⟨c, hc, hnext⟩ := State.exists_next (h.fits i w hi) hawake.1 hawake.2
    obtain ⟨t, ht⟩ := Option.isSome_iff_exists.mp hnext
    have hadvance : ∃ ks', advance w.place c (w.disturbed x.state.searching c) ks = some ks' := by
      cases ks with
      | nil => exact ⟨_, rfl⟩
      | cons k outer =>
        obtain ⟨k', hk'⟩ := exists_advance c (w.disturbed x.state.searching c)
          fun hmark => Bool.eq_true_of_not_eq_false fun hlooked =>
            hlook ⟨hmark, k, outer, rfl, hlooked⟩
        exact ⟨k' :: outer, congrArg (Option.map (· :: outer)) hk'⟩
    obtain ⟨ks', hks'⟩ := hadvance
    refine ⟨.worker i c, _, rfl, ?_, by
      simp only [Served.step, hi, hks, Option.bind_some, hks', ht]
      rfl⟩
    simp only [List.mem_cons, List.not_mem_nil, or_false] at hc
    rcases hc with rfl | rfl | rfl | rfl
    · trivial
    · trivial
    · trivial
    · exact fun hwoken => absurd hwoken Bool.false_ne_true

/-- A takeover thread that was asked to leave polls few tasks, makes few steps, but for those that
others disturb, and is never stuck. -/
structure HandsBack (n : ℕ) (limit : ℕ∞) (bound pace : ℕ) (x : Served) : Prop where
  polls : ∀ ks ∈ x.takeovers, ∀ k ∈ ks, k.requested = true → k.polls ≤ bound
  steps : ∀ ks ∈ x.takeovers, ∀ k ∈ ks, k.requested = true → k.steps ≤ pace * (k.disturbed + 1)
  goes : ∀ (i : ℕ) (w : Worker), x.state.workers[i]? = some w → x.Awake i w →
    ∃ l y, l.turn = some i ∧ x.Serves n limit l ∧ x.step l = some y

end Served

end Eddy.WorkerLoop
