import Eddy.FairRuns
import Eddy.Mutex

/-!
# No waiter of the mutex starves

Guards are dropped at last, and a future that was granted the permit, and so woken, is polled with
budget or dropped at last. Then a waiting future locks the mutex or is dropped: the number of
waiters in front of it never grows, and gets smaller with every handover.
-/

namespace Eddy.Mutex
open Interleaving Semaphore FairRuns

variable {T : Type}

/-- Members that leave a list do not move the others back. -/
theorem idxOf_le_of_sublist {l l' : List ℕ} {i : ℕ} (h : l'.Sublist l) (hnodup : l.Nodup)
    (hi : i ∈ l') : l'.idxOf i ≤ l.idxOf i := by
  induction h with
  | slnil => simp at hi
  | @cons l' l j hsub ih =>
    have hne : j ≠ i := by
      rintro rfl
      exact (List.nodup_cons.mp hnodup).1 (hsub.subset hi)
    rw [List.idxOf_cons_ne l hne]
    exact Nat.le_succ_of_le (ih (List.nodup_cons.mp hnodup).2 hi)
  | @cons_cons l' l j hsub ih =>
    by_cases hj : j = i
    · simp [hj]
    · rw [List.idxOf_cons_ne l hj, List.idxOf_cons_ne l' hj]
      have hi' : i ∈ l' := (List.mem_cons.mp hi).resolve_left (Ne.symm hj)
      exact Nat.succ_le_succ (ih (List.nodup_cons.mp hnodup).2 hi')

/-- The future holds the permit and has not been polled since. -/
def Granted (s : Semaphore.State) (i : ℕ) : Prop :=
  ∃ a, s.acquires.get i = some a ∧ a.granted = true

/-- A waiter is granted, or waits on and has at most this many in front of it. -/
def Advances (t : Semaphore.State) (i place : ℕ) : Prop :=
  Granted t i ∨ i ∈ t.waiters ∧ t.waiters.idxOf i ≤ place

theorem Advances.mono {t : Semaphore.State} {i m n : ℕ} (h : Advances t i m) (hle : m ≤ n) :
    Advances t i n :=
  h.imp_right fun hwaits => ⟨hwaits.1, hwaits.2.trans hle⟩

theorem Lone.releaseLocked_served {s : Semaphore.State} {i : ℕ} (h : Lone s)
    (hpermits : s.permits = 0) (hi : i ∈ s.waiters) :
    Granted (s.releaseLocked 1).1 i ∨ i ∈ (s.releaseLocked 1).1.waiters ∧
      (s.releaseLocked 1).1.waiters.idxOf i < s.waiters.idxOf i := by
  have hreleased := h.released hpermits
  rcases hresult : s.releaseLocked 1 with ⟨t, wakes⟩
  rw [hresult] at hreleased
  cases hreleased with
  | kept hnil => simp [hnil] at hi
  | @handed j waker rest a hfirst ha =>
    by_cases hj : j = i
    · subst hj
      left
      exact ⟨{ a with granted := true, waker := none }, by simp [Semaphore.State.grant, ha], rfl⟩
    · right
      rw [hfirst] at hi
      rw [hfirst, List.idxOf_cons_ne rest hj]
      exact ⟨(List.mem_cons.mp hi).resolve_left (Ne.symm hj), Nat.lt_succ_self _⟩

theorem Lone.releaseLocked_granted {s : Semaphore.State} {j : ℕ} (h : Lone s)
    (hpermits : s.permits = 0) (hj : Granted s j) : Granted (s.releaseLocked 1).1 j := by
  obtain ⟨b, hb, hgranted⟩ := hj
  have hreleased := h.released hpermits
  rcases hresult : s.releaseLocked 1 with ⟨t, wakes⟩
  rw [hresult] at hreleased
  cases hreleased with
  | kept => exact ⟨b, hb, hgranted⟩
  | @handed i waker rest a hfirst ha =>
    have hne : j ≠ i := by
      rintro rfl
      apply h.sound.not_granted hb hgranted
      simp [hfirst]
    exact ⟨b, by simp [Semaphore.State.grant, hne, hb], hgranted⟩

namespace Single
variable {s t : Semaphore.System} {i j : ℕ}

/-- A future that drops a permit it was granted hands it over. -/
theorem served_of_dropAcquire (h : Single s) (hj : Granted s.state j)
    (hstep : s.step (.dropAcquire j) = some t) (hi : i ∈ s.state.waiters) :
    Granted t.state i ∨ i ∈ t.state.waiters ∧
      t.state.waiters.idxOf i < s.state.waiters.idxOf i := by
  obtain ⟨b, hb, hgranted⟩ := hj
  have hnot := h.lone.sound.not_granted hb hgranted
  have hsteps := Semaphore.System.Steps.of_eq hstep
  cases hsteps with
  | @dropAcquire _ a ha =>
    obtain rfl : b = a := Option.some.inj (hb.symm.trans ha)
    have heq := dropAcquire_eq h.lone ha
    rw [if_pos hgranted] at heq
    have hserved := (h.lone.remove (i := j)).releaseLocked_served (i := i)
      (h.alone_of_granted ha hgranted).1
    simp only [List.erase_of_not_mem hnot] at hserved heq
    rw [heq]
    exact hserved hi

theorem served_of_dropPermit (h : Single s) (hstep : s.step (.dropPermit j) = some t)
    (hi : i ∈ s.state.waiters) : Granted t.state i ∨ i ∈ t.state.waiters ∧
      t.state.waiters.idxOf i < s.state.waiters.idxOf i := by
  have hsteps := Semaphore.System.Steps.of_eq hstep
  cases hsteps with
  | @dropPermit _ permits hj =>
    have hmem := List.mem_of_getElem? hj
    obtain rfl := h.held permits hmem
    exact h.lone.releaseLocked_served (h.alone_of_held (List.ne_nil_of_mem hmem)).1 hi

/-- Only its own end takes a waiter out of the list without the permit. -/
theorem advances {label : Semaphore.Label} (h : Single s) (hasks : Asks label)
    (hne : label ≠ .dropAcquire i) (hstep : s.step label = some t) (hi : i ∈ s.state.waiters) :
    Advances t.state i (s.state.waiters.idxOf i) := by
  have hsteps := Semaphore.System.Steps.of_eq hstep
  cases hasks with
  | acquire k =>
    cases hsteps with
    | acquireMany => exact .inr ⟨hi, le_rfl⟩
  | poll k proceed waker =>
    cases hsteps with
    | yield => exact .inr ⟨hi, le_rfl⟩
    | @poll _ _ a ha =>
      right
      have hpolled := Semaphore.State.polled s.state k a waker
      rcases hpair : s.state.poll k a waker with ⟨result, u⟩
      rw [hpair] at hpolled
      cases hpolled with
      | closed _ hclosed => simp [h.lone.opened] at hclosed
      | claim | acquire | wait => exact ⟨hi, le_rfl⟩
      | link =>
        refine ⟨List.mem_append_left [k] hi, ?_⟩
        rw [List.idxOf_append_of_mem hi]
  | dropAcquire k =>
    by_cases hk : Granted s.state k
    · exact (h.served_of_dropAcquire hk hstep hi).imp_right fun hless => ⟨hless.1, hless.2.le⟩
    · right
      have hik : i ≠ k := by
        rintro rfl
        exact hne rfl
      cases hsteps with
      | @dropAcquire _ a ha =>
        have heq := dropAcquire_eq h.lone ha
        rw [if_neg fun hgranted => hk ⟨a, ha, hgranted⟩] at heq
        rw [heq]
        have hmem : i ∈ s.state.waiters.erase k := (List.mem_erase_of_ne hik).mpr hi
        exact ⟨hmem, idxOf_le_of_sublist List.erase_sublist h.lone.sound.nodup hmem⟩
  | tryAcquire =>
    cases hsteps with
    | refused => exact .inr ⟨hi, le_rfl⟩
    | tryAcquireMany hnil => simp [hnil] at hi
  | dropPermit k =>
    exact (h.served_of_dropPermit hstep hi).imp_right fun hless => ⟨hless.1, hless.2.le⟩

/-- A granted future keeps the permit until it is polled or dropped. -/
theorem granted {label : Semaphore.Label} (h : Single s) (hasks : Asks label)
    (hpoll : ∀ waker, label ≠ .poll j true waker) (hdrop : label ≠ .dropAcquire j)
    (hstep : s.step label = some t) (hj : Granted s.state j) : Granted t.state j := by
  obtain ⟨b, hb, hgranted⟩ := hj
  have hsteps := Semaphore.System.Steps.of_eq hstep
  cases hasks with
  | acquire k =>
    cases hsteps with
    | acquireMany hvacant =>
      refine ⟨b, ?_, hgranted⟩
      have hne : j ≠ k := by
        rintro rfl
        have := hvacant.2
        simp [hb] at this
      simp [Slab.get_insert hvacant, hne, hb]
  | poll k proceed waker =>
    cases hsteps with
    | yield => exact ⟨b, hb, hgranted⟩
    | @poll _ _ a ha =>
      have hne : j ≠ k := by
        rintro rfl
        exact hpoll waker rfl
      have hpolled := Semaphore.State.polled s.state k a waker
      rcases hpair : s.state.poll k a waker with ⟨result, u⟩
      rw [hpair] at hpolled
      cases hpolled with
      | claim | wait | link => exact ⟨b, by simp [hne, hb], hgranted⟩
      | closed | acquire => exact ⟨b, hb, hgranted⟩
  | dropAcquire k =>
    cases hsteps with
    | @dropAcquire _ a ha =>
      have hne : j ≠ k := by
        rintro rfl
        exact hdrop rfl
      have hkept : Granted { s.state with
          waiters := s.state.waiters.erase k
          acquires := s.state.acquires.remove k } j := ⟨b, by simp [hne, hb], hgranted⟩
      have heq := dropAcquire_eq h.lone ha
      split_ifs at heq with hk
      · rw [heq]
        exact h.lone.remove.releaseLocked_granted (h.alone_of_granted ha hk).1 hkept
      · rw [heq]
        exact hkept
  | tryAcquire =>
    cases hsteps with
    | refused | tryAcquireMany => exact ⟨b, hb, hgranted⟩
  | dropPermit k =>
    cases hsteps with
    | dropPermit hk =>
      have hheld := (h.alone_of_granted hb hgranted).2
      simp [hheld] at hk

end Single

namespace State
variable {s t : State T} {i j : ℕ}

def Claims (j : ℕ) : Label T → Prop
  | .poll i proceed _ => i = j ∧ proceed = true
  | .dropLock i => i = j
  | .lock _ | .tryLock | .read _ | .write _ _ | .dropGuard _ | .getMut _ => False

def Unlocks : Label T → Prop
  | .dropGuard _ => True
  | .poll _ _ _ | .dropLock _ | .lock _ | .tryLock | .read _ | .write _ _ | .getMut _ => False

variable {label : Label T}

theorem of_semaphore {P : Semaphore.System → Prop} (h : Single s.semaphore)
    (hstep : s.step label = some t) (hbase : P s.semaphore)
    (hpoll : ∀ i proceed waker, label = .poll i proceed waker → PollMoves s i waker proceed t →
      P t.semaphore)
    (hdrop : ∀ i, label = .dropLock i → s.semaphore.step (.dropAcquire i) = some t.semaphore →
      P t.semaphore)
    (hkeep : ∀ asked, Asks asked → (∀ i, asked ≠ .dropAcquire i) →
      (∀ i proceed waker, asked ≠ .poll i proceed waker) →
      s.semaphore.step asked = some t.semaphore → P t.semaphore) : P t.semaphore := by
  cases label with
  | lock i =>
    obtain ⟨semaphore, hsemaphore, rfl⟩ := Option.map_eq_some_iff.mp hstep
    apply hkeep _ (.acquire i) _ _ hsemaphore <;> simp
  | poll i proceed waker => exact hpoll i proceed waker rfl (pollMoves h hstep)
  | dropLock i =>
    obtain ⟨semaphore, hsemaphore, rfl⟩ := Option.map_eq_some_iff.mp hstep
    exact hdrop i rfl hsemaphore
  | tryLock =>
    obtain ⟨semaphore, hsemaphore, rfl⟩ := Option.map_eq_some_iff.mp hstep
    split_ifs at hkeep ⊢ <;> apply hkeep _ .tryAcquire _ _ hsemaphore <;> simp
  | read j =>
    simp only [step] at hstep
    split_ifs at hstep
    cases hstep
    exact hbase
  | write j f =>
    obtain ⟨v, -, rfl⟩ := Option.map_eq_some_iff.mp hstep
    exact hbase
  | dropGuard j =>
    simp only [step] at hstep
    split_ifs at hstep
    obtain ⟨semaphore, hsemaphore, rfl⟩ := Option.map_eq_some_iff.mp hstep
    apply hkeep _ (.dropPermit j) _ _ hsemaphore <;> simp
  | getMut f =>
    simp only [step] at hstep
    split_ifs at hstep
    cases hstep
    exact hbase

/-- A waiting future is dropped, or it comes forward. -/
theorem waits_step (h : Single s.semaphore) (hstep : s.step label = some t)
    (hi : i ∈ s.semaphore.state.waiters) : label = .dropLock i ∨
      Advances t.semaphore.state i (s.semaphore.state.waiters.idxOf i) := by
  by_cases hlabel : label = .dropLock i
  · exact .inl hlabel
  · right
    apply of_semaphore (P := fun semaphore => Advances semaphore.state i
      (s.semaphore.state.waiters.idxOf i)) h hstep
    · exact .inr ⟨hi, le_rfl⟩
    · intro k proceed waker _ hmoves
      cases hmoves with
      | waited hpoll => exact h.advances (.poll k proceed waker) (by simp) hpoll hi
      | @locked a permits middle semaphore ha hresult hpoll _ hdropped =>
        have hik : i ≠ k := by
          rintro rfl
          have hpolled := Semaphore.State.polled s.semaphore.state i a waker
          rcases hpair : s.semaphore.state.poll i a waker with ⟨result, u⟩
          rw [hpair] at hpolled hresult
          cases hpolled with
          | claim hgranted => exact h.lone.sound.not_granted ha hgranted hi
          | acquire _ _ hnil => simp [hnil] at hi
          | closed | wait | link => cases hresult
        have hmiddle := h.step (.poll k true waker) hpoll
        rcases h.advances (.poll k true waker) (by simp) hpoll hi with hgranted | ⟨hwaits, hle⟩
        · left
          apply hmiddle.granted (.dropAcquire k) (by simp) _ hdropped hgranted
          simpa using hik.symm
        · apply Advances.mono _ hle
          exact hmiddle.advances (.dropAcquire k) (by simpa using hik.symm) hdropped hwaits
    · intro k hk hdropped
      apply h.advances (.dropAcquire k) _ hdropped hi
      rintro ⟨⟩
      exact hlabel hk
    · intro asked hasks hdrop _ hasked
      exact h.advances hasks (hdrop i) hasked hi

/-- A granted future is polled or dropped, or it stays granted. -/
theorem granted_step (h : Single s.semaphore) (hstep : s.step label = some t)
    (hj : Granted s.semaphore.state j) : Claims j label ∨ Granted t.semaphore.state j := by
  by_cases hlabel : Claims j label
  · exact .inl hlabel
  · right
    apply of_semaphore (P := fun semaphore => Granted semaphore.state j) h hstep hj
    · rintro k proceed waker rfl hmoves
      have hne : ∀ w, Semaphore.Label.poll k proceed waker ≠ .poll j true w := by
        rintro w ⟨⟩
        exact hlabel ⟨rfl, rfl⟩
      cases hmoves with
      | waited hpoll => exact h.granted (.poll k proceed waker) hne (by simp) hpoll hj
      | locked ha _ hpoll _ hdropped =>
        have hmiddle := h.step (.poll k true waker) hpoll
        apply hmiddle.granted (.dropAcquire k) (by simp) _ hdropped
        · exact h.granted (.poll k true waker) hne (by simp) hpoll hj
        · rintro ⟨⟩
          exact hlabel ⟨rfl, rfl⟩
    · rintro k rfl hdropped
      apply h.granted (.dropAcquire k) (by simp) _ hdropped hj
      rintro ⟨⟩
      exact hlabel rfl
    · intro asked hasks hdrop hpoll hasked
      exact h.granted hasks (hpoll j true) (hdrop j) hasked hj

/-- A guard lives until it is dropped. -/
theorem guards_step (hstep : s.step label = some t) (hlabel : ¬ Unlocks label)
    (hguards : s.guards ≠ []) : t.guards ≠ [] := by
  cases label with
  | lock i =>
    obtain ⟨semaphore, -, rfl⟩ := Option.map_eq_some_iff.mp hstep
    exact hguards
  | poll i proceed waker =>
    obtain ⟨a, -, hstep⟩ := Option.bind_eq_some_iff.mp hstep
    obtain ⟨semaphore, -, hfinish⟩ := Option.bind_eq_some_iff.mp hstep
    unfold finish at hfinish
    split at hfinish
    · cases hfinish
      exact hguards
    · obtain ⟨dropped, -, rfl⟩ := Option.map_eq_some_iff.mp hfinish
      exact hguards
    · obtain ⟨dropped, -, rfl⟩ := Option.map_eq_some_iff.mp hfinish
      simp
  | dropLock i =>
    obtain ⟨semaphore, -, rfl⟩ := Option.map_eq_some_iff.mp hstep
    exact hguards
  | tryLock =>
    obtain ⟨semaphore, -, rfl⟩ := Option.map_eq_some_iff.mp hstep
    split_ifs
    · simp
    · exact hguards
  | read j =>
    simp only [step] at hstep
    split_ifs at hstep
    cases hstep
    simpa using hguards
  | write j f =>
    obtain ⟨v, -, rfl⟩ := Option.map_eq_some_iff.mp hstep
    simpa using hguards
  | dropGuard j => exact absurd trivial hlabel
  | getMut f =>
    simp only [step] at hstep
    split_ifs at hstep with hfree
    exact absurd hfree.1 hguards

theorem locks_of_granted {waker : ℕ} (h : Single s.semaphore)
    (hstep : s.step (.poll j true waker) = some t) (hj : Granted s.semaphore.state j) :
    t.guards = s.guards ++ [none] ∧ t.semaphore.state.acquires.get j = none := by
  obtain ⟨a, ha, hgranted⟩ := hj
  have hmoves := pollMoves h hstep
  cases hmoves with
  | waited hpoll hheld =>
    have hsteps := Semaphore.System.Steps.of_eq hpoll
    cases hsteps with
    | @poll _ _ b hb =>
      obtain rfl : a = b := Option.some.inj (ha.symm.trans hb)
      simp [Semaphore.State.poll, hgranted] at hheld
  | @locked _ permits middle semaphore _ _ hpoll hheld hdropped =>
    refine ⟨rfl, ?_⟩
    have hmiddle := h.step (.poll j true waker) hpoll
    have hsteps := Semaphore.System.Steps.of_eq hdropped
    cases hsteps with
    | @dropAcquire _ b hb =>
      have hkept : b.granted ≠ true := fun hgranted => by
        have hnil := (hmiddle.alone_of_granted hb hgranted).2
        simp [hheld] at hnil
      have heq := Single.dropAcquire_eq hmiddle.lone hb
      rw [if_neg hkept] at heq
      simp [heq]

/-- The waiter in front has gone, or the permit has come. -/
def Forward (t : State T) (i place : ℕ) : Prop :=
  Granted t.semaphore.state i ∨ i ∈ t.semaphore.state.waiters ∧
    t.semaphore.state.waiters.idxOf i < place

theorem forward_of_unlocks (h : Single s.semaphore)
    (hstep : s.step label = some t) (hlabel : Unlocks label)
    (hi : i ∈ s.semaphore.state.waiters) : Forward t i (s.semaphore.state.waiters.idxOf i) := by
  cases label with
  | dropGuard j =>
    simp only [step] at hstep
    split_ifs at hstep
    obtain ⟨semaphore, hsemaphore, rfl⟩ := Option.map_eq_some_iff.mp hstep
    exact h.served_of_dropPermit hsemaphore hi
  | lock | poll | dropLock | tryLock | read | write | getMut => exact absurd hlabel id

theorem forward_of_dropLock (h : Single s.semaphore) (hstep : s.step (.dropLock j) = some t)
    (hj : Granted s.semaphore.state j) (hi : i ∈ s.semaphore.state.waiters) :
    Forward t i (s.semaphore.state.waiters.idxOf i) := by
  obtain ⟨semaphore, hsemaphore, rfl⟩ := Option.map_eq_some_iff.mp hstep
  exact h.served_of_dropAcquire hj hsemaphore hi

/-- The future is dropped at this moment, or locks the mutex. -/
def Settles (ρ : ℕ → State T) (act : ℕ → Option (Label T)) (i m : ℕ) : Prop :=
  act m = some (.dropLock i) ∨ (∃ waker, act m = some (.poll i true waker)) ∧
    (ρ (m + 1)).guards = [none] ∧ (ρ (m + 1)).semaphore.state.acquires.get i = none

/-- A future that waits with at most this many in front of it. -/
def WaitsAt (s : State T) (i place : ℕ) : Prop :=
  i ∈ s.semaphore.state.waiters ∧ s.semaphore.state.waiters.idxOf i ≤ place

/-- Guards are dropped, and granted futures are polled or dropped. -/
structure FairRun (init : T) (ρ : ℕ → State T) (act : ℕ → Option (Label T)) : Prop where
  runs : Runs State.step ρ act
  first : ρ 0 = .new init
  unlocked : Fair Unlocks (fun s => s.guards ≠ []) ρ act
  claimed : ∀ i, Fair (Claims i) (fun s => Granted s.semaphore.state i) ρ act

namespace FairRun
variable {ρ : ℕ → State T} {act : ℕ → Option (Label T)} {init : T} {n place : ℕ}

theorem sound (h : FairRun init ρ act) (n : ℕ) : (ρ n).Sound init := by
  apply h.runs.invariant (I := fun s => s.Sound init)
  · rw [h.first]
    exact .new init
  · intro n a _ hsound hstep
    exact hsound.step (moves hsound.single hstep)

theorem step_of_act (h : FairRun init ρ act) {label : Label T} (hact : act n = some label) :
    (ρ n).step label = some (ρ (n + 1)) := by
  have hmoment := h.runs n
  rw [hact] at hmoment
  exact hmoment

/-- What every step keeps unless the thread acts is kept by every moment. -/
theorem next (h : FairRun init ρ act) {own : Label T → Prop} {P : State T → Prop}
    (hkeep : ∀ label, (ρ n).step label = some (ρ (n + 1)) → own label ∨ P (ρ (n + 1)))
    (hP : P (ρ n)) (hidle : ¬ Acts own act n) : P (ρ (n + 1)) := by
  cases hact : act n with
  | none =>
    have hmoment := h.runs n
    rw [hact] at hmoment
    rw [show ρ (n + 1) = ρ n from hmoment]
    exact hP
  | some label =>
    exact (hkeep label (h.step_of_act hact)).resolve_left fun hown => hidle ⟨label, hact, hown⟩

theorem granted_next (h : FairRun init ρ act) (hgranted : Granted (ρ n).semaphore.state j)
    (hidle : ¬ Acts (Claims j) act n) : Granted (ρ (n + 1)).semaphore.state j :=
  h.next (P := fun s => Granted s.semaphore.state j)
    (fun _ hstep => granted_step (h.sound n).single hstep hgranted) hgranted hidle

theorem guards_next (h : FairRun init ρ act) (hguards : (ρ n).guards ≠ [])
    (hidle : ¬ Acts Unlocks act n) : (ρ (n + 1)).guards ≠ [] := by
  apply h.next (P := fun s => s.guards ≠ []) _ hguards hidle
  intro label hstep
  by_cases hlabel : Unlocks label
  · exact .inl hlabel
  · exact .inr (guards_step hstep hlabel hguards)

theorem settles_of_claims (h : FairRun init ρ act) (hgranted : Granted (ρ n).semaphore.state i)
    (hacts : Acts (Claims i) act n) : Settles ρ act i n := by
  obtain ⟨label, hlabel, hclaims⟩ := hacts
  have hstep := h.step_of_act hlabel
  have hsound := h.sound n
  cases label with
  | poll k proceed waker =>
    obtain ⟨rfl, rfl⟩ := hclaims
    right
    obtain ⟨a, ha, htrue⟩ := hgranted
    have hheld := (hsound.single.alone_of_granted ha htrue).2
    have hguards : (ρ n).guards = [] := by
      rw [← List.length_eq_zero_iff, hsound.guards, hheld, List.length_nil]
    have hlocks := locks_of_granted hsound.single hstep ⟨a, ha, htrue⟩
    rw [hguards, List.nil_append] at hlocks
    exact ⟨⟨waker, hlabel⟩, hlocks⟩
  | dropLock k =>
    obtain rfl := hclaims
    exact .inl hlabel
  | lock | tryLock | read | write | dropGuard | getMut => exact absurd hclaims id

/-- A granted future claims the permit at last. -/
theorem granted_settles (h : FairRun init ρ act) (hgranted : Granted (ρ n).semaphore.state i) :
    ∃ m, n ≤ m ∧ Settles ρ act i m := by
  have hevent := exists_act (P := fun n => Granted (ρ n).semaphore.state i)
    (Q := fun _ => False) (h.claimed i) (fun n hP => hP)
    (fun n hP hidle => .inr (h.granted_next hP hidle)) hgranted
  rcases hevent with ⟨m, -, hfalse⟩ | ⟨m, hm, hP, hacts⟩
  · exact absurd hfalse id
  · exact ⟨m, hm, h.settles_of_claims hP hacts⟩

/-- A waiter comes forward at every moment, unless it is dropped. -/
theorem waits_next (h : FairRun init ρ act) (hwaits : WaitsAt (ρ n) i place) :
    Settles ρ act i n ∨ Granted (ρ (n + 1)).semaphore.state i ∨ WaitsAt (ρ (n + 1)) i place := by
  cases hact : act n with
  | none =>
    have hmoment := h.runs n
    rw [hact] at hmoment
    rw [show ρ (n + 1) = ρ n from hmoment]
    exact .inr (.inr hwaits)
  | some label =>
    rcases waits_step (h.sound n).single (h.step_of_act hact) hwaits.1 with rfl | hadvances
    · exact .inl (.inl hact)
    · exact .inr (hadvances.mono hwaits.2)

theorem unlocks_settles (h : FairRun init ρ act)
    (hforward : ∀ m, n ≤ m → Forward (ρ m) i place → ∃ l, n ≤ l ∧ Settles ρ act i l)
    (hwaits : WaitsAt (ρ n) i place) (hguards : (ρ n).guards ≠ []) :
    ∃ l, n ≤ l ∧ Settles ρ act i l := by
  have hevent := exists_act (n := n)
    (P := fun m => n ≤ m ∧ WaitsAt (ρ m) i place ∧ (ρ m).guards ≠ [])
    (Q := fun _ => ∃ l, n ≤ l ∧ Settles ρ act i l) h.unlocked (fun m hP => hP.2.2)
    (fun m hP hidle => ?_) ⟨le_rfl, hwaits, hguards⟩
  · rcases hevent with ⟨-, -, hsettles⟩ | ⟨m, hm, ⟨-, hwaits, -⟩, hacts⟩
    · exact hsettles
    · obtain ⟨label, hlabel, hunlocks⟩ := hacts
      apply hforward (m + 1) (Nat.le_succ_of_le hm)
      have hstep := h.step_of_act hlabel
      have hforwarded := forward_of_unlocks (h.sound m).single hstep hunlocks hwaits.1
      exact hforwarded.imp_right fun hless => ⟨hless.1, hless.2.trans_le hwaits.2⟩
  · obtain ⟨hm, hwaits, hguards⟩ := hP
    rcases h.waits_next hwaits with hsettles | hgranted | hnext
    · exact .inl ⟨m, hm, hsettles⟩
    · left
      obtain ⟨l, hl, hsettles⟩ := h.granted_settles hgranted
      exact ⟨l, by omega, hsettles⟩
    · exact .inr ⟨Nat.le_succ_of_le hm, hnext, h.guards_next hguards hidle⟩

/-- The granted future in front of a waiter is polled or dropped at last. -/
theorem claims_settles (h : FairRun init ρ act)
    (hforward : ∀ m, n ≤ m → Forward (ρ m) i place → ∃ l, n ≤ l ∧ Settles ρ act i l)
    (hguarded : ∀ m, n ≤ m → WaitsAt (ρ m) i place → (ρ m).guards ≠ [] →
      ∃ l, n ≤ l ∧ Settles ρ act i l)
    (hwaits : WaitsAt (ρ n) i place) (hgranted : Granted (ρ n).semaphore.state j) :
    ∃ l, n ≤ l ∧ Settles ρ act i l := by
  have hevent := exists_act (n := n)
    (P := fun m => n ≤ m ∧ WaitsAt (ρ m) i place ∧ Granted (ρ m).semaphore.state j)
    (Q := fun _ => ∃ l, n ≤ l ∧ Settles ρ act i l) (h.claimed j) (fun m hP => hP.2.2)
    (fun m hP hidle => ?_) ⟨le_rfl, hwaits, hgranted⟩
  · rcases hevent with ⟨-, -, hsettles⟩ | ⟨m, hm, ⟨-, hwaits, hgranted⟩, hacts⟩
    · exact hsettles
    · have hsettled := h.settles_of_claims hgranted hacts
      rcases hsettled with hdrop | ⟨-, hguards, -⟩
      · apply hforward (m + 1) (Nat.le_succ_of_le hm)
        have hstep := h.step_of_act hdrop
        have hforwarded := forward_of_dropLock (h.sound m).single hstep hgranted hwaits.1
        exact hforwarded.imp_right fun hless => ⟨hless.1, hless.2.trans_le hwaits.2⟩
      · rcases h.waits_next hwaits with hsettles | hgranted | hnext
        · exact ⟨m, hm, hsettles⟩
        · exact hforward (m + 1) (Nat.le_succ_of_le hm) (.inl hgranted)
        · apply hguarded (m + 1) (Nat.le_succ_of_le hm) hnext
          simp [hguards]
  · obtain ⟨hm, hwaits, hgranted⟩ := hP
    rcases h.waits_next hwaits with hsettles | hnow | hnext
    · exact .inl ⟨m, hm, hsettles⟩
    · exact .inl (hforward (m + 1) (Nat.le_succ_of_le hm) (.inl hnow))
    · exact .inr ⟨Nat.le_succ_of_le hm, hnext, h.granted_next hgranted hidle⟩

theorem waits_settles (h : FairRun init ρ act) (hwaits : WaitsAt (ρ n) i place) :
    ∃ m, n ≤ m ∧ Settles ρ act i m := by
  induction place using Nat.strong_induction_on generalizing n with
  | _ place ih =>
    have hforward : ∀ k m, k ≤ m → Forward (ρ m) i place → ∃ l, k ≤ l ∧ Settles ρ act i l := by
      intro k m hm hforward
      rcases hforward with hgranted | ⟨hi, hlt⟩
      · obtain ⟨l, hl, hsettles⟩ := h.granted_settles hgranted
        exact ⟨l, hm.trans hl, hsettles⟩
      · obtain ⟨l, hl, hsettles⟩ := ih _ hlt ⟨hi, le_rfl⟩
        exact ⟨l, hm.trans hl, hsettles⟩
    have hguarded : ∀ m, n ≤ m → WaitsAt (ρ m) i place → (ρ m).guards ≠ [] →
        ∃ l, n ≤ l ∧ Settles ρ act i l := by
      intro m hm hwaits hguards
      obtain ⟨l, hl, hsettles⟩ := h.unlocks_settles (hforward m) hwaits hguards
      exact ⟨l, hm.trans hl, hsettles⟩
    rcases (h.sound n).single.served (List.ne_nil_of_mem hwaits.1) with hheld | ⟨j, a, ha, htrue⟩
    · apply hguarded n le_rfl hwaits
      rintro hnil
      apply hheld
      rw [← List.length_eq_zero_iff, ← (h.sound n).guards, hnil, List.length_nil]
    · exact h.claims_settles (hforward n) hguarded hwaits ⟨a, ha, htrue⟩

end FairRun

/-- In a fair run every waiting future locks the mutex at last, unless it is dropped. -/
theorem lock_settles {ρ : ℕ → State T} {act : ℕ → Option (Label T)} {init : T}
    (h : FairRun init ρ act) {n : ℕ} (hi : i ∈ (ρ n).semaphore.state.waiters) :
    ∃ m, n ≤ m ∧ Settles ρ act i m :=
  h.waits_settles ⟨hi, le_rfl⟩

/-- The second future waits for the guard of the first. -/
theorem lock_settles_second : ∃ (ρ : ℕ → State ℕ) (act : ℕ → Option (Label ℕ)), FairRun 0 ρ act ∧
    1 ∈ (ρ 4).semaphore.state.waiters ∧ ∃ m, 4 ≤ m ∧ Settles ρ act 1 m := by
  let waiting : List (Label ℕ) := [.lock 0, .lock 1, .poll 0 true 7, .poll 1 true 8]
  let ending : List (Label ℕ) := [.dropGuard 0, .poll 1 true 8, .dropGuard 0]
  have hrun : (run step (.new 0) waiting).any (fun s => decide (1 ∈ s.semaphore.state.waiters) &&
      (run step s ending).any fun t => decide (t.guards = []) &&
        decide (∀ a ∈ t.semaphore.state.acquires.slots, a = none)) = true := by
    decide +kernel
  obtain ⟨s, hs, hcheck⟩ := (Option.any_eq_true _ _).mp hrun
  rw [Bool.and_eq_true] at hcheck
  obtain ⟨t, ht, hend⟩ := (Option.any_eq_true _ _).mp hcheck.2
  rw [Bool.and_eq_true] at hend
  obtain ⟨ρ, act, hfirst, hruns, hmiddle, hlast⟩ := exists_runs_through hs ht
  have hlater : ∀ n, ∃ m, n ≤ m ∧ ρ m = t := fun n =>
    ⟨max n 7, Nat.le_max_left n 7, hlast _ (Nat.le_max_right n 7)⟩
  have hfair : FairRun 0 ρ act := by
    refine ⟨hruns, hfirst, fun n hready => ?_, fun i n hready => ?_⟩
    all_goals
      obtain ⟨m, hm, heq⟩ := hlater n
      have hbusy := hready m hm
      rw [heq] at hbusy
    · exact absurd (of_decide_eq_true hend.1) hbusy
    · obtain ⟨a, ha, -⟩ := hbusy
      have hmem := List.mem_of_getElem? (Option.join_eq_some_iff.mp ha)
      have hnone := of_decide_eq_true hend.2 _ hmem
      cases hnone
  have hwaits : 1 ∈ (ρ 4).semaphore.state.waiters := by
    rw [show ρ 4 = s from hmiddle]
    exact of_decide_eq_true hcheck.1
  exact ⟨ρ, act, hfair, hwaits, lock_settles hfair hwaits⟩

end State
end Eddy.Mutex
