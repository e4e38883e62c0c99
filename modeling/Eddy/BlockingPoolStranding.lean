import Eddy.BlockingPoolSteps

/-!
# No job is stranded

In an open pool some thread will look at a queue that is not empty, as long as no call of `submit`
counts on a thread that has looked for the last time, and the last thread to look at a queue with
jobs neither dies nor fails to start.
-/

namespace Eddy.BlockingPool
open Interleaving

def Thread.looks : Thread → ℕ
  | .leaves | .exited | .died _ => 0
  | _ => 1

namespace State

/-- The threads that will look at the queue again, and those about to be spawned. -/
def lookers (s : State) : ℕ := total Thread.looks s.threads + total Caller.spawning s.callers

/-- A job is queued in the open pool, every submit is over, and no thread will look again. -/
def Stranded (s : State) : Prop :=
  s.closed = false ∧ s.jobs ≠ [] ∧ (∀ caller ∈ s.callers, caller.over = true) ∧
    ∀ thread ∈ s.threads, thread.looks = 0

instance (s : State) : Decidable s.Stranded := inferInstanceAs (Decidable (_ ∧ _ ∧ _ ∧ _))

/-- One of those that will look at the queue can be done without. -/
def Spared (s : State) : Prop := s.closed = true ∨ s.jobs = [] ∨ 1 < s.lookers

instance (s : State) : Decidable s.Spared := inferInstanceAs (Decidable (_ ∨ _ ∨ _))

/-- A submit that finds no idle thread at the cap finds a thread that will look again, and who fails
to start or dies can be done without. -/
def CapAttended (s : State) : Label → Prop
  | .caller i panics =>
    (s.callers[i]?.any Caller.entering = true → s.closed = false → s.idle = 0 →
      s.numThreads = s.maxThreads → 0 < s.lookers) ∧
    (panics = true → s.callers[i]? = some .spawns → s.Spared)
  | .thread i panics => panics = true → s.threads[i]?.any Thread.finishing = true → s.Spared
  | _ => True

instance (s : State) : (l : Label) → Decidable (s.CapAttended l)
  | .caller _ _ => inferInstanceAs (Decidable ((_ → _ → _ → _ → _) ∧ (_ → _ → _)))
  | .thread _ _ => inferInstanceAs (Decidable (_ → _ → _))
  | .submit | .notify _ _ | .wake _ _ | .shutdown | .closing _ | .abort _ => .isTrue trivial

/-- Who looks at the queue while there is a job in it. -/
def Attended (s : State) : Prop := s.closed = true ∨ s.jobs = [] ∨ 0 < s.lookers

variable {s t : State}

theorem lookers_pos_of_thread {i : ℕ} {p q : Thread} (hi : s.threads[i]? = some p)
    (hthreads : t.threads = s.threads.set i q) (hq : q.looks = 1) : 0 < t.lookers := by
  have hset := total_set Thread.looks hi q
  have hle := le_total Thread.looks hi
  rw [← hthreads] at hset
  rw [lookers]
  omega

theorem lookers_pos_of_idle (h : Accounts s) (hidle : s.idle ≠ 0) : 0 < s.lookers := by
  have hle : total Thread.idles s.threads ≤ total Thread.looks s.threads := by
    apply total_mono
    intro p
    cases p <;> simp [Thread.idles, Thread.looks]
  have := h.idle
  rw [lookers]
  omega

theorem lookers_setCaller {i : ℕ} {p q : Caller} (hi : s.callers[i]? = some p)
    (hcallers : t.callers = s.callers.set i q) (hthreads : t.threads = s.threads)
    (hspawning : p.spawning = q.spawning) : t.lookers = s.lookers := by
  have hset := total_set Caller.spawning hi q
  rw [← hcallers] at hset
  rw [lookers, lookers, hthreads]
  omega

/-- One of those that will look is lost. -/
theorem Spared.attended (h : s.Spared) (hclosed : t.closed = s.closed) (hjobs : t.jobs = s.jobs)
    (hlookers : s.lookers ≤ t.lookers + 1) : t.Attended := by
  obtain h | h | h := h
  · exact .inl (hclosed.trans h)
  · exact .inr (.inl (hjobs.trans h))
  · exact .inr (.inr (by omega))

theorem Attended.congr (h : s.Attended) (hclosed : t.closed = s.closed) (hjobs : t.jobs = s.jobs)
    (hlookers : t.lookers = s.lookers) : t.Attended := by
  rw [Attended, hclosed, hjobs, hlookers]
  exact h

theorem Attended.step {l : Label} (h : s.Attended) (haccounts : Accounts s)
    (hguard : s.CapAttended l) (hstep : s.step l = some t) : t.Attended := by
  cases step_takes hstep with
  | submit => exact h.congr rfl rfl (by simp [lookers, Caller.spawning])
  | reject _ hclosed => exact .inl hclosed
  | @enqueue i job panics hi hopen hno =>
    have hsame := lookers_setCaller
      (t := { s with jobs := s.jobs ++ [job] }.setCaller i (.notifies false))
      (q := .notifies false) hi rfl rfl rfl
    refine .inr (.inr (Nat.lt_of_lt_of_eq ?_ hsame.symm))
    by_cases hidle : s.idle = 0
    · have hcap := haccounts.cap
      exact hguard.1 (by rw [hi]; rfl) hopen hidle (by omega)
    · exact lookers_pos_of_idle haccounts hidle
  | enqueueSpawn hi =>
    refine .inr (.inr ?_)
    have hset := total_set Caller.spawning hi (.notifies true)
    change _ + 0 = _ + 1 at hset
    simp only [lookers, State.setCaller]
    omega
  | cancelTask hi | push hi => exact h.congr rfl rfl (lookers_setCaller hi rfl rfl rfl)
  | callerPoll hi =>
    exact h.congr rfl rfl (lookers_setCaller hi rfl rfl (Next.caller_spawning _).symm)
  | unspawned hi =>
    refine (hguard.2 rfl hi).attended rfl rfl ?_
    have hset := total_set Caller.spawning hi .unspawned
    simp only [lookers, State.setCaller, Caller.spawning] at hset ⊢
    omega
  | spawn hi =>
    refine .inr (.inr ?_)
    simp only [lookers, State.setCaller, total_append, total_cons, total_nil, Thread.looks]
    omega
  | notify hi ht =>
    refine .inr (.inr ?_)
    exact lookers_pos_of_thread ht rfl rfl
  | notifyNone hi => exact h.congr rfl rfl (lookers_setCaller hi rfl rfl (spawning_notified _))
  | pop hi | relock hi | wake hi => exact .inr (.inr (lookers_pos_of_thread hi rfl rfl))
  | leaveClosed _ _ hclosed => exact .inl hclosed
  | wait _ hjobs | relockLeave _ hjobs => exact .inr (.inl hjobs)
  | @threadPoll i p panics task hi htask =>
    cases hnext : (task.poll panics p).2 with
    | unwinds lost =>
      obtain ⟨rfl, hfinishing⟩ := finishing_of_unwinds hnext
      refine (hguard rfl (by rw [hi]; exact hfinishing)).attended rfl rfl ?_
      have hset := total_set Thread.looks hi (.died lost)
      simp only [lookers, State.setThread, State.setTask, Next.thread, Thread.looks] at hset ⊢
      omega
    | goes q | done => exact .inr (.inr (lookers_pos_of_thread hi rfl rfl))
  | exit hi =>
    have hset := total_set Thread.looks hi .exited
    refine h.congr rfl rfl ?_
    simp only [lookers, State.setThread, Thread.looks] at hset ⊢
    omega
  | close => exact .inl rfl
  | drain => exact .inr (.inl rfl)
  | notifyAll =>
    have hlooks := total_notifyAll (w := Thread.looks) rfl s
    exact h.congr rfl rfl (congrArg (· + total Caller.spawning s.callers) hlooks)
  | _ => exact h.congr rfl rfl rfl

theorem attended_of_reachable {maxThreads : ℕ}
    (h : Reachable State.step State.CapAttended (.init maxThreads) s) :
    Accounts s ∧ s.Attended := by
  refine h.invariant (I := fun s => Accounts s ∧ s.Attended)
    ⟨Accounts.init maxThreads, .inr (.inl rfl)⟩ ?_
  rintro s l t ⟨haccounts, hattended⟩ hguard hstep
  exact ⟨haccounts.step hstep, hattended.step haccounts hguard hstep⟩

theorem Attended.not_stranded (h : s.Attended) : ¬ s.Stranded := by
  rintro ⟨hopen, hjobs, hcallers, hthreads⟩
  obtain hclosed | hempty | hlookers := h
  · exact Bool.false_ne_true (hopen.symm.trans hclosed)
  · exact hjobs hempty
  · have hlooks : total Thread.looks s.threads = 0 := total_eq_zero_iff.mpr hthreads
    have hspawning : total Caller.spawning s.callers = 0 :=
      total_eq_zero_iff.mpr fun caller hc => Caller.spawning_of_over (hcallers caller hc)
    rw [lookers] at hlookers
    omega

end State

/-- A thread that waited in vain leaves the queue and is still counted when a job arrives. -/
def strandingRun : List Label :=
  [.submit, .caller 0 false, .notify 0 none, .caller 0 false, .caller 0 false, .thread 0 false,
    .thread 0 false, .thread 0 false, .thread 0 false, .thread 0 false, .wake 0 true,
    .thread 0 false, .submit, .caller 1 false, .notify 1 none, .thread 0 false]

/-- While every submit at the cap finds a thread that will look again, and no thread is lost that
alone would look at a job, no job is stranded. -/
theorem no_job_stranded {maxThreads : ℕ} {s : State}
    (h : Reachable State.step State.CapAttended (.init maxThreads) s) : ¬ s.Stranded :=
  (State.attended_of_reachable h).2.not_stranded

/-- The second job waits for the thread that runs the first. -/
theorem no_job_stranded_behind_running :
    ∃ s, Reachable State.step State.CapAttended (.init 1) s ∧ s.jobs = [1] ∧ ¬ s.Stranded := by
  have hrun : (run (guarded State.step State.CapAttended) (.init 1) [.submit, .caller 0 false,
      .notify 0 none, .caller 0 false, .caller 0 false, .thread 0 false, .submit,
      .caller 1 false]).any (fun s => s.jobs = [1]) = true := by decide
  obtain ⟨s, hs, hjobs⟩ := exists_reachable_of_run hrun
  exact ⟨s, hs, by simpa using hjobs, no_job_stranded hs⟩

theorem stranded_at_cap :
    ¬ ∀ (maxThreads : ℕ) (s : State), 1 ≤ maxThreads →
      Reachable State.step anyStep (.init maxThreads) s → ¬ s.Stranded := by
  intro h
  have hrun : (run (guarded State.step anyStep) (.init 1) strandingRun).any
      (fun s => decide s.Stranded) = true := by decide
  obtain ⟨s, hs, hstranded⟩ := exists_reachable_of_run hrun
  exact h 1 s le_rfl hs (of_decide_eq_true hstranded)

end Eddy.BlockingPool
