import Eddy.BlockingPoolSteps

/-!
# Jobs run in parallel up to the cap

Every queued job has a thread of its own that waits, was woken or is new, or the pool is at its
cap, as long as no call of `submit` counts on a thread that another job counts on, or at the cap on
one that leaves or is gone, and no thread that keeps the pool full dies or fails to start.
-/

namespace Eddy.BlockingPool
open Interleaving

/-- The thread waits, was woken and does not run yet, or was newly spawned. -/
def Thread.available : Thread → ℕ
  | .waits | .woken _ | .top .spawned | .top .woken => 1
  | _ => 0

def Thread.leaving : Thread → ℕ
  | .leaves => 1
  | _ => 0

namespace State

def available (s : State) : ℕ := total Thread.available s.threads + total Caller.spawning s.callers

/-- The pool has all the threads it may have, and none is about to leave. -/
def Full (s : State) : Prop :=
  total Thread.live s.threads + total Caller.spawning s.callers = s.maxThreads ∧
    total Thread.leaving s.threads = 0

instance (s : State) : Decidable s.Full := inferInstanceAs (Decidable (_ ∧ _))

/-- A submit that spawns no thread finds one that no queued job counts on, or a full pool, and when
a thread dies or fails to start each queued job still has one. -/
def OwnThread (s : State) : Label → Prop
  | .caller i panics =>
    (s.callers[i]?.any Caller.entering = true → s.closed = false →
      s.idle ≠ 0 ∨ s.numThreads = s.maxThreads → s.jobs.length < s.available ∨ s.Full) ∧
    (panics = true → s.callers[i]? = some .spawns →
      s.closed = true ∨ s.jobs.length < s.available)
  | .thread i panics => panics = true → s.threads[i]?.any Thread.finishing = true →
    s.closed = true ∨ s.jobs.length ≤ s.available
  | _ => True

instance (s : State) : (l : Label) → Decidable (s.OwnThread l)
  | .caller _ _ =>
    inferInstanceAs (Decidable ((_ → _ → _ ∨ _ → _ ∨ _) ∧ (_ → _ → _ ∨ _)))
  | .thread _ _ => inferInstanceAs (Decidable (_ → _ → _ ∨ _))
  | .submit | .notify _ _ | .wake _ _ | .shutdown | .closing _ | .abort _ => .isTrue trivial

/-- The open pool has a thread for each queued job or is at its cap, once every submit is over. -/
def RunsInParallel (s : State) : Prop :=
  s.closed = false → (∀ caller ∈ s.callers, caller.over = true) →
    s.jobs.length ≤ total Thread.available s.threads ∨
      total Thread.live s.threads = s.maxThreads

instance (s : State) : Decidable s.RunsInParallel :=
  inferInstanceAs (Decidable (_ → _ → _ ∨ _))

def Served (s : State) : Prop := s.closed = true ∨ s.jobs.length ≤ s.available ∨ s.Full

variable {s t : State}

theorem Served.of_full (h : s.Served) (hclosed : t.closed = s.closed)
    (hlength : s.jobs.length ≤ s.available → t.jobs.length ≤ t.available)
    (hlive : total Thread.live t.threads + total Caller.spawning t.callers =
      total Thread.live s.threads + total Caller.spawning s.callers)
    (hmax : t.maxThreads = s.maxThreads)
    (hleaving : total Thread.leaving t.threads = total Thread.leaving s.threads) : t.Served := by
  obtain h | h | ⟨hcap, hnone⟩ := h
  · exact .inl (hclosed.trans h)
  · exact .inr (.inl (hlength h))
  · exact .inr (.inr ⟨by rw [hlive, hmax, hcap], by rw [hleaving, hnone]⟩)

/-- One thread goes on in the loop. -/
theorem Served.setThread (h : s.Served) {i : ℕ} {p q : Thread} (hi : s.threads[i]? = some p)
    (hthreads : t.threads = s.threads.set i q) (hcallers : t.callers = s.callers)
    (hclosed : t.closed = s.closed) (hlive : p.live = q.live)
    (hmax : t.maxThreads = s.maxThreads) (hleaving : p.leaving = q.leaving)
    (hlength : t.jobs.length + p.available ≤ s.jobs.length + q.available) : t.Served := by
  have havailable := total_set Thread.available hi q
  have hleave := total_set Thread.leaving hi q
  have halive := total_set Thread.live hi q
  rw [← hthreads] at havailable hleave halive
  apply h.of_full hclosed _ (by rw [hcallers]; omega) hmax (by omega)
  intro hle
  rw [available] at hle ⊢
  rw [hcallers]
  omega

theorem Served.setCaller (h : s.Served) {i : ℕ} {p q : Caller} (hi : s.callers[i]? = some p)
    (hcallers : t.callers = s.callers.set i q) (hthreads : t.threads = s.threads)
    (hclosed : t.closed = s.closed) (hmax : t.maxThreads = s.maxThreads) (hjobs : t.jobs = s.jobs)
    (hspawning : p.spawning = q.spawning) : t.Served := by
  have hset := total_set Caller.spawning hi q
  rw [← hcallers] at hset
  apply h.of_full hclosed _ (by rw [hthreads]; omega) hmax (by rw [hthreads])
  intro hle
  rw [available] at hle ⊢
  rw [hjobs, hthreads]
  omega

theorem Served.step {l : Label} (h : s.Served) (haccounts : Accounts s)
    (hguard : s.OwnThread l) (hstep : s.step l = some t) : t.Served := by
  cases step_takes hstep with
  | submit =>
    refine h.of_full rfl ?_ ?_ rfl rfl
    all_goals simp [available, Caller.spawning]
  | reject _ hclosed => exact .inl hclosed
  | @enqueue i job panics hi hopen hno =>
    have hset := total_set Caller.spawning hi (.notifies false)
    have hcap := haccounts.cap
    obtain hlt | hfull := hguard.1 (by rw [hi]; rfl) hopen (by omega)
    · refine .inr (.inl ?_)
      simp only [available, State.setCaller, List.length_append, List.length_singleton,
        Caller.spawning] at hlt hset ⊢
      omega
    · refine .inr (.inr ⟨?_, hfull.2⟩)
      have hlive := hfull.1
      simp only [State.setCaller, Caller.spawning] at hset ⊢
      omega
  | enqueueSpawn hi hopen hidle hcap =>
    have hset := total_set Caller.spawning hi (.notifies true)
    obtain hclosed | hle | hfull := h
    · exact .inl hclosed
    · refine .inr (.inl ?_)
      simp only [available, State.setCaller, List.length_append, List.length_singleton,
        Caller.spawning] at hle hset ⊢
      omega
    · have hlive := haccounts.live_le
      have hall := hfull.1
      omega
  | cancelTask hi | push hi => exact h.setCaller hi rfl rfl rfl rfl rfl rfl
  | callerPoll hi => exact h.setCaller hi rfl rfl rfl rfl rfl (Next.caller_spawning _).symm
  | unspawned hi =>
    have hset := total_set Caller.spawning hi .unspawned
    obtain hclosed | hlt := hguard.2 rfl hi
    · exact .inl hclosed
    · refine .inr (.inl ?_)
      simp only [available, State.setCaller, Caller.spawning] at hlt hset ⊢
      omega
  | spawn hi =>
    have hset := total_set Caller.spawning hi (.pushes s.threads.length)
    refine h.of_full rfl ?_ ?_ rfl (by simp [State.setCaller, Thread.leaving])
    · intro hle
      simp only [available, State.setCaller, total_append, total_cons, total_nil,
        Thread.available, Caller.spawning] at hle hset ⊢
      omega
    · simp only [State.setCaller, total_append, total_cons, total_nil, Thread.live,
        Caller.spawning] at hset ⊢
      omega
  | notify hi ht =>
    have hwoken : (s.setThread _ (.woken false)).Served :=
      h.setThread ht rfl rfl rfl rfl rfl rfl le_rfl
    exact hwoken.setCaller hi rfl rfl rfl rfl rfl (spawning_notified _)
  | notifyNone hi => exact h.setCaller hi rfl rfl rfl rfl rfl (spawning_notified _)
  | @pop i panics origin job jobs hi hjobs =>
    refine h.setThread hi rfl rfl rfl rfl rfl rfl ?_
    rw [hjobs]
    cases origin <;> simp [State.setThread, Thread.available]
  | leaveClosed _ _ hclosed => exact .inl hclosed
  | @wait i panics origin hi hjobs hopen =>
    refine h.setThread hi rfl rfl rfl rfl rfl rfl ?_
    cases origin <;> simp [State.setThread, Thread.available]
  | @threadPoll i p panics task hi htask =>
    cases hnext : (task.poll panics p).2 with
    | unwinds lost =>
      obtain ⟨rfl, hfinishing⟩ := finishing_of_unwinds hnext
      obtain hclosed | hle := hguard rfl (by rw [hi]; exact hfinishing)
      · exact .inl hclosed
      · refine .inr (.inl ?_)
        have hset := total_set Thread.available hi (.died lost)
        simp only [available, State.setThread, State.setTask, Next.thread,
          Thread.available] at hle hset ⊢
        omega
    | goes q | done => exact h.setThread hi rfl rfl rfl rfl rfl rfl le_rfl
  | relockLeave _ hjobs =>
    refine .inr (.inl ?_)
    simp [State.setThread, hjobs]
  | relock hi | wake hi => exact h.setThread hi rfl rfl rfl rfl rfl rfl le_rfl
  | exit hi =>
    have hset := total_set Thread.available hi .exited
    obtain hclosed | hle | ⟨-, hleaving⟩ := h
    · exact .inl hclosed
    · refine .inr (.inl ?_)
      simp only [available, State.setThread, Thread.available] at hle hset ⊢
      omega
    · have hle := le_total Thread.leaving hi
      rw [hleaving] at hle
      exact absurd hle (by decide)
  | close => exact .inl rfl
  | drain => exact .inr (.inl (Nat.zero_le _))
  | notifyAll =>
    have havailable := total_notifyAll (w := Thread.available) rfl s
    have hleaving := total_notifyAll (w := Thread.leaving) rfl s
    have hlive := total_notifyAll (w := Thread.live) rfl s
    refine h.of_full rfl ?_ (congrArg (· + total Caller.spawning s.callers) hlive) rfl hleaving
    intro hle
    rw [available] at hle ⊢
    exact hle.trans_eq (congrArg (· + total Caller.spawning s.callers) havailable.symm)
  | _ => exact h.of_full rfl (fun hle => hle) rfl rfl rfl

theorem served_of_reachable {maxThreads : ℕ}
    (h : Reachable State.step State.OwnThread (.init maxThreads) s) : Accounts s ∧ s.Served := by
  refine h.invariant (I := fun s => Accounts s ∧ s.Served)
    ⟨Accounts.init maxThreads, .inr (.inl le_rfl)⟩ ?_
  rintro s l t ⟨haccounts, hserved⟩ hguard hstep
  exact ⟨haccounts.step hstep, hserved.step haccounts hguard hstep⟩

theorem Served.runsInParallel (h : s.Served) : s.RunsInParallel := by
  intro hopen hcallers
  have hspawning : total Caller.spawning s.callers = 0 :=
    total_eq_zero_iff.mpr fun caller hc => Caller.spawning_of_over (hcallers caller hc)
  obtain hclosed | hle | ⟨hcap, -⟩ := h
  · exact absurd (hopen.symm.trans hclosed) Bool.false_ne_true
  · rw [available] at hle
    omega
  · omega

end State

/-- While every submit finds a thread of its own or a full pool, and no thread is lost that a job
counts on, no job waits behind a running one below the cap. -/
theorem runs_in_parallel {maxThreads : ℕ} {s : State}
    (h : Reachable State.step State.OwnThread (.init maxThreads) s) : s.RunsInParallel :=
  (State.served_of_reachable h).2.runsInParallel

theorem runs_in_parallel_spawned :
    ∃ s, Reachable State.step State.OwnThread (.init 2) s ∧ s.jobs = [0, 1] ∧
      s.RunsInParallel := by
  have hrun : (run (guarded State.step State.OwnThread) (.init 2) [.submit, .submit,
      .caller 0 false, .caller 1 false]).any (fun s => s.jobs = [0, 1]) = true := by decide
  obtain ⟨s, hs, hjobs⟩ := exists_reachable_of_run hrun
  exact ⟨s, hs, by simpa using hjobs, runs_in_parallel hs⟩

/-- Two jobs are submitted while one thread is idle: both count on it. -/
def burst : List Label :=
  [.submit, .caller 0 false, .notify 0 none, .caller 0 false, .caller 0 false, .thread 0 false,
    .thread 0 false, .thread 0 false, .thread 0 false, .thread 0 false, .submit, .submit,
    .caller 1 false, .notify 1 (some 0), .caller 2 false, .notify 2 none]

theorem burst_behind_idle :
    ¬ ∀ (maxThreads : ℕ) (s : State), 1 ≤ maxThreads →
      Reachable State.step anyStep (.init maxThreads) s → s.RunsInParallel := by
  intro h
  have hrun : (run (guarded State.step anyStep) (.init 2) burst).any
      (fun s => !decide s.RunsInParallel) = true := by decide
  obtain ⟨s, hs, hburst⟩ := exists_reachable_of_run hrun
  exact absurd (h 2 s (by decide) hs) (by simpa using hburst)

end Eddy.BlockingPool
