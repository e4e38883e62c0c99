import Eddy.BlockingPoolSteps
import Eddy.Holdings
import Mathlib.Data.Multiset.MapFold
import Mathlib.Algebra.Order.Group.Multiset
import Mathlib.Tactic.Abel

/-!
# The cap, and the end of every job

The pool never has more threads than its cap. Every queue entry is run by one of the threads, of
the calls or by the shutdown, and the run settles its task: the closure was called once, or never
and the task is cancelled, unless the destructor of a closure that is not called panics. All of them
have been run when the shutdown returns if it has taken the handle of everyone who still works.
-/

namespace Eddy.BlockingPool
open Interleaving Holdings TaskState TaskState.Snapshot

/-- The entry that is left after the step. -/
def Next.entry : Next → Option Poll
  | .goes poll => some poll
  | .done => none
  | .unwinds lost => lost

namespace Task

/-- The closure was called once and the task is finished, or it was not and the task is
cancelled. -/
def Settled (task : Task) : Prop :=
  (task.runs = 1 ∧ (task.outcome = some .ready ∨ task.outcome = some .panicked)) ∨
    (task.runs = 0 ∧ task.outcome = some .cancelled)

instance (task : Task) : Decidable task.Settled := inferInstanceAs (Decidable (_ ∨ _))

/-- What a task is while its queue entry is at a point of `poll`. -/
def Fits (task : Task) : Poll → Prop
  | .begins _ | .finishes _ .cancelled =>
    task.runs = 0 ∧ task.outcome = none ∧ (view task.word).complete = false ∧
      (view task.word).running = false ∧ (view task.word).notified = true
  | .runs _ | .finishes _ _ =>
    task.runs = 1 ∧ task.outcome = none ∧ (view task.word).complete = false ∧
      (view task.word).running = true

/-- Nothing changes the outcome any more. -/
def Over (task : Task) : Prop := task.Settled ∧ (view task.word).complete = true

theorem fits_new (job : ℕ) : new.Fits (.begins job) := by
  simp [Fits, new, view_new]

variable {task : Task}

theorem view_complete (outcome : Outcome) :
    (view (task.complete outcome).word).complete = true := by
  simp [complete, State.transitionToComplete]

/-- A step of `poll` goes on to a point that the task fits, or the task is over. -/
theorem Fits.poll {p : Poll} (h : task.Fits p) (panics : Bool) :
    match (task.poll panics p).2.entry with
    | some q => q.job = p.job ∧ (task.poll panics p).1.Fits q
    | none => (task.poll panics p).1.Over := by
  cases p with
  | begins job =>
    obtain ⟨hruns, houtcome, hcomplete, hrunning, hnotified⟩ := h
    cases hcancelled : (view task.word).cancelled with
    | true | false => simp [Task.poll, State.transitionToRunning, Next.entry, Fits, Poll.job, *]
  | runs job =>
    cases panics with
    | true | false => exact ⟨rfl, h⟩
  | finishes job outcome =>
    have hword : (view (task.complete outcome).word).complete = true := view_complete outcome
    cases outcome with
    | ready =>
      have hover : (task.complete .ready).Over := ⟨.inl ⟨h.1, .inl rfl⟩, hword⟩
      cases panics <;> exact hover
    | panicked =>
      have hover : (task.complete .panicked).Over := ⟨.inl ⟨h.1, .inr rfl⟩, hword⟩
      cases panics <;> exact hover
    | cancelled =>
      cases panics with
      | true => exact ⟨rfl, h⟩
      | false => exact ⟨.inr ⟨h.1, rfl⟩, hword⟩

/-- A task with a queue entry or a running closure only gets its flag. -/
theorem shutdown_eq (h : (view task.word).running = true ∨ (view task.word).notified = true ∨
    (view task.word).complete = true) :
    task.shutdown = { task with word := setCancelled task.word } := by
  apply if_pos
  simp only [isRunning_eq, isNotified_eq, isComplete_eq, Bool.or_eq_true]
  tauto

theorem Fits.shutdown {p : Poll} (h : task.Fits p) : task.shutdown.Fits p := by
  cases p with
  | begins job =>
    rw [shutdown_eq (.inr (.inl h.2.2.2.2))]
    simpa [Fits] using h
  | runs job =>
    rw [shutdown_eq (.inl h.2.2.2)]
    simpa [Fits] using h
  | finishes job outcome =>
    cases outcome with
    | cancelled =>
      rw [shutdown_eq (.inr (.inl h.2.2.2.2))]
      simpa [Fits] using h
    | ready | panicked =>
      rw [shutdown_eq (.inl h.2.2.2)]
      simpa [Fits] using h

theorem Over.shutdown (h : task.Over) : task.shutdown.Over := by
  rw [shutdown_eq (.inr (.inr h.2))]
  refine ⟨h.1, ?_⟩
  rw [view_setCancelled]
  exact h.2

end Task

/-- The entry the thread runs or has left. -/
def Thread.entry : Thread → Option Poll
  | .polls poll => some poll
  | .died lost => lost
  | _ => none

/-- The entry the call has not queued, or runs to cancel it or has left. -/
def Caller.entry : Caller → Option Poll
  | .enters job | .cancels job => some (.begins job)
  | .polls poll => some poll
  | .unwound lost => lost
  | _ => none

/-- The shutdown was left by a panic. -/
def Shutdown.broken : Shutdown → Bool
  | .unwound _ => true
  | _ => false

def Caller.dropping : Caller → Bool
  | .polls (.finishes _ .cancelled) => true
  | _ => false

def Shutdown.entries : Shutdown → List Poll
  | .cancels queued => queued.map .begins
  | .polls poll queued => poll :: queued.map .begins
  | .unwound lost => lost
  | _ => []

namespace State

def queueEntries (s : State) : Multiset Poll := s.jobs.map Poll.begins

def threadEntries (s : State) : Multiset Poll := s.threads.filterMap Thread.entry

def callerEntries (s : State) : Multiset Poll := s.callers.filterMap Caller.entry

def shutdownEntries (s : State) : Multiset Poll := s.shutdown.entries

/-- Every entry, with the point of `poll` that it is at. -/
def entries (s : State) : Multiset Poll :=
  s.queueEntries + s.threadEntries + s.callerEntries + s.shutdownEntries

variable {s t : State}

variable {i : ℕ} {p : Poll} {q : Caller}

theorem threadEntries_set {p q : Thread} (hi : s.threads[i]? = some p)
    (hthreads : t.threads = s.threads.set i q) :
    t.threadEntries + (p.entry.toList : Multiset Poll) =
      s.threadEntries + (q.entry.toList : Multiset Poll) := by
  have hset := Multiset.coe_eq_coe.mpr (filterMap_set (g := Thread.entry) hi q)
  rwa [← hthreads, ← Multiset.coe_add, ← Multiset.coe_add] at hset

theorem callerEntries_set {p : Caller} (hi : s.callers[i]? = some p)
    (hcallers : t.callers = s.callers.set i q) :
    t.callerEntries + (p.entry.toList : Multiset Poll) =
      s.callerEntries + (q.entry.toList : Multiset Poll) := by
  have hset := Multiset.coe_eq_coe.mpr (filterMap_set (g := Caller.entry) hi q)
  rwa [← hcallers, ← Multiset.coe_add, ← Multiset.coe_add] at hset

theorem entries_setThread {p q : Thread} (hi : s.threads[i]? = some p)
    (hthreads : t.threads = s.threads.set i q) (hqueue : t.queueEntries = s.queueEntries)
    (hcallers : t.callers = s.callers) (hshutdown : t.shutdown = s.shutdown) :
    t.entries + (p.entry.toList : Multiset Poll) = s.entries + (q.entry.toList : Multiset Poll) := by
  have hset := threadEntries_set (t := t) hi hthreads
  have hcaller : t.callerEntries = s.callerEntries := by rw [callerEntries, hcallers, callerEntries]
  have hclosing : t.shutdownEntries = s.shutdownEntries := by
    rw [shutdownEntries, hshutdown, shutdownEntries]
  rw [entries, entries, hqueue, hcaller, hclosing]
  calc s.queueEntries + t.threadEntries + s.callerEntries + s.shutdownEntries + ↑p.entry.toList
      = s.queueEntries + s.callerEntries + s.shutdownEntries +
          (t.threadEntries + ↑p.entry.toList) := by abel
    _ = s.queueEntries + s.callerEntries + s.shutdownEntries +
          (s.threadEntries + ↑q.entry.toList) := by rw [hset]
    _ = s.queueEntries + s.threadEntries + s.callerEntries + s.shutdownEntries +
          ↑q.entry.toList := by abel

theorem entries_setCaller {p : Caller} (hi : s.callers[i]? = some p)
    (hcallers : t.callers = s.callers.set i q) (hqueue : t.queueEntries = s.queueEntries)
    (hthreads : t.threadEntries = s.threadEntries) (hshutdown : t.shutdown = s.shutdown) :
    t.entries + (p.entry.toList : Multiset Poll) = s.entries + (q.entry.toList : Multiset Poll) := by
  have hset := callerEntries_set (t := t) hi hcallers
  have hclosing : t.shutdownEntries = s.shutdownEntries := by
    rw [shutdownEntries, hshutdown, shutdownEntries]
  rw [entries, entries, hqueue, hthreads, hclosing]
  calc s.queueEntries + s.threadEntries + t.callerEntries + s.shutdownEntries + ↑p.entry.toList
      = s.queueEntries + s.threadEntries + s.shutdownEntries +
          (t.callerEntries + ↑p.entry.toList) := by abel
    _ = s.queueEntries + s.threadEntries + s.shutdownEntries +
          (s.callerEntries + ↑q.entry.toList) := by rw [hset]
    _ = s.queueEntries + s.threadEntries + s.callerEntries + s.shutdownEntries +
          ↑q.entry.toList := by abel

/-- The entries belong to different tasks, each task fits its entry, and a task without one is
over. -/
structure Owned (s : State) : Prop where
  nodup : (s.entries.map Poll.job).Nodup
  fits : ∀ p ∈ s.entries, ∃ task, s.tasks[p.job]? = some task ∧ task.Fits p
  others : ∀ {job task}, s.tasks[job]? = some task → job ∉ s.entries.map Poll.job → task.Over

theorem Owned.init (maxThreads : ℕ) : Owned (.init maxThreads) where
  nodup := Multiset.nodup_zero
  fits _ hp := absurd hp (Multiset.notMem_zero _)
  others htask _ := by cases htask

/-- Entries change hands. -/
theorem Owned.move (h : Owned s) (hentries : t.entries = s.entries) (htasks : t.tasks = s.tasks) :
    Owned t where
  nodup := hentries ▸ h.nodup
  fits p hp := by
    rw [htasks]
    exact h.fits p (hentries ▸ hp)
  others htask hjob := by
    rw [htasks] at htask
    exact h.others htask (hentries ▸ hjob)

theorem Owned.shutdownTask (h : Owned s) (job : ℕ) (hentries : t.entries = s.entries)
    (htasks : t.tasks = s.tasks.modify job Task.shutdown) : Owned t where
  nodup := hentries ▸ h.nodup
  fits p hp := by
    obtain ⟨task, htask, hfits⟩ := h.fits p (hentries ▸ hp)
    rw [htasks, List.getElem?_modify, htask]
    refine ⟨_, rfl, ?_⟩
    split
    · exact hfits.shutdown
    · exact hfits
  others {job' task} htask hjob := by
    rw [htasks, List.getElem?_modify] at htask
    obtain ⟨task', htask', rfl⟩ := Option.map_eq_some_iff.mp htask
    have hover := h.others htask' (hentries ▸ hjob)
    split
    · exact hover.shutdown
    · exact hover

theorem entries_of_add {entries rest new : Multiset Poll}
    (h : entries + {p} = p ::ₘ rest + new) : entries = new + rest := by
  apply add_right_cancel (b := {p})
  rw [h, ← Multiset.singleton_add]
  abel

/-- A task that no other entry is about has changed. -/
theorem Owned.replace (h : Owned s) {rest : Multiset Poll} {task : Task}
    (hrest : s.entries = p ::ₘ rest) (htasks : t.tasks = s.tasks.set p.job task) :
    (rest.map Poll.job).Nodup ∧ p.job ∉ rest.map Poll.job ∧
      (∀ r ∈ rest, ∃ task, t.tasks[r.job]? = some task ∧ task.Fits r) ∧
        ∀ {job task}, t.tasks[job]? = some task → job ≠ p.job → job ∉ rest.map Poll.job →
          task.Over := by
  have hnodup := h.nodup
  rw [hrest, Multiset.map_cons, Multiset.nodup_cons] at hnodup
  obtain ⟨hnotMem, hnodup⟩ := hnodup
  refine ⟨hnodup, hnotMem, fun r hr => ?_, fun {job task'} ht hne hjob => ?_⟩
  · obtain ⟨task', htask', hfits⟩ := h.fits r (by rw [hrest]; exact Multiset.mem_cons_of_mem hr)
    have hne : p.job ≠ r.job := fun heq => hnotMem (heq ▸ Multiset.mem_map_of_mem _ hr)
    exact ⟨task', by rw [htasks, List.getElem?_set_ne hne, htask'], hfits⟩
  · rw [htasks, List.getElem?_set_ne hne.symm] at ht
    apply h.others ht
    rw [hrest, Multiset.map_cons, Multiset.mem_cons]
    exact fun hmem => hmem.elim hne hjob

/-- A step of `poll` on one entry. -/
theorem Owned.poll (h : Owned s) {panics : Bool} {task : Task}
    (htask : s.tasks[p.job]? = some task) (hp : p ∈ s.entries)
    (hentries : t.entries + {p} =
      s.entries + ((task.poll panics p).2.entry.toList : Multiset Poll))
    (htasks : t.tasks = s.tasks.set p.job (task.poll panics p).1) : Owned t := by
  obtain ⟨rest, hrest⟩ := Multiset.exists_cons_of_mem hp
  obtain ⟨task', htask', hfits⟩ := h.fits p hp
  cases htask.symm.trans htask'
  have hpoll := hfits.poll panics
  obtain ⟨hnodup, hnotMem, hrestFits, hrestOver⟩ := h.replace hrest htasks
  have hself : t.tasks[p.job]? = some (task.poll panics p).1 := by
    rw [htasks, List.getElem?_set_self (List.getElem?_eq_some_iff.mp htask).1]
  rw [hrest] at hentries
  have ht := entries_of_add hentries
  cases hnext : (task.poll panics p).2.entry with
  | some q =>
    rw [hnext] at hpoll ht
    obtain ⟨hjob, hq⟩ := hpoll
    have ht : t.entries = q ::ₘ rest := ht
    have hmap : t.entries.map Poll.job = p.job ::ₘ rest.map Poll.job := by
      rw [ht, Multiset.map_cons, hjob]
    refine ⟨?_, ?_, ?_⟩
    · rw [hmap, Multiset.nodup_cons]
      exact ⟨hnotMem, hnodup⟩
    · intro r hr
      rw [ht, Multiset.mem_cons] at hr
      obtain rfl | hr := hr
      · exact ⟨_, by rw [hjob, hself], hq⟩
      · exact hrestFits r hr
    · intro job task' ht' hmem
      rw [hmap, Multiset.mem_cons, not_or] at hmem
      exact hrestOver ht' hmem.1 hmem.2
  | none =>
    rw [hnext] at hpoll ht
    have ht : t.entries = rest := ht.trans (Multiset.zero_add rest)
    refine ⟨?_, ?_, ?_⟩
    · rw [ht]
      exact hnodup
    · rw [ht]
      exact hrestFits
    · intro job task' ht' hmem
      rw [ht] at hmem
      by_cases heq : job = p.job
      · subst heq
        cases hself.symm.trans ht'
        exact hpoll
      · exact hrestOver ht' heq hmem

theorem Owned.setThread (h : Owned s) {p q : Thread} (hi : s.threads[i]? = some p)
    (hp : p.entry = none) (hq : q.entry = none) (hthreads : t.threads = s.threads.set i q)
    (hqueue : t.queueEntries = s.queueEntries) (hcallers : t.callers = s.callers)
    (hshutdown : t.shutdown = s.shutdown) (htasks : t.tasks = s.tasks) : Owned t := by
  have hset := entries_setThread (t := t) hi hthreads hqueue hcallers hshutdown
  rw [hp, hq] at hset
  exact h.move (by simpa using hset) htasks

theorem Owned.setCaller (h : Owned s) {p : Caller} (hi : s.callers[i]? = some p)
    (hcallers : t.callers = s.callers.set i q) (hpq : p.entry = q.entry)
    (hqueue : t.queueEntries = s.queueEntries) (hthreads : t.threadEntries = s.threadEntries)
    (hshutdown : t.shutdown = s.shutdown) (htasks : t.tasks = s.tasks) : Owned t := by
  have hset := entries_setCaller (t := t) hi hcallers hqueue hthreads hshutdown
  rw [hpq] at hset
  exact h.move (add_right_cancel hset) htasks

/-- A call puts its entry into the queue. -/
theorem Owned.enqueue (h : Owned s) {job : ℕ}
    (hi : s.callers[i]? = some (.enters job)) (hcallers : t.callers = s.callers.set i q)
    (hq : q.entry = none) (hjobs : t.jobs = s.jobs ++ [job])
    (hthreads : t.threadEntries = s.threadEntries)
    (hshutdown : t.shutdownEntries = s.shutdownEntries) (htasks : t.tasks = s.tasks) :
    Owned t := by
  have hset := callerEntries_set (t := t) hi hcallers
  have hqueue : t.queueEntries = s.queueEntries + {.begins job} := by
    rw [queueEntries, hjobs, List.map_append, ← Multiset.coe_add]
    rfl
  have hcaller : t.callerEntries + {.begins job} = s.callerEntries := by
    rw [hq] at hset
    exact hset.trans (add_zero _)
  refine h.move ?_ htasks
  rw [entries, entries, hqueue, hthreads, hshutdown, ← hcaller]
  abel

/-- A call comes with the entry of a new task. -/
theorem Owned.submit (h : Owned s) : Owned { s with
    callers := s.callers ++ [.enters s.tasks.length]
    tasks := s.tasks ++ [.new] } := by
  have hentries : entries { s with
      callers := s.callers ++ [.enters s.tasks.length]
      tasks := s.tasks ++ [.new] } = .begins s.tasks.length ::ₘ s.entries := by
    simp only [entries, queueEntries, threadEntries, callerEntries, shutdownEntries,
      List.filterMap_append, ← Multiset.coe_add, ← Multiset.singleton_add]
    change _ + _ + (_ + {Poll.begins s.tasks.length}) + _ = _
    abel
  have hlt : ∀ p ∈ s.entries, p.job < s.tasks.length := by
    intro p hp
    obtain ⟨task, htask, -⟩ := h.fits p hp
    exact (List.getElem?_eq_some_iff.mp htask).1
  refine ⟨?_, ?_, ?_⟩
  · rw [hentries, Multiset.map_cons, Multiset.nodup_cons]
    refine ⟨fun hmem => ?_, h.nodup⟩
    obtain ⟨p, hp, hjob⟩ := Multiset.mem_map.mp hmem
    exact absurd (hlt p hp) (by rw [hjob]; exact lt_irrefl _)
  · intro p hp
    rw [hentries, Multiset.mem_cons] at hp
    obtain rfl | hp := hp
    · exact ⟨.new, by simp [Poll.job], Task.fits_new _⟩
    · obtain ⟨task, htask, hfits⟩ := h.fits p hp
      exact ⟨task, by rw [List.getElem?_append_left (hlt p hp), htask], hfits⟩
  · intro job task htask hjob
    rw [hentries, Multiset.map_cons, Multiset.mem_cons, not_or] at hjob
    have hle : job < s.tasks.length := by
      have hlength := (List.getElem?_eq_some_iff.mp htask).1
      rw [List.length_append, List.length_singleton] at hlength
      have hne : job ≠ s.tasks.length := hjob.1
      omega
    rw [List.getElem?_append_left hle] at htask
    exact h.others htask hjob.2

theorem Owned.closing (h : Owned s) (hshutdown : t.shutdown.entries = s.shutdown.entries)
    (hqueue : t.queueEntries = s.queueEntries) (hthreads : t.threadEntries = s.threadEntries)
    (hcallers : t.callers = s.callers) (htasks : t.tasks = s.tasks) : Owned t := by
  refine h.move ?_ htasks
  rw [entries, entries, hqueue, hthreads, callerEntries, hcallers, shutdownEntries, hshutdown]
  rfl

theorem Owned.pop (h : Owned s) {job : ℕ} {jobs : List ℕ} {p : Thread}
    (hi : s.threads[i]? = some p) (hp : p.entry = none) (hjobs : s.jobs = job :: jobs) :
    Owned ({ s with jobs }.setThread i (.polls (.begins job))) := by
  have hset := entries_setThread (s := { s with jobs })
    (t := { s with jobs }.setThread i (.polls (.begins job))) hi rfl rfl rfl rfl
  rw [hp] at hset
  refine h.move ((add_zero _).symm.trans (hset.trans ?_)) rfl
  have hqueue : s.queueEntries = .begins job ::ₘ (jobs.map Poll.begins : Multiset Poll) := by
    rw [queueEntries, hjobs]
    rfl
  change (jobs.map Poll.begins : Multiset Poll) + s.threadEntries + s.callerEntries +
    s.shutdownEntries + {.begins job} = _
  rw [entries, hqueue, ← Multiset.singleton_add]
  abel

theorem threadEntries_notifyAll (s : State) : s.notifyAll.threadEntries = s.threadEntries := by
  have hentry : ∀ p : Thread, (if p = .waits then Thread.woken false else p).entry = p.entry := by
    intro p
    cases p <;> rfl
  simp [threadEntries, notifyAll, List.filterMap_map, hentry]

theorem mem_entries_of_thread (hi : s.threads[i]? = some (.polls p)) :
    p ∈ s.entries := by
  have hmem : p ∈ s.threadEntries := by
    apply List.mem_filterMap.mpr
    exact ⟨_, List.mem_of_getElem? hi, rfl⟩
  simp only [entries, Multiset.mem_add]
  exact .inl (.inl (.inr hmem))

theorem mem_entries_of_caller (hi : s.callers[i]? = some (.polls p)) :
    p ∈ s.entries := by
  have hmem : p ∈ s.callerEntries := by
    apply List.mem_filterMap.mpr
    exact ⟨_, List.mem_of_getElem? hi, rfl⟩
  simp only [entries, Multiset.mem_add]
  exact .inl (.inr hmem)

theorem mem_entries_of_shutdown (hp : p ∈ s.shutdown.entries) : p ∈ s.entries := by
  simp only [entries, Multiset.mem_add]
  exact .inr hp

theorem callerEntry_polled (next : Next) : next.caller.entry = next.entry := by
  cases next <;> rfl

theorem threadEntry_polled (next : Next) : next.thread.entry = next.entry := by
  cases next <;> rfl

theorem callerEntry_notified (spawn : Bool) :
    (Caller.notifies spawn).entry = (if spawn then Caller.spawns else .returned).entry := by
  cases spawn <;> rfl

/-- The shutdown takes the queue. -/
theorem Owned.drain (h : Owned s) (hs : s.shutdown = .drains) :
    Owned { s with jobs := [], shutdown := .cancels s.jobs } := by
  refine h.move ?_ rfl
  have hnone : s.shutdownEntries = 0 := by rw [shutdownEntries, hs]; rfl
  change (0 : Multiset Poll) + s.threadEntries + s.callerEntries + s.queueEntries = _
  rw [entries, hnone]
  abel

theorem Owned.closingPoll (h : Owned s) {queued : List ℕ} {panics : Bool} {task : Task}
    (hs : s.shutdown = .polls p queued) (htask : s.tasks[p.job]? = some task) :
    Owned { s.setTask p.job (task.poll panics p).1 with
      shutdown := (task.poll panics p).2.shutdown queued } := by
  refine h.poll htask (mem_entries_of_shutdown (by rw [hs]; exact List.mem_cons_self)) ?_ rfl
  have hbefore : s.shutdownEntries = p ::ₘ (queued.map Poll.begins : Multiset Poll) := by
    rw [shutdownEntries, hs]
    rfl
  have hafter : ∀ next : Next, ((next.shutdown queued).entries : Multiset Poll) =
      next.entry.toList + (queued.map Poll.begins : Multiset Poll) := by
    intro next
    cases next <;> rfl
  change s.queueEntries + s.threadEntries + s.callerEntries + _ + _ = _
  rw [shutdownEntries, hafter, entries, hbefore, ← Multiset.singleton_add]
  abel

/-- Every thread that works on a job, or died of one that it has not finished, is in the list. -/
def Lists (s : State) (handles : List ℕ) : Prop :=
  ∀ i < s.threads.length, (s.threads[i]?.bind Thread.entry).isSome = true → i ∈ handles

instance (s : State) (handles : List ℕ) : Decidable (s.Lists handles) :=
  inferInstanceAs (Decidable (∀ _ < _, _ → _))

/-- The shutdown takes a list of handles that has every thread at work, no submit drops a closure
whose destructor panics, and a shutdown that was left by a panic is the last one. -/
def AllListed (s : State) : Label → Prop
  | .closing _ => s.shutdown = .takes → s.Lists s.handles
  | .caller i panics => panics = true → s.callers[i]?.any Caller.dropping = false
  | .shutdown => s.shutdown.broken = false
  | _ => True

instance (s : State) : (l : Label) → Decidable (s.AllListed l)
  | .closing _ | .caller _ _ => inferInstanceAs (Decidable (_ → _))
  | .shutdown => inferInstanceAs (Decidable (_ = _))
  | .submit | .notify _ _ | .thread _ _ | .wake _ _ | .abort _ => .isTrue trivial

theorem Owned.step {l : Label} (h : Owned s) (hguard : s.AllListed l)
    (hstep : s.step l = some t) : Owned t := by
  cases step_takes hstep with
  | submit => exact h.submit
  | reject hi => exact h.setCaller hi rfl rfl rfl rfl rfl rfl
  | enqueue hi | enqueueSpawn hi => exact h.enqueue hi rfl rfl rfl rfl rfl rfl
  | @cancelTask i job panics hi =>
    have hset := entries_setCaller (t := s.setCaller i (.polls (.begins job))) hi rfl rfl rfl rfl
    exact h.shutdownTask job (add_right_cancel hset) rfl
  | @callerPoll i p panics task hi htask =>
    have hset := entries_setCaller
      (t := (s.setTask p.job (task.poll panics p).1).setCaller i
        (task.poll panics p).2.caller) hi rfl rfl rfl rfl
    rw [callerEntry_polled] at hset
    exact h.poll htask (mem_entries_of_caller hi) hset rfl
  | spawn hi =>
    refine h.setCaller hi rfl rfl rfl ?_ rfl rfl
    rw [threadEntries, State.setCaller, List.filterMap_append]
    exact congrArg _ (List.append_nil _)
  | push hi | unspawned hi => exact h.setCaller hi rfl rfl rfl rfl rfl rfl
  | notify hi ht =>
    have hwoken : Owned (s.setThread _ (.woken false)) :=
      h.setThread ht rfl rfl rfl rfl rfl rfl rfl
    exact hwoken.setCaller hi rfl (callerEntry_notified _) rfl rfl rfl rfl
  | notifyNone hi => exact h.setCaller hi rfl (callerEntry_notified _) rfl rfl rfl rfl
  | pop hi hjobs => exact h.pop hi rfl hjobs
  | leaveClosed hi | wait hi | relockLeave hi | relock hi | exit hi | wake hi =>
    exact h.setThread hi rfl rfl rfl rfl rfl rfl rfl
  | @threadPoll i p panics task hi htask =>
    have hset := entries_setThread
      (t := (s.setTask p.job (task.poll panics p).1).setThread i
        (task.poll panics p).2.thread) hi rfl rfl rfl rfl
    rw [threadEntry_polled] at hset
    exact h.poll htask (mem_entries_of_thread hi) hset rfl
  | drain hs => exact h.drain hs
  | @cancelQueued panics job queued hs =>
    refine h.shutdownTask job ?_ rfl
    rw [entries, entries, shutdownEntries, shutdownEntries, hs]
    rfl
  | notifyAll hs =>
    refine h.closing ?_ rfl (threadEntries_notifyAll s) rfl rfl
    rw [hs]
    rfl
  | closingPoll hs htask => exact h.closingPoll hs htask
  | shutdown hs | close hs | closeAgain hs | take hs | join hs | joinDied hs | joined hs =>
    refine h.closing ?_ rfl rfl rfl rfl
    rw [hs]
    rfl
  | shutdownUnwound hs =>
    change s.shutdown.broken = false at hguard
    rw [hs] at hguard
    cases hguard
  | shutdownAgain => exact h
  | abort => exact h.shutdownTask _ rfl rfl

/-- No entry is left. -/
theorem Owned.settled (h : Owned s) (hentries : s.entries = 0) :
    ∀ task ∈ s.tasks, task.Settled := by
  intro task htask
  obtain ⟨job, hjob⟩ := List.getElem?_of_mem htask
  refine (h.others hjob ?_).1
  rw [hentries]
  exact Multiset.notMem_zero _

end State

/-- The queue was not closed yet. -/
def Shutdown.pending : Shutdown → Bool
  | .ready | .closes => true
  | _ => false

def Shutdown.drained : Shutdown → Bool
  | .ready | .closes | .drains => false
  | _ => true

/-- The handles still to be joined, once they were taken. -/
def Shutdown.taken : Shutdown → Option (List ℕ)
  | .joins handles => some handles
  | .returned => some []
  | _ => none

namespace State

structure Closing (s : State) : Prop where
  closed : s.closed = !s.shutdown.pending
  jobs : s.shutdown.drained = true → s.jobs = []
  lists : ∀ {handles}, s.shutdown.taken = some handles → s.Lists handles

variable {s t : State}

variable {handles : List ℕ}

theorem Lists.set (h : s.Lists handles) {i : ℕ} {p q : Thread}
    (hi : s.threads[i]? = some p) (hthreads : t.threads = s.threads.set i q)
    (hq : q.entry.isSome = true → p.entry.isSome = true) : t.Lists handles := by
  intro j hj hentry
  rw [hthreads, List.length_set] at hj
  apply h j hj
  rw [hthreads, List.getElem?_set] at hentry
  split at hentry
  case isTrue heq =>
    subst heq
    rw [if_pos hj] at hentry
    rw [hi]
    exact hq hentry
  case isFalse => exact hentry

theorem Lists.congr (h : s.Lists handles) (hthreads : t.threads = s.threads) :
    t.Lists handles := by
  rw [Lists, hthreads]
  exact h

theorem Lists.spawn (h : s.Lists handles) {origin : Origin}
    (hthreads : t.threads = s.threads ++ [.top origin]) : t.Lists handles := by
  intro i hi hentry
  rw [hthreads, List.length_append, List.length_singleton] at hi
  rw [hthreads] at hentry
  by_cases hlt : i < s.threads.length
  · rw [List.getElem?_append_left hlt] at hentry
    exact h i hlt hentry
  · rw [List.getElem?_append_right (by omega), show i - s.threads.length = 0 by omega] at hentry
    cases hentry

theorem Lists.tail {i : ℕ} (h : s.Lists (i :: handles))
    (hi : s.threads[i]? = some .exited) : s.Lists handles := by
  intro j hj hentry
  obtain heq | hmem := List.mem_cons.mp (h j hj hentry)
  · rw [heq, hi] at hentry
    cases hentry
  · exact hmem

namespace Closing

/-- A step of a call or of a thread. -/
theorem move (h : Closing s) (hclosed : t.closed = s.closed) (hshutdown : t.shutdown = s.shutdown)
    (hjobs : s.jobs = [] → t.jobs = [])
    (hlists : ∀ {handles}, s.Lists handles → t.Lists handles) : Closing t where
  closed := by rw [hclosed, hshutdown, h.closed]
  jobs hdrained := hjobs (h.jobs (hshutdown ▸ hdrained))
  lists htaken := hlists (h.lists (hshutdown ▸ htaken))

theorem advance (h : Closing s) (hclosed : t.closed = s.closed)
    (hpending : t.shutdown.pending = s.shutdown.pending)
    (hdrained : t.shutdown.drained = s.shutdown.drained) (hjobs : t.jobs = s.jobs)
    (htaken : t.shutdown.taken = none) : Closing t where
  closed := by rw [hclosed, hpending, h.closed]
  jobs hdrained' := hjobs.trans (h.jobs (hdrained ▸ hdrained'))
  lists htaken' := by
    rw [htaken] at htaken'
    cases htaken'

theorem enqueue (h : Closing s) (hopen : s.closed = false) (hclosed : t.closed = s.closed)
    (hshutdown : t.shutdown = s.shutdown) : Closing t := by
  have hpending : s.shutdown.pending = true := by simpa [hopen] using h.closed
  refine ⟨by rw [hclosed, hshutdown, h.closed], ?_, ?_⟩
  · intro hdrained
    rw [hshutdown] at hdrained
    cases hs : s.shutdown <;> simp [hs, Shutdown.pending, Shutdown.drained] at hpending hdrained
  · intro handles htaken
    rw [hshutdown] at htaken
    cases hs : s.shutdown <;> simp [hs, Shutdown.pending, Shutdown.taken] at hpending htaken

theorem init (maxThreads : ℕ) : Closing (.init maxThreads) where
  closed := rfl
  jobs _ := rfl
  lists htaken := by cases htaken

theorem step {l : Label} (h : Closing s) (hguard : s.AllListed l) (hstep : s.step l = some t) :
    Closing t := by
  cases step_takes hstep with
  | submit => exact h.move rfl rfl id fun h => h.congr rfl
  | reject | cancelTask | push | callerPoll | unspawned =>
    exact h.move rfl rfl id fun h => h.congr rfl
  | enqueue _ hopen | enqueueSpawn _ hopen => exact h.enqueue hopen rfl rfl
  | spawn => exact h.move rfl rfl id fun h => h.spawn rfl
  | notify _ ht => exact h.move rfl rfl id fun h => h.set ht rfl id
  | notifyNone => exact h.move rfl rfl id fun h => h.congr rfl
  | @pop i panics origin job jobs hi hjobs =>
    have hdrained : s.shutdown.drained = false := by
      rw [Bool.eq_false_iff]
      intro hdrained
      rw [h.jobs hdrained] at hjobs
      cases hjobs
    refine ⟨h.closed, ?_, ?_⟩
    · intro hdrained'
      exact absurd hdrained' (by simpa [State.setThread] using hdrained)
    · intro handles htaken
      change s.shutdown.taken = _ at htaken
      cases hs : s.shutdown <;> simp [hs, Shutdown.drained, Shutdown.taken] at hdrained htaken
  | leaveClosed hi | wait hi | relockLeave hi | relock hi | exit hi | wake hi =>
    exact h.move rfl rfl id fun h => h.set hi rfl id
  | threadPoll hi => exact h.move rfl rfl id fun h => h.set hi rfl fun _ => rfl
  | shutdown hs => exact h.advance rfl (by rw [hs]; rfl) (by rw [hs]; rfl) rfl rfl
  | shutdownAgain => exact h
  | shutdownUnwound hs =>
    change s.shutdown.broken = false at hguard
    rw [hs] at hguard
    cases hguard
  | close =>
    refine ⟨rfl, ?_, ?_⟩
    · intro hdrained
      cases hdrained
    · intro handles htaken
      cases htaken
  | closeAgain hs hclosed =>
    have hopen := h.closed
    rw [hs, hclosed] at hopen
    cases hopen
  | drain hs =>
    refine ⟨?_, fun _ => rfl, ?_⟩
    · rw [h.closed, hs]
      rfl
    · intro handles htaken
      cases htaken
  | cancelQueued hs | notifyAll hs =>
    exact h.advance rfl (by rw [hs]; rfl) (by rw [hs]; rfl) rfl rfl
  | closingPoll hs =>
    generalize (Task.poll _ _ _).2 = next
    refine h.advance rfl ?_ ?_ rfl ?_
    all_goals
      dsimp only
      cases next <;> first | rfl | (rw [hs]; rfl)
  | take hs =>
    refine ⟨?_, fun _ => h.jobs (by rw [hs]; rfl), ?_⟩
    · rw [h.closed, hs]
      rfl
    · intro handles htaken
      cases htaken
      exact (hguard hs).congr rfl
  | join hs hi =>
    refine ⟨?_, fun _ => h.jobs (by rw [hs]; rfl), ?_⟩
    · rw [h.closed, hs]
      rfl
    · intro handles htaken
      cases htaken
      have hlists : s.Lists _ := h.lists (by rw [hs]; rfl)
      exact (hlists.tail hi).congr rfl
  | joinDied hs =>
    refine ⟨?_, fun _ => h.jobs (by rw [hs]; rfl), ?_⟩
    · rw [h.closed, hs]
      rfl
    · intro handles htaken
      cases htaken
  | joined hs =>
    refine ⟨?_, fun _ => h.jobs (by rw [hs]; rfl), ?_⟩
    · rw [h.closed, hs]
      rfl
    · intro handles htaken
      cases htaken
      have hlists : s.Lists [] := h.lists (by rw [hs]; rfl)
      exact hlists.congr rfl
  | abort => exact h.move rfl rfl id fun h => h.congr rfl

theorem entries_eq (h : Closing s) (hs : s.shutdown = .returned) :
    s.entries = s.callerEntries := by
  have hqueue : s.queueEntries = 0 := by
    rw [queueEntries, h.jobs (by rw [hs]; rfl)]
    rfl
  have hlists : s.Lists [] := h.lists (by rw [hs]; rfl)
  have hthreads : s.threadEntries = 0 := by
    apply congrArg _ (List.filterMap_eq_nil_iff.mpr fun thread hthread => ?_)
    obtain ⟨i, hi⟩ := List.getElem?_of_mem hthread
    rw [← Option.not_isSome_iff_eq_none]
    intro hentry
    have hmem := hlists i (List.getElem?_eq_some_iff.mp hi).1 (by rw [hi]; exact hentry)
    exact absurd hmem List.not_mem_nil
  have hshutdown : s.shutdownEntries = 0 := by
    rw [shutdownEntries, hs]
    rfl
  rw [entries, hqueue, hthreads, hshutdown, zero_add, zero_add, add_zero]

end Closing

def CallsFinish (s : State) : Prop := ∀ caller ∈ s.callers, caller.over = true → caller.entry = none

theorem CallsFinish.setCaller (h : CallsFinish s) {i : ℕ} {q : Caller}
    (hcallers : t.callers = s.callers.set i q) (hq : q.over = true → q.entry = none) :
    CallsFinish t := by
  intro caller hcaller
  rw [hcallers] at hcaller
  obtain hmem | rfl := List.mem_or_eq_of_mem_set hcaller
  · exact h caller hmem
  · exact hq

theorem entry_of_over_polled {task : Task} {panics : Bool} {p : Poll}
    (hguard : panics = true → (Caller.polls p).dropping = false)
    (hover : (task.poll panics p).2.caller.over = true) :
    (task.poll panics p).2.caller.entry = none := by
  cases hnext : (task.poll panics p).2 with
  | goes q =>
    rw [hnext] at hover
    cases hover
  | done => rfl
  | unwinds lost =>
    obtain ⟨rfl, hfinishing⟩ := finishing_of_unwinds hnext
    have hdropping := hguard rfl
    cases p with
    | finishes job outcome =>
      cases outcome with
      | cancelled => cases hdropping
      | ready | panicked =>
        cases hnext
        rfl
    | _ => cases hfinishing

theorem CallsFinish.step {l : Label} (h : CallsFinish s) (hguard : s.AllListed l)
    (hstep : s.step l = some t) : CallsFinish t := by
  cases step_takes hstep with
  | submit =>
    intro caller hcaller
    obtain hmem | hmem := List.mem_append.mp hcaller
    · exact h caller hmem
    · rw [List.mem_singleton.mp hmem]
      nofun
  | reject | enqueue | enqueueSpawn | cancelTask | spawn => exact h.setCaller rfl nofun
  | unspawned | push => exact h.setCaller rfl fun _ => rfl
  | notify | notifyNone =>
    refine h.setCaller rfl ?_
    split <;> intro _ <;> rfl
  | callerPoll hi =>
    refine h.setCaller rfl (entry_of_over_polled fun hpanics => ?_)
    have hdropping := hguard hpanics
    rwa [hi] at hdropping
  | _ => exact h

theorem step_maxThreads {l : Label} (hstep : s.step l = some t) : t.maxThreads = s.maxThreads := by
  cases step_takes hstep <;> rfl

/-- Every task is settled, once the shutdown has returned and every submit is over. -/
def AllSettled (s : State) : Prop :=
  s.shutdown = .returned → (∀ caller ∈ s.callers, caller.over = true) →
    ∀ task ∈ s.tasks, task.Settled

instance (s : State) : Decidable s.AllSettled := inferInstanceAs (Decidable (_ → _ → _))

theorem allSettled_of_reachable {maxThreads : ℕ}
    (h : Reachable State.step State.AllListed (.init maxThreads) s) :
    s.AllSettled := by
  obtain ⟨howned, hclosing, hcalls⟩ := h.invariant
    (I := fun s => Owned s ∧ Closing s ∧ CallsFinish s)
    ⟨Owned.init maxThreads, Closing.init maxThreads, nofun⟩ fun _ _ _ h hguard hstep =>
      ⟨h.1.step hguard hstep, h.2.1.step hguard hstep, h.2.2.step hguard hstep⟩
  intro hs hcallers
  apply howned.settled
  rw [hclosing.entries_eq hs]
  apply congrArg _ (List.filterMap_eq_nil_iff.mpr fun caller hcaller => ?_)
  exact hcalls caller hcaller (hcallers caller hcaller)

theorem live_le_of_reachable {maxThreads : ℕ} {guard : State → Label → Prop}
    (h : Reachable State.step guard (.init maxThreads) s) :
    total Thread.live s.threads ≤ maxThreads := by
  obtain ⟨haccounts, hmax⟩ := h.invariant (I := fun s => Accounts s ∧ s.maxThreads = maxThreads)
    ⟨Accounts.init maxThreads, rfl⟩ fun _ _ _ h _ hstep =>
      ⟨h.1.step hstep, (step_maxThreads hstep).trans h.2⟩
  have hlive := haccounts.live_le
  have hcap := haccounts.cap
  omega

end State

/-- The cap holds, and a shutdown that takes the handle of every thread at work returns when every
job has run or was cancelled, unless a call could not finish one. -/
theorem capped_and_settled {maxThreads : ℕ} {s : State}
    (h : Reachable State.step State.AllListed (.init maxThreads) s) :
    total Thread.live s.threads ≤ maxThreads ∧ s.AllSettled :=
  ⟨State.live_le_of_reachable h, State.allSettled_of_reachable h⟩

/-- One job runs, and another is cancelled in the queue. -/
theorem capped_and_settled_drained :
    ∃ s, Reachable State.step State.AllListed (.init 1) s ∧ s.shutdown = .returned ∧
      (total Thread.live s.threads ≤ 1 ∧ s.AllSettled) := by
  have hrun : (run (guarded State.step State.AllListed) (.init 1) [.submit, .caller 0 false,
      .notify 0 none, .caller 0 false, .caller 0 false, .thread 0 false, .submit, .caller 1 false,
      .notify 1 none, .shutdown, .closing false, .closing false, .closing false, .closing false,
      .closing false, .closing false, .closing false, .thread 0 false, .thread 0 false,
      .thread 0 false, .thread 0 false, .thread 0 false, .closing false, .closing false]).any
      (fun s => s.shutdown = .returned) = true := by decide
  obtain ⟨s, hs, hshutdown⟩ := exists_reachable_of_run hrun
  exact ⟨s, hs, by simpa using hshutdown, capped_and_settled hs⟩

/-- The thread starts on its job before the submitter has pushed its handle. -/
def unlistedRun : List Label :=
  [.submit, .caller 0 false, .notify 0 none, .caller 0 false, .thread 0 false, .shutdown,
    .closing false, .closing false, .closing false, .closing false, .closing false,
    .caller 0 false]

theorem unsettled_unlisted :
    ¬ ∀ (maxThreads : ℕ) (s : State), 1 ≤ maxThreads →
      Reachable State.step anyStep (.init maxThreads) s →
        total Thread.live s.threads ≤ maxThreads ∧ s.AllSettled := by
  intro h
  have hrun : (run (guarded State.step anyStep) (.init 1) unlistedRun).any
      (fun s => !decide s.AllSettled) = true := by decide
  obtain ⟨s, hs, hunsettled⟩ := exists_reachable_of_run hrun
  exact absurd (h 1 s le_rfl hs).2 (by simpa using hunsettled)

end Eddy.BlockingPool
