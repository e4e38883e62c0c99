import Mathlib.Data.List.Chain
import Eddy.Interleaving
import Eddy.LockOrder

/-!
# The locks of the stages

The sections under the `stage_lock` of a task in `task/harness.rs`, for any number of tasks and
threads. The poll of a future and the destructors of the future and of an output run inside them.
Such code polls `JoinHandle`s, drops them and aborts tasks, each of which may lock the stage of
another task, or of the same one. The state word is the record of its bits; wakes come from anywhere.
-/

namespace Eddy.StageLocks
open Interleaving LockOrder

inductive Stage where
  | running
  | finished
  | consumed
  deriving DecidableEq

structure Task where
  stage : Stage
  notified : Bool
  running : Bool
  cancelled : Bool
  complete : Bool
  joinInterest : Bool
  /-- The `JoinHandle` is there, and nobody is polling it. -/
  handle : Bool

def Task.new : Task := ⟨.running, true, false, false, false, true, true⟩

/-- What is done to a stage under its lock. -/
inductive Kind where
  /-- The future is polled. -/
  | poll
  /-- `finalize` replaces the future by the result. -/
  | finalize
  /-- `discard_finished_output`. -/
  | discard
  /-- `try_read_output`. -/
  | read
  deriving DecidableEq

def Kind.runsUser : Kind → Bool
  | .poll | .finalize | .discard => true
  | .read => false

structure Frame where
  kind : Kind
  task : ℕ
  deriving DecidableEq

structure Thread where
  /-- The sections it is in, the innermost first. -/
  held : List Frame
  /-- The section whose lock it is about to take. -/
  waits : Option Frame
  deriving DecidableEq

def Thread.inUser (t : Thread) : Bool :=
  t.waits.isNone && t.held.head?.all fun f => f.kind.runsUser

structure State where
  tasks : ℕ → Task
  threads : List Thread

inductive PollResult where
  | pending
  | ready
  | panicked
  deriving DecidableEq

inductive Label where
  | wake (task : ℕ)
  /-- A thread runs the queue entry of a task. -/
  | run (i task : ℕ)
  /-- User code polls the `JoinHandle` of a task. -/
  | join (i task : ℕ)
  | dropJoin (i task : ℕ)
  | abort (i task : ℕ)
  /-- The thread gets the lock that it waits for. -/
  | acquire (i : ℕ)
  /-- The thread leaves its innermost section; a poll with a result. -/
  | leave (i : ℕ) (result : PollResult)

namespace State

def init (workers : ℕ) : State := ⟨fun _ => .new, List.replicate workers ⟨[], none⟩⟩

def setTask (s : State) (task : ℕ) (t : Task) : State :=
  { s with tasks := Function.update s.tasks task t }

def setThread (s : State) (i : ℕ) (t : Thread) : State := { s with threads := s.threads.set i t }

def free (s : State) (task : ℕ) : Bool := s.threads.all fun t => t.held.all fun f => f.task ≠ task

/-- `transition_to_running` and what `poll` does next. -/
def run (s : State) (i task : ℕ) (t : Thread) : State :=
  let b := s.tasks task
  if b.complete then s.setTask task { b with notified := false }
  else if b.cancelled then
    (s.setTask task { b with notified := false }).setThread i
      { t with waits := some ⟨.finalize, task⟩ }
  else
    (s.setTask task { b with notified := false, running := true }).setThread i
      { t with waits := some ⟨.poll, task⟩ }

/-- `drop_join_handle_slow`. -/
def dropJoin (s : State) (i task : ℕ) (t : Thread) : State :=
  let b := s.tasks task
  let s := s.setTask task { b with joinInterest := false, handle := false }
  if b.complete then s.setThread i { t with waits := some ⟨.discard, task⟩ } else s

/-- `shutdown`. -/
def abort (s : State) (i task : ℕ) (t : Thread) : State :=
  let b := s.tasks task
  if b.complete || b.cancelled then s
  else
    let s := s.setTask task { b with cancelled := true }
    if b.running || b.notified then s
    else s.setThread i { t with waits := some ⟨.finalize, task⟩ }

/-- What follows a section of `task` when the lock is released. -/
def leave (s : State) (i task : ℕ) (held : List Frame) : Kind → PollResult → State
  | .poll, .pending =>
    let b := s.tasks task
    -- the claim of the thread on a cancelled task lasts until it is finalized
    if b.cancelled then s.setThread i ⟨held, some ⟨.finalize, task⟩⟩
    else (s.setTask task { b with running := false }).setThread i ⟨held, none⟩
  | .poll, .ready | .poll, .panicked => s.setThread i ⟨held, some ⟨.finalize, task⟩⟩
  | .finalize, _ =>
    let b := s.tasks task
    let s := s.setTask task { b with stage := .finished, running := false, complete := true }
    s.setThread i ⟨held, if b.joinInterest then none else some ⟨.discard, task⟩⟩
  | .discard, _ =>
    let b := s.tasks task
    let s := s.setTask task
      { b with stage := if b.stage = .finished then .consumed else b.stage }
    s.setThread i ⟨held, none⟩
  | .read, _ =>
    let b := s.tasks task
    let s := s.setTask task
      (if b.stage = .finished then { b with stage := .consumed } else { b with handle := true })
    s.setThread i ⟨held, none⟩

def step (s : State) : Label → Option State
  | .wake task =>
    let b := s.tasks task
    if b.complete || b.cancelled then some s else some (s.setTask task { b with notified := true })
  | .run i task => s.threads[i]?.bind fun t =>
    if t = ⟨[], none⟩ ∧ (s.tasks task).notified = true ∧ (s.tasks task).running = false then
      some (s.run i task t)
    else none
  | .join i task => s.threads[i]?.bind fun t =>
    if t.inUser = true ∧ (s.tasks task).handle = true then
      some ((s.setTask task { s.tasks task with handle := false }).setThread i
        { t with waits := some ⟨.read, task⟩ })
    else none
  | .dropJoin i task => s.threads[i]?.bind fun t =>
    if t.inUser = true ∧ (s.tasks task).handle = true then some (s.dropJoin i task t) else none
  | .abort i task => s.threads[i]?.bind fun t =>
    if t.inUser = true then some (s.abort i task t) else none
  | .acquire i => s.threads[i]?.bind fun t => t.waits.bind fun f =>
    if s.free f.task then some (s.setThread i ⟨f :: t.held, none⟩) else none
  | .leave i result => s.threads[i]?.bind fun t =>
    match t.held, t.waits with
    | f :: held, none => some (s.leave i f.task held f.kind result)
    | _, _ => none

def holds (s : State) (i : Fin s.threads.length) (task : ℕ) : Prop :=
  ∃ f ∈ (s.threads.get i).held, f.task = task

def wants (s : State) (i : Fin s.threads.length) (task : ℕ) : Prop :=
  ∃ f ∈ (s.threads.get i).waits, f.task = task

/-- Threads wait in a circle, each for a lock that the next one holds. -/
def Deadlocked (s : State) : Prop := LockOrder.Deadlocked s.holds s.wants

/-- What the code of one task does to another goes along `order`. -/
def Follows (order : ℕ → ℕ → Prop) (s : State) : Label → Prop
  | .join i task | .dropJoin i task | .abort i task =>
    ∀ t ∈ s.threads[i]?, ∀ f ∈ t.held.head?, order f.task task
  | _ => True

end State

variable {order : ℕ → ℕ → Prop} {s t : State} {i task : ℕ} {th th' : Thread} {f g : Frame}
  {held : List Frame}

/-- The thread has entered each section out of one whose task comes before. -/
def Thread.Nested (order : ℕ → ℕ → Prop) (th : Thread) : Prop :=
  (th.waits.toList ++ th.held).IsChain fun f g => order g.task f.task

theorem Thread.Nested.wait (h : th.Nested order) (hwaits : th.waits = none)
    (hfirst : ∀ g ∈ th.held.head?, order g.task f.task) :
    Thread.Nested order { th with waits := some f } := by
  rw [Thread.Nested, hwaits, Option.toList_none, List.nil_append] at h
  exact List.isChain_cons.mpr ⟨hfirst, h⟩

/-- A section is followed by another one of the same task. -/
theorem Thread.Nested.replace (h : Thread.Nested order ⟨f :: held, none⟩) (hg : g.task = f.task) :
    Thread.Nested order ⟨held, some g⟩ := by
  obtain ⟨hfirst, hrest⟩ := List.isChain_cons.mp h
  exact List.isChain_cons.mpr ⟨fun x hx => hg ▸ hfirst x hx, hrest⟩

theorem Thread.Nested.leave (h : Thread.Nested order ⟨f :: held, none⟩) :
    Thread.Nested order ⟨held, none⟩ :=
  (List.isChain_cons.mp h).2

/-- A thread enters only sections that come after those it is in. -/
theorem Thread.Nested.follows (h : th.Nested order) (hg : g ∈ th.held) (hf : f ∈ th.waits) :
    Relation.TransGen order g.task f.task := by
  rw [Thread.Nested, Option.mem_def.mp hf, Option.toList_some, List.singleton_append] at h
  have hpairwise : (f :: th.held).Pairwise fun f g => Relation.TransGen order g.task f.task :=
    List.isChain_iff_pairwise.mp (h.imp fun _ _ hfg => .single hfg)
  exact List.rel_of_pairwise_cons hpairwise hg

namespace State

def Nested (order : ℕ → ℕ → Prop) (s : State) : Prop := ∀ th ∈ s.threads, th.Nested order

theorem Nested.setThread (h : s.Nested order) (i : ℕ) (hth : th.Nested order) :
    (s.setThread i th).Nested order := by
  intro x hx
  rcases List.mem_or_eq_of_mem_set hx with hx | rfl
  · exact h x hx
  · exact hth

theorem Nested.setTask (h : s.Nested order) (task : ℕ) (b : Task) :
    (s.setTask task b).Nested order := h

theorem Nested.waits (h : s.Nested order) (hth : s.threads[i]? = some th)
    (huser : th.inUser = true)
    (hfollows : ∀ t ∈ s.threads[i]?, ∀ f ∈ t.held.head?, order f.task task) (kind : Kind) :
    Thread.Nested order { th with waits := some ⟨kind, task⟩ } := by
  have hwaits : th.waits = none := by
    rw [Thread.inUser, Bool.and_eq_true] at huser
    exact Option.isNone_iff_eq_none.mp huser.1
  exact (h th (List.mem_of_getElem? hth)).wait hwaits (hfollows th hth)

theorem Nested.leave {kind : Kind} (h : s.Nested order)
    (hth : Thread.Nested order ⟨⟨kind, task⟩ :: held, none⟩) (i : ℕ) (result : PollResult) :
    (s.leave i task held kind result).Nested order := by
  unfold State.leave
  split
  · dsimp only
    split
    · exact h.setThread i (hth.replace rfl)
    · exact (h.setTask task _).setThread i hth.leave
  · exact h.setThread i (hth.replace rfl)
  · exact h.setThread i (hth.replace rfl)
  · refine (h.setTask task _).setThread i ?_
    split
    · exact hth.leave
    · exact hth.replace rfl
  · exact (h.setTask task _).setThread i hth.leave
  · exact (h.setTask task _).setThread i hth.leave

theorem Nested.step (h : s.Nested order) {l : Label} (hfollows : s.Follows order l)
    (hs : s.step l = some t) : t.Nested order := by
  cases l with
  | wake task =>
    simp only [State.step] at hs
    split at hs
    · cases hs
      exact h
    · cases hs
      exact h
  | run i task =>
    obtain ⟨th, hth, hs⟩ := Option.bind_eq_some_iff.mp hs
    obtain ⟨⟨rfl, -, -⟩, hs⟩ := Option.ite_none_right_eq_some.mp hs
    obtain rfl := Option.some.inj hs
    have hidle := h _ (List.mem_of_getElem? hth)
    unfold State.run
    dsimp only
    split
    · exact h
    · split
      · exact (h.setTask task _).setThread i (hidle.wait rfl nofun)
      · exact (h.setTask task _).setThread i (hidle.wait rfl nofun)
  | join i task =>
    obtain ⟨th, hth, hs⟩ := Option.bind_eq_some_iff.mp hs
    obtain ⟨⟨huser, -⟩, hs⟩ := Option.ite_none_right_eq_some.mp hs
    obtain rfl := Option.some.inj hs
    exact (h.setTask task _).setThread i (h.waits hth huser hfollows .read)
  | dropJoin i task =>
    obtain ⟨th, hth, hs⟩ := Option.bind_eq_some_iff.mp hs
    obtain ⟨⟨huser, -⟩, hs⟩ := Option.ite_none_right_eq_some.mp hs
    obtain rfl := Option.some.inj hs
    unfold State.dropJoin
    dsimp only
    split
    · exact (h.setTask task _).setThread i (h.waits hth huser hfollows .discard)
    · exact h
  | abort i task =>
    obtain ⟨th, hth, hs⟩ := Option.bind_eq_some_iff.mp hs
    obtain ⟨huser, hs⟩ := Option.ite_none_right_eq_some.mp hs
    obtain rfl := Option.some.inj hs
    unfold State.abort
    dsimp only
    split
    · exact h
    · split
      · exact h
      · exact (h.setTask task _).setThread i (h.waits hth huser hfollows .finalize)
  | acquire i =>
    obtain ⟨th, hth, hs⟩ := Option.bind_eq_some_iff.mp hs
    obtain ⟨f, hf, hs⟩ := Option.bind_eq_some_iff.mp hs
    obtain ⟨-, hs⟩ := Option.ite_none_right_eq_some.mp hs
    obtain rfl := Option.some.inj hs
    have hnested := h th (List.mem_of_getElem? hth)
    rw [Thread.Nested, hf] at hnested
    exact h.setThread i hnested
  | leave i result =>
    obtain ⟨⟨held, waits⟩, hth, hs⟩ := Option.bind_eq_some_iff.mp hs
    split at hs
    · rename_i f held hheld hwaits
      obtain rfl : waits = none := hwaits
      obtain rfl := hheld
      obtain rfl := Option.some.inj hs
      exact h.leave (h _ (List.mem_of_getElem? hth)) i result
    · cases hs

theorem nested_init (order : ℕ → ℕ → Prop) (workers : ℕ) : (init workers).Nested order := by
  intro th hth
  rw [List.eq_of_mem_replicate hth]
  exact List.isChain_nil

theorem Nested.ordered (h : s.Nested order) : Ordered order s.holds s.wants := by
  rintro i _ _ ⟨g, hg, rfl⟩ ⟨f, hf, rfl⟩
  exact (h _ (List.get_mem s.threads i)).follows hg hf

/-- Along an order without cycles no threads wait in a circle. -/
theorem Nested.not_deadlocked (h : s.Nested order)
    (hacyclic : ∀ task, ¬ Relation.TransGen order task task) : ¬ s.Deadlocked := by
  refine h.ordered.not_deadlocked ?_ hacyclic
  rintro i _ _ ⟨f, hf, rfl⟩ ⟨g, hg, rfl⟩
  rw [Option.mem_unique hf hg]

/-- The threads that poll the first `m` tasks of a path, each in its poll. -/
structure Polls (path : ℕ → ℕ) (k m : ℕ) (s : State) : Prop where
  length : s.threads.length = k
  polling : ∀ i < m, s.threads[i]? = some ⟨[⟨.poll, path i⟩], none⟩
  idle : ∀ i, m ≤ i → i < k → s.threads[i]? = some ⟨[], none⟩
  fresh : ∀ i, m ≤ i → i < k → s.tasks (path i) = .new
  handle : ∀ i < k, (s.tasks (path i)).handle = true

theorem setThread_setThread (s : State) (i : ℕ) (th th' : Thread) :
    (s.setThread i th).setThread i th' = s.setThread i th' := by
  simp only [setThread, List.set_set]

theorem step_acquire (hth : s.threads[i]? = some th) (hf : th.waits = some f)
    (hfree : s.free f.task = true) :
    s.step (.acquire i) = some (s.setThread i ⟨f :: th.held, none⟩) := by
  simp [step, hth, hf, hfree]

variable {k m : ℕ} {path : ℕ → ℕ}

/-- The next task of the path is not locked. -/
theorem Polls.free (h : s.Polls path k m) (hm : m < k)
    (hpath : ∀ i < k, ∀ j < k, path i = path j → i = j) : s.free (path m) = true := by
  rw [State.free, List.all_eq_true]
  intro th hth
  obtain ⟨j, hj⟩ := List.mem_iff_getElem?.mp hth
  have hjk : j < k := h.length ▸ (List.getElem?_eq_some_iff.mp hj).1
  by_cases hjm : j < m
  · obtain rfl := Option.some.inj (hj.symm.trans (h.polling j hjm))
    have hne : path j ≠ path m := fun heq => hjm.ne (hpath j hjk m hm heq)
    simpa using hne
  · obtain rfl := Option.some.inj (hj.symm.trans (h.idle j (by omega) hjk))
    rfl

theorem Polls.next (h : s.Polls path k m) (hm : m < k)
    (hpath : ∀ i < k, ∀ j < k, path i = path j → i = j)
    (hreach : Reachable step (Follows order) (init k) s) :
    ∃ t, Reachable step (Follows order) (init k) t ∧ t.Polls path k (m + 1) := by
  have hidle := h.idle m le_rfl hm
  have hnew := h.fresh m le_rfl hm
  have hlt : m < s.threads.length := h.length ▸ hm
  have hrun : s.step (.run m (path m)) =
      some ((s.setTask (path m) { Task.new with notified := false, running := true }).setThread m
        ⟨[], some ⟨.poll, path m⟩⟩) := by
    simp [step, hidle, hnew, run, Task.new]
  have hfree : State.free ((s.setTask (path m)
      { Task.new with notified := false, running := true }).setThread m
        ⟨[], some ⟨.poll, path m⟩⟩) (path m) = true := by
    rw [State.free, List.all_eq_true]
    intro th hth
    rcases List.mem_or_eq_of_mem_set hth with hth | rfl
    · exact List.all_eq_true.mp (h.free hm hpath) th hth
    · rfl
  have hacquire := step_acquire (f := ⟨.poll, path m⟩) (List.getElem?_set_self hlt) rfl hfree
  rw [setThread_setThread] at hacquire
  refine ⟨_, (hreach.next (a := Label.run m (path m)) trivial hrun).next
    (a := Label.acquire m) trivial hacquire, ⟨?_, fun i hi => ?_, fun i hi hik => ?_,
      fun i hi hik => ?_, fun i hi => ?_⟩⟩
  · exact List.length_set.trans h.length
  · by_cases him : i = m
    · subst him
      exact List.getElem?_set_self hlt
    · exact (List.getElem?_set_ne (Ne.symm him)).trans (h.polling i (by omega))
  · exact (List.getElem?_set_ne (by omega)).trans (h.idle i (by omega) hik)
  · have hne : path i ≠ path m := fun heq => by
      have := hpath i hik m hm heq
      omega
    exact (Function.update_of_ne hne _ _).trans (h.fresh i (by omega) hik)
  · by_cases hne : path i = path m
    · simp [setThread, setTask, hne, Task.new]
    · exact (congrArg Task.handle (Function.update_of_ne hne _ _)).trans (h.handle i hi)

theorem exists_polls
    (hpath : ∀ i < k, ∀ j < k, path i = path j → i = j) (hm : m ≤ k) :
    ∃ s, Reachable step (Follows order) (init k) s ∧ s.Polls path k m := by
  induction m with
  | zero =>
    refine ⟨_, .start, ⟨List.length_replicate, nofun, fun i _ hi => ?_, fun _ _ _ => rfl,
      fun _ _ => rfl⟩⟩
    exact List.getElem?_replicate_of_lt hi
  | succ m ih =>
    obtain ⟨s, hreach, hs⟩ := ih (by omega)
    exact hs.next hm hpath hreach

/-- The first `m` threads wait, each inside its poll, for the lock of the next task. -/
structure Joins (path : ℕ → ℕ) (k m : ℕ) (s : State) : Prop where
  length : s.threads.length = k
  waiting : ∀ i < m, s.threads[i]? = some ⟨[⟨.poll, path i⟩], some ⟨.read, path (i + 1)⟩⟩
  polling : ∀ i, m ≤ i → i < k → s.threads[i]? = some ⟨[⟨.poll, path i⟩], none⟩
  handle : ∀ i, m ≤ i → i < k → (s.tasks (path (i + 1))).handle = true

theorem Joins.next (h : s.Joins path k m) (hm : m < k)
    (hclosed : path k = path 0) (hwalk : Walk order path k)
    (hpath : ∀ i < k, ∀ j < k, path i = path j → i = j)
    (hreach : Reachable step (Follows order) (init k) s) :
    ∃ t, Reachable step (Follows order) (init k) t ∧ t.Joins path k (m + 1) := by
  have hpolling := h.polling m le_rfl hm
  have hlt : m < s.threads.length := h.length ▸ hm
  have hjoin : s.step (.join m (path (m + 1))) =
      some ((s.setTask (path (m + 1)) { s.tasks (path (m + 1)) with handle := false }).setThread m
        ⟨[⟨.poll, path m⟩], some ⟨.read, path (m + 1)⟩⟩) := by
    simp [step, hpolling, Thread.inUser, Kind.runsUser, h.handle m le_rfl hm]
  have hfollows : s.Follows order (.join m (path (m + 1))) := by
    intro th hth f hf
    obtain rfl := Option.some.inj (hpolling.symm.trans hth)
    obtain rfl := Option.some.inj hf
    exact hwalk m hm
  refine ⟨_, hreach.next (a := Label.join m (path (m + 1))) hfollows hjoin,
    ⟨List.length_set.trans h.length, fun i hi => ?_, fun i hi hik => ?_, fun i hi hik => ?_⟩⟩
  · by_cases him : i = m
    · subst him
      exact List.getElem?_set_self hlt
    · exact (List.getElem?_set_ne (Ne.symm him)).trans (h.waiting i (by omega))
  · exact (List.getElem?_set_ne (by omega)).trans (h.polling i (by omega) hik)
  · have hne : path (i + 1) ≠ path (m + 1) := fun heq => by
      by_cases hlast : i + 1 = k
      · rw [hlast, hclosed] at heq
        have := hpath 0 (by omega) (m + 1) (by omega) heq
        omega
      · have := hpath (i + 1) (by omega) (m + 1) (by omega) heq
        omega
    exact (congrArg Task.handle (Function.update_of_ne hne _ _)).trans (h.handle i (by omega) hik)

theorem exists_joins (hm : m ≤ k) (hclosed : path k = path 0)
    (hwalk : Walk order path k) (hpath : ∀ i < k, ∀ j < k, path i = path j → i = j) :
    ∃ s, Reachable step (Follows order) (init k) s ∧ s.Joins path k m := by
  induction m with
  | zero =>
    have hpolls : ∃ s, Reachable step (Follows order) (init k) s ∧ s.Polls path k k :=
      exists_polls hpath (le_refl k)
    obtain ⟨s, hreach, hs⟩ := hpolls
    refine ⟨s, hreach, ⟨hs.length, nofun, fun i _ hik => hs.polling i hik, fun i _ hik => ?_⟩⟩
    by_cases hlast : i + 1 = k
    · rw [hlast, hclosed]
      exact hs.handle 0 (by omega)
    · exact hs.handle (i + 1) (by omega)
  | succ m ih =>
    obtain ⟨s, hreach, hs⟩ := ih (by omega)
    exact hs.next hm hclosed hwalk hpath hreach

/-- All threads of the circle wait for the next one. -/
theorem Joins.deadlocked (h : s.Joins path k k) (hk : 0 < k)
    (hclosed : path k = path 0) : s.Deadlocked := by
  have hwaits : ∀ i j (hi : i < s.threads.length) (hj : j < s.threads.length),
      path j = path (i + 1) → Waits s.holds s.wants ⟨i, hi⟩ ⟨j, hj⟩ := by
    intro i j hi hj heq
    have hget : ∀ m (hm : m < s.threads.length), s.threads.get ⟨m, hm⟩ =
        ⟨[⟨.poll, path m⟩], some ⟨.read, path (m + 1)⟩⟩ := fun m hm =>
      (List.getElem?_eq_some_iff.mp (h.waiting m (h.length ▸ hm))).2
    refine ⟨path (i + 1), ⟨⟨.read, path (i + 1)⟩, ?_, rfl⟩, ⟨.poll, path j⟩, ?_, heq⟩
    · rw [hget i hi]
      rfl
    · rw [hget j hj]
      exact List.mem_singleton_self _
  have hlength := h.length
  have hreaches : ∀ i (hi : i < s.threads.length), Relation.ReflTransGen (Waits s.holds s.wants)
      ⟨0, by omega⟩ ⟨i, hi⟩ := by
    intro i
    induction i with
    | zero => exact fun _ => .refl
    | succ i ih => exact fun hi => (ih (by omega)).tail (hwaits i (i + 1) _ hi rfl)
  refine ⟨⟨0, by omega⟩, Relation.TransGen.tail' (hreaches (k - 1) (by omega))
    (hwaits (k - 1) 0 _ _ ?_)⟩
  rw [Nat.sub_add_cancel hk, hclosed]

theorem not_deadlocked {workers : ℕ} (hacyclic : ∀ task, ¬ Relation.TransGen order task task)
    (hreach : Reachable step (Follows order) (init workers) s) : ¬ s.Deadlocked := by
  have hnested : s.Nested order := hreach.invariant (nested_init order workers)
    fun _ _ _ hnested hfollows hs => hnested.step hfollows hs
  exact hnested.not_deadlocked hacyclic

end State

end Eddy.StageLocks
