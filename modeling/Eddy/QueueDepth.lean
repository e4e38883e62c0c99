import Eddy.CurrentThreadQueues
import Eddy.ProcessOwnership

/-!
# `queue_depth`

The counter of `instrument.rs` beside the queues it is meant to count: those of a current-thread
runtime, those of the multi-thread runtimes of a process, and the jobs of a runtime's blocking
pool, which count in it too. The counter is an integer here; the `u64` holds it modulo
`2 ^ 64`, so that a negative value is one that has wrapped below zero.
-/

namespace Eddy.QueueDepth
open Interleaving

/-- The value that a snapshot reads. -/
def snapshot (depth : ℤ) : BitVec 64 := BitVec.ofInt 64 depth

structure Pool where
  jobs : ℕ
  /-- Jobs out of the queue that their thread has not counted yet. -/
  taken : ℕ

inductive PoolLabel where
  /-- `submit`, whose push and `task_queued` are in one critical section. -/
  | submit
  /-- `thread_loop` pops a job. -/
  | take
  | taskDequeued

namespace Pool

def new : Pool := ⟨0, 0⟩

def step (p : Pool) : PoolLabel → Option (Pool × ℤ)
  | .submit => some ({ p with jobs := p.jobs + 1 }, 1)
  | .take => if 0 < p.jobs then some ({ jobs := p.jobs - 1, taken := p.taken + 1 }, 0) else none
  | .taskDequeued => if 0 < p.taken then some ({ p with taken := p.taken - 1 }, -1) else none

def counted (p : Pool) : ℤ := p.jobs + p.taken

theorem counted_step {p q : Pool} {a : PoolLabel} {d : ℤ} (h : p.step a = some (q, d)) :
    q.counted = p.counted + d := by
  cases a with
  | submit =>
    cases h
    simp [counted]
    omega
  | take | taskDequeued =>
    simp only [step] at h
    split_ifs at h
    cases h
    simp [counted]
    omega

end Pool

open CurrentThread in
structure CurrentMetrics (α : Type) where
  queues : Queues α
  /-- A task out of the queues that `run_task` has not counted yet. -/
  taken : Option α
  pool : Pool
  depth : ℤ

inductive CurrentLabel (α : Type) where
  | queues (a : CurrentThread.Queues.Label α)
  /-- The pop of `drain_deferred`. -/
  | drainDeferred
  /-- `run_task` counts the task it was given. -/
  | taskDequeued
  | pool (a : PoolLabel)

namespace CurrentMetrics
open CurrentThread

variable {α : Type}

def new (α : Type) (tick : UInt32) : CurrentMetrics α where
  queues := ⟨tick, [], [], [], none, []⟩
  taken := none
  pool := .new
  depth := 0

/-- What `next_task` has returned, once it has. -/
def handed (q : Queues α) : Option α := if q.call.isSome then none else q.returned.getLast?.join

/-- `enqueue` counts an entry before it pushes it, under the lock of the queue. -/
def queued (env : Env) (thread : Thread) (pre : Pre) : ℤ :=
  match enqueue env thread pre with
  | .queue _ _ => 1
  | .goOn _ | .drop _ => 0

def step (s : CurrentMetrics α) : CurrentLabel α → Option (CurrentMetrics α)
  | .queues .nextTask =>
      if s.taken.isSome then none
      else
        some { s with
          queues := s.queues.nextTask
          taken := handed s.queues.nextTask }
  | .queues (.enqueue env thread pre task) =>
      (s.queues.enqueueStep env thread pre task).map fun queues =>
        { s with queues := queues, depth := s.depth + queued env thread pre }
  | .queues (.deferDealloc task) =>
      some { s with queues := { s.queues with deferred := s.queues.deferred ++ [task] } }
  | .drainDeferred =>
      if s.taken.isSome || s.queues.call.isSome then none
      else some { s with
        queues := { s.queues with deferred := s.queues.deferred.tail }
        taken := s.queues.deferred.head? }
  | .taskDequeued =>
      if s.taken.isSome then some { s with taken := none, depth := s.depth - 1 } else none
  | .pool a => (s.pool.step a).map fun (pool, d) => { s with pool := pool, depth := s.depth + d }

def entries (q : Queues α) : ℤ := q.deferred.length + q.localQueue.length + q.injection.length

/-- The entries in the queues. -/
def held (s : CurrentMetrics α) : ℤ := entries s.queues + s.pool.jobs

/-- No `next_task` and no `run_task` is on its way to its count, and no thread of the pool. -/
def AtRest (s : CurrentMetrics α) : Prop :=
  s.queues.call = none ∧ s.taken = none ∧ s.pool.taken = 0

structure Exact (s : CurrentMetrics α) : Prop where
  nonneg : 0 ≤ s.depth
  eq_held : s.AtRest → s.depth = s.held

def defers : CurrentLabel α → Bool
  | .queues (.deferDealloc _) => true
  | _ => false

/-- No deallocation is deferred. -/
def NoDeferral (_ : CurrentMetrics α) (a : CurrentLabel α) : Prop := defers a = false

def balance (s : CurrentMetrics α) : ℤ :=
  s.held + (if s.taken.isSome then 1 else 0) + s.pool.taken - s.depth

/-- A task that `next_task` returns is one entry less. -/
theorem entries_nextTask (q : Queues α) :
    entries q.nextTask + (if (handed q.nextTask).isSome then 1 else 0) = entries q := by
  unfold Queues.nextTask
  split
  case h_1 => simp [entries, handed]
  case h_2 => simp [entries, handed, Queues.goTo]
  case h_3 =>
    split
    case h_1 hdeferred =>
      simp [entries, handed, Queues.finish, hdeferred]
      omega
    case h_2 => simp [entries, handed, Queues.goTo]
  case h_4 =>
    split
    case h_1 hinjection =>
      simp [entries, handed, Queues.finish, hinjection]
      omega
    case h_2 => simp [entries, handed, Queues.goTo]
  case h_5 =>
    split
    case h_1 hlocal =>
      simp [entries, handed, Queues.finish, hlocal]
      omega
    case h_2 => simp [entries, handed, Queues.goTo]
  case h_6 =>
    cases hinjection : q.injection with
    | nil => simp [entries, handed, Queues.finish, hinjection]
    | cons task rest =>
      simp [entries, handed, Queues.finish, hinjection]
      omega

theorem entries_enqueueStep {q q' : Queues α} {env : Env} {thread : Thread} {pre : Pre} {task : α}
    (h : q.enqueueStep env thread pre task = some q') :
    entries q' = entries q + queued env thread pre := by
  unfold Queues.enqueueStep at h
  split_ifs at h
  unfold queued
  split at h <;> cases h <;> simp_all [entries] <;> omega

/-- Every step but a deferred deallocation counts what it does to the queues. -/
theorem balance_step {s t : CurrentMetrics α} {a : CurrentLabel α} (h : s.step a = some t) :
    t.balance = s.balance + if defers a then 1 else 0 := by
  cases a with
  | queues a =>
    cases a with
    | nextTask =>
      simp only [step] at h
      split_ifs at h with htaken
      cases h
      have hentries := entries_nextTask s.queues
      simp only [balance, held, defers, htaken, Bool.false_eq_true, if_false]
      omega
    | enqueue env thread pre task =>
      obtain ⟨queues, hqueues, rfl⟩ := Option.map_eq_some_iff.mp h
      have hentries := entries_enqueueStep hqueues
      simp only [balance, held, defers, hentries, Bool.false_eq_true, if_false]
      omega
    | deferDealloc task =>
      cases h
      simp only [balance, held, entries, defers, List.length_append, List.length_singleton, if_true]
      omega
  | drainDeferred =>
    simp only [step] at h
    split_ifs at h with hbusy
    cases h
    have htaken : s.taken = none := by simp_all
    cases hdeferred : s.queues.deferred with
    | nil => simp [balance, held, entries, defers, hdeferred, htaken]
    | cons task rest =>
      simp [balance, held, entries, defers, hdeferred, htaken]
      omega
  | taskDequeued =>
    simp only [step] at h
    split_ifs at h with htaken
    cases h
    simp only [balance, held, defers, htaken, Option.isSome_none, Bool.false_eq_true, if_true,
      if_false]
    omega
  | pool a =>
    obtain ⟨⟨pool, d⟩, hpool, rfl⟩ := Option.map_eq_some_iff.mp h
    have hcounted := Pool.counted_step hpool
    simp only [Pool.counted] at hcounted
    simp only [balance, held, defers, Bool.false_eq_true, if_false]
    omega

variable {labels : List (CurrentLabel α)}

theorem balance_run {s t : CurrentMetrics α}
    (h : run step s labels = some t) : t.balance = s.balance + labels.countP defers := by
  induction labels generalizing s with
  | nil =>
    cases h
    simp
  | cons a labels ih =>
    obtain ⟨m, hm, hrest⟩ := Option.bind_eq_some_iff.mp h
    rw [ih hrest, balance_step hm, List.countP_cons]
    cases defers a <;> simp
    omega

theorem balance_new (tick : UInt32) : (new α tick).balance = 0 := by
  simp [new, balance, held, entries, Pool.new]

/-- With an exact balance the counter is at least zero, and right at rest. -/
theorem Exact.of_balance {s : CurrentMetrics α} (h : s.balance = 0) : s.Exact where
  nonneg := by
    simp only [balance, held, entries] at h
    split at h <;> omega
  eq_held hrest := by
    obtain ⟨-, htaken, hpool⟩ := hrest
    simp only [balance, htaken, hpool] at h
    simp at h
    omega

/-- Without deferred deallocations the counter is exact all along a run. -/
theorem always_exact (tick : UInt32)
    (h : Obeys step NoDeferral (new α tick) labels) : Always step Exact (new α tick) labels :=
  h.always (I := fun s => s.balance = 0) (fun _ hs => .of_balance hs)
    (fun _ _ _ hs hallowed ht => by
      rw [balance_step ht, hs, show defers _ = false from hallowed]
      rfl)
    (balance_new tick)

theorem obeys_iff_countP {s t : CurrentMetrics α}
    (h : run step s labels = some t) : Obeys step NoDeferral s labels ↔ labels.countP defers = 0 := by
  induction labels generalizing s with
  | nil => simp [Obeys]
  | cons a labels ih =>
    obtain ⟨m, hm, hrest⟩ := Option.bind_eq_some_iff.mp h
    simp only [Obeys, hm, Option.some.injEq, forall_eq', ih hrest, NoDeferral, List.countP_cons]
    cases defers a <;> simp

/-- At rest, each deferred deallocation so far has left the counter one too low. -/
theorem depth_at_rest {tick : UInt32} {s : CurrentMetrics α}
    (h : run step (new α tick) labels = some s) (hrest : s.AtRest) :
    s.depth = s.held - labels.countP defers := by
  obtain ⟨-, htaken, hpool⟩ := hrest
  have hbalance := balance_run h
  rw [balance_new] at hbalance
  simp only [balance, htaken, hpool, Option.isSome_none, Bool.false_eq_true, if_false] at hbalance
  omega

end CurrentMetrics

/-- A `task_queued` or `task_dequeued` that is still to be executed. -/
inductive Count where
  | queued
  | dequeued
  deriving DecidableEq

structure Pending where
  thread : ℕ
  runtime : ℕ
  count : Count

structure MultiMetrics where
  process : Process.State
  pending : List Pending
  pools : ℕ → Pool
  /-- The counter of each runtime. -/
  depth : ℕ → ℤ

inductive MultiLabel where
  | process (e : Process.Event)
  /-- The count at an index of `pending` is executed. -/
  | count (n : ℕ)
  | pool (runtime : ℕ) (a : PoolLabel)

/-- In a run queue, a LIFO slot or the injector, or handed over with one of these. -/
def inQueue : Process.Place → Bool
  | .lifo _ | .queue _ _ | .injector _ | .handedQueue _ | .handedLifo _ => true
  | .polled _ | .dropped _ | .lost => false

/-- A takeover thread is not started, and what it was to serve is dropped uncounted. -/
def fails : Process.Event → Bool
  | .spawnFails _ _ => true
  | _ => false

def actor : Process.Event → Option ℕ
  | .spawn i _ _ | .wake i _ _ | .runLifo i _ | .pop i _ | .popNothing i | .takeInjected i _ _
  | .steal i _ _ _ | .pollReturns i | .blockOn i _ | .blockOnReturns i | .blockOnUnwinds i
  | .blockInPlace i _ | .spawnFails i _ | .request i | .takeoverLeaves i | .resume i => some i
  | .newRuntime _ _ | .newThread | .takeoverStarts _ => none

/-- The counts that follow an event: `schedule` counts the entry once it is pushed, and
`run_task` the one that its worker took, each in the metrics of the task's own runtime. -/
def counts (p p' : Process.State) : Process.Event → List Pending
  | .spawn i _ _ | .wake i _ _ =>
      match p'.entries.getLast? with
      | some e => if inQueue e.place then [⟨i, e.runtime, .queued⟩] else []
      | none => []
  | .runLifo i n | .pop i n | .steal i _ n _ | .takeInjected i n true =>
      match p.entries[n]? with
      | some e => [⟨i, e.runtime, .dequeued⟩]
      | none => []
  | _ => []

def Count.change : Count → ℤ
  | .queued => 1
  | .dequeued => -1

namespace MultiMetrics

def new : MultiMetrics where
  process := .new
  pending := []
  pools := fun _ => .new
  depth := fun _ => 0

/-- `fetch_add` or `fetch_sub` on the counter of a runtime. -/
def add (s : MultiMetrics) (runtime : ℕ) (d : ℤ) : MultiMetrics :=
  { s with depth := Function.update s.depth runtime (s.depth runtime + d) }

/-- A thread that has a count to execute does nothing else before it. -/
def step (s : MultiMetrics) : MultiLabel → Option MultiMetrics
  | .process e =>
      if s.pending.any fun c => actor e = some c.thread then none
      else (s.process.step e).map fun p =>
        { s with process := p, pending := s.pending ++ counts s.process p e }
  | .count n => s.pending[n]?.map fun c =>
      { s with pending := s.pending.eraseIdx n }.add c.runtime c.count.change
  | .pool runtime a => ((s.pools runtime).step a).map fun (pool, d) =>
      { s with pools := Function.update s.pools runtime pool }.add runtime d

end MultiMetrics

def weight (runtime : ℕ) (e : Process.Entry) : ℕ :=
  if e.runtime = runtime ∧ inQueue e.place then 1 else 0

def held (p : Process.State) (runtime : ℕ) : ℕ := total (weight runtime) p.entries

def expected (pending : List Pending) (runtime : ℕ) (count : Count) : ℕ :=
  total (fun c => if c.runtime = runtime ∧ c.count = count then 1 else 0) pending

namespace MultiMetrics

/-- Neither `schedule` nor `run_task` is on its way to a count of the runtime, and no thread of
its pool. -/
def AtRest (s : MultiMetrics) (runtime : ℕ) : Prop :=
  (∀ c ∈ s.pending, c.runtime ≠ runtime) ∧ (s.pools runtime).taken = 0

structure Exact (s : MultiMetrics) : Prop where
  nonneg : ∀ runtime, 0 ≤ s.depth runtime
  eq_held : ∀ runtime, s.AtRest runtime →
    s.depth runtime = held s.process runtime + (s.pools runtime).jobs

/-- The entries and jobs that are held, or taken and not counted yet, are more than those that
are pushed and not counted yet. -/
def Ahead (s : MultiMetrics) (runtime : ℕ) : Prop :=
  expected s.pending runtime .queued <
    held s.process runtime + expected s.pending runtime .dequeued +
      (s.pools runtime).jobs + (s.pools runtime).taken

/-- No `task_dequeued` is executed before the `task_queued` it needs. -/
def InTime (s : MultiMetrics) : MultiLabel → Prop
  | .count n => ∀ c, s.pending[n]? = some c → c.count = .dequeued → s.Ahead c.runtime
  | .pool runtime .taskDequeued => s.Ahead runtime
  | _ => True

/-- No thread takes its worker number for the one of another runtime, and every takeover thread is
started. -/
def Own (s : MultiMetrics) : MultiLabel → Prop
  | .process e => Process.Own s.process e ∧ fails e = false
  | .count _ | .pool _ _ => True

end MultiMetrics

section
open Process
variable {p p' : State} {e : Event} {runtime : ℕ}

theorem total_mapIdx {w : Entry → ℕ} {entries : List Entry} {f : ℕ → Entry → Entry}
    (h : ∀ n e, entries[n]? = some e → w (f n e) = w e) :
    total w (entries.mapIdx f) = total w entries := by
  unfold total
  congr 1
  apply List.ext_getElem?
  intro n
  simp only [List.getElem?_map, List.getElem?_mapIdx, Option.map_map]
  cases hn : entries[n]? with
  | none => rfl
  | some e => simp [h n e hn]

theorem held_relocate {f : ℕ → Place → Place}
    (h : ∀ n e, p.entries[n]? = some e → inQueue (f n e.place) = inQueue e.place) :
    held (p.relocate f) runtime = held p runtime :=
  total_mapIdx fun n e he => by simp [weight, h n e he]

theorem held_move {moved : List ℕ} {source place : Place} (hsource : inQueue source)
    (hplace : inQueue place) : held (p.move moved source place) runtime = held p runtime :=
  held_relocate fun n e _ => by
    split_ifs with hmoved
    · simp only [Bool.and_eq_true, decide_eq_true_eq] at hmoved
      rw [hmoved.2, hsource, hplace]
    · rfl

variable {i n : ℕ} {x : Entry} {q : State}

theorem held_handOver {r w k : ℕ} : held (p.handOver i r w k) runtime = held p runtime :=
  held_relocate fun n e _ => by
    split_ifs with hqueue hlifo
    · rw [hqueue]
      rfl
    · rw [hlifo]
      rfl
    · rfl

theorem getElem?_relocate {f : ℕ → Place → Place}
    (h : p.entries[n]? = some x) :
    (p.relocate f).entries[n]? = some { x with place := f n x.place } := by
  simp [State.relocate, List.getElem?_mapIdx, h]

/-- No entry is lost where the takeover gives its queues to. -/
theorem held_takeBack {r w k : ℕ} (h : ∀ e ∈ (p.takeBack i r w k).entries, e.place ≠ .lost) :
    held (p.takeBack i r w k) runtime = held p runtime := by
  apply held_relocate
  intro n e he
  have hkept := h _ (List.mem_of_getElem? (getElem?_relocate he))
  simp only at hkept
  split_ifs at hkept ⊢ with htaken hqueue hlifo
  · exact absurd rfl hkept
  · rw [hqueue]
    rfl
  · rw [hlifo]
    rfl
  · rfl

theorem held_enter (x : Entry) : held (p.enter x) runtime = held p runtime + weight runtime x := by
  simp [held, State.enter]

theorem weight_of_inQueue (h : inQueue x.place) :
    weight runtime x = if x.runtime = runtime then 1 else 0 := by simp [weight, h]

theorem held_run {th : Thread} {home : Home} {y : Entry} (hn : p.entries[n]? = some y)
    (hruntime : y.runtime = x.runtime) (hplace : inQueue y.place) :
    held (p.run i th home n x) runtime + (if x.runtime = runtime then 1 else 0) =
      held p runtime := by
  have hset := total_set (weight runtime) hn { x with place := .polled home.runtime }
  have hpolled : weight runtime { x with place := .polled home.runtime } = 0 := by
    simp [weight, inQueue]
  rw [weight_of_inQueue hplace, hpolled, hruntime] at hset
  exact hset

theorem held_eq (h : q.entries = p.entries) : held q runtime = held p runtime := by
  rw [held, held, h]

/-- What the counts that follow will add to the books. -/
def Settles (p p' : State) (pending : List Pending) : Prop :=
  ∀ runtime, held p' runtime + expected pending runtime .dequeued =
    held p runtime + expected pending runtime .queued

theorem Settles.of_held (h : ∀ runtime, held p' runtime = held p runtime) : Settles p p' [] :=
  fun runtime => by simp [expected, h runtime]

/-- `schedule` pushes one entry, if it does not panic. -/
theorem schedule_entries {x : ℕ} {moved : List ℕ} (hs : p.Schedules i x moved p') :
    ∃ q e, p' = q.enter e ∧ ∀ runtime, held q runtime = held p runtime := by
  cases hs with
  | lifo | injector => exact ⟨p, _, rfl, fun _ => rfl⟩
  | queue => exact ⟨_, _, rfl, fun _ => held_move (p := p.touch _ _ _) rfl rfl⟩
  | lost => exact ⟨p.touch _ _ _, _, rfl, fun _ => rfl⟩

theorem settles_enter
    (h : ∀ runtime, held q runtime = held p runtime) :
    Settles p (q.enter x)
      (match (q.enter x).entries.getLast? with
        | some e => if inQueue e.place then [⟨i, e.runtime, .queued⟩] else []
        | none => []) := by
  intro runtime
  have hlast : (q.enter x).entries.getLast? = some x := by simp [State.enter]
  rw [held_enter, h, hlast]
  by_cases hplace : inQueue x.place
  · simp [hplace, weight_of_inQueue hplace, expected]
  · simp [hplace, weight, expected]

theorem settles_run {th : Thread} {home : Home} {y : Entry}
    (hq : ∀ runtime, held q runtime = held p runtime) (hn : q.entries[n]? = some y)
    (hruntime : y.runtime = x.runtime) (hplace : inQueue y.place) :
    Settles p (q.run i th home n x) [⟨i, x.runtime, .dequeued⟩] := by
  intro runtime
  have hrun : held (q.run i th home n x) runtime + (if x.runtime = runtime then 1 else 0) =
      held q runtime := held_run hn hruntime hplace
  rw [hq] at hrun
  simpa [expected] using hrun

theorem settles_step (hok : Ok p) (hown : Process.Own p e) (hstarts : fails e = false)
    (hs : p.step e = some p') :
    Settles p p' (counts p p' e) := by
  have hlost : ∀ e ∈ p'.entries, e.place ≠ .lost := by
    intro x hx hplace
    have hplaced := (hok.step hown hs).entries x hx
    rw [Placed, hplace] at hplaced
    exact hplaced
  cases State.steps hs with
  | newRuntime | newThread => exact .of_held fun _ => rfl
  | spawn hi hrt hs =>
    obtain ⟨q, x, rfl, hq⟩ := schedule_entries hs
    refine settles_enter fun runtime => (hq runtime).trans (held_eq ?_)
    split <;> rfl
  | wake hs =>
    obtain ⟨q, x, rfl, hq⟩ := schedule_entries hs
    exact settles_enter hq
  | runLifo hloop hn hplace | pop hloop hn hplace | takeInjected hloop hn hplace =>
    simp only [counts, hn]
    exact settles_run (fun _ => rfl) hn rfl (by rw [hplace]; rfl)
  | fillQueue => exact .of_held fun _ => held_move (p := p.touch _ _ _) rfl rfl
  | steal hloop hn hvictim hplace =>
    simp only [counts, hn]
    refine settles_run (fun _ => held_move (p := p.touch _ _ _) rfl rfl)
      (getElem?_relocate (p := p.touch _ _ _) hn) rfl ?_
    dsimp only
    split_ifs
    · rfl
    · rw [hplace]
      rfl
  | popNothing | pollReturns | blockOn | blockOnReturns | blockOnUnwinds | strayBlockInPlace
  | request => exact .of_held fun _ => rfl
  | spawnFails => cases hstarts
  | blockInPlace => exact .of_held fun _ => held_handOver (p := p.touch _ _ _)
  | takeoverStarts => exact .of_held fun _ => held_takeBack hlost
  | takeoverLeaves => exact .of_held fun _ => held_handOver
  | resume => exact .of_held fun _ => held_takeBack hlost

end

namespace MultiMetrics

variable {s t : MultiMetrics}

structure Books (s : MultiMetrics) : Prop where
  ok : Process.Ok s.process
  nonneg : ∀ runtime, 0 ≤ s.depth runtime
  balance : ∀ runtime, s.depth runtime + expected s.pending runtime .queued =
    held s.process runtime + expected s.pending runtime .dequeued + (s.pools runtime).counted

theorem books_new : Books new where
  ok := Process.ok_new
  nonneg := fun _ => le_rfl
  balance := fun _ => rfl

/-- When nothing is on its way, the counter is exact. -/
theorem Books.exact (h : Books s) : s.Exact where
  nonneg := h.nonneg
  eq_held runtime hrest := by
    have hbalance := h.balance runtime
    have hnone : ∀ count, expected s.pending runtime count = 0 := by
      intro count
      rw [expected, total_eq_zero_iff]
      intro c hc
      simp [hrest.1 c hc]
    rw [hnone, hnone, Pool.counted, hrest.2] at hbalance
    omega

/-- The counter is above zero just when a `task_dequeued` is in time. -/
theorem Books.ahead_iff (h : Books s) {runtime : ℕ} : s.Ahead runtime ↔ 0 < s.depth runtime := by
  have hbalance := h.balance runtime
  rw [Pool.counted] at hbalance
  unfold Ahead
  omega

@[simp] theorem add_process (s : MultiMetrics) (runtime : ℕ) (d : ℤ) :
    (s.add runtime d).process = s.process := rfl

@[simp] theorem add_pending (s : MultiMetrics) (runtime : ℕ) (d : ℤ) :
    (s.add runtime d).pending = s.pending := rfl

@[simp] theorem add_pools (s : MultiMetrics) (runtime : ℕ) (d : ℤ) :
    (s.add runtime d).pools = s.pools := rfl

theorem add_depth (s : MultiMetrics) (runtime : ℕ) (d : ℤ) (r : ℕ) :
    (s.add runtime d).depth r = s.depth r + if r = runtime then d else 0 := by
  unfold add
  by_cases hr : r = runtime
  · subst hr
    simp
  · simp [hr]

theorem Books.event {e : Process.Event} {p : Process.State} (h : Books s)
    (hown : Process.Own s.process e) (hstarts : fails e = false)
    (hp : s.process.step e = some p) :
    Books { s with process := p, pending := s.pending ++ counts s.process p e } where
  ok := h.ok.step hown hp
  nonneg := h.nonneg
  balance runtime := by
    have hbalance := h.balance runtime
    have hsettles := settles_step h.ok hown hstarts hp runtime
    simp only [expected, total_append] at hbalance hsettles ⊢
    omega

theorem Books.count {n : ℕ} {c : Pending} (h : Books s) (hc : s.pending[n]? = some c)
    (hahead : c.count = .dequeued → s.Ahead c.runtime) :
    Books ({ s with pending := s.pending.eraseIdx n }.add c.runtime c.count.change) where
  ok := h.ok
  nonneg runtime := by
    have hnonneg := h.nonneg runtime
    rw [add_depth]
    split_ifs with hruntime
    · cases hcount : c.count with
      | queued =>
        simp only [Count.change]
        omega
      | dequeued =>
        have hpos := h.ahead_iff.mp (hahead hcount)
        rw [← hruntime] at hpos
        simp only [Count.change]
        omega
    · simpa using hnonneg
  balance runtime := by
    have hbalance := h.balance runtime
    have hqueued := total_eraseIdx
      (fun c : Pending => if c.runtime = runtime ∧ c.count = .queued then 1 else 0) hc
    have hdequeued := total_eraseIdx
      (fun c : Pending => if c.runtime = runtime ∧ c.count = .dequeued then 1 else 0) hc
    rw [add_depth]
    simp only [expected, add_process, add_pending, add_pools] at hbalance ⊢
    rw [hqueued, hdequeued] at hbalance
    by_cases hruntime : c.runtime = runtime
    · cases hcount : c.count <;>
        simp only [hruntime, hcount, Count.change, true_and, reduceCtorEq, if_true, if_false]
          at hbalance ⊢ <;> omega
    · simp only [hruntime, Ne.symm hruntime, false_and, if_false] at hbalance ⊢
      omega

theorem Books.pool {runtime : ℕ} {a : PoolLabel} {pool : Pool} {d : ℤ} (h : Books s)
    (hpool : (s.pools runtime).step a = some (pool, d)) (hnonneg : 0 ≤ s.depth runtime + d) :
    Books ({ s with pools := Function.update s.pools runtime pool }.add runtime d) where
  ok := h.ok
  nonneg r := by
    rw [add_depth]
    split_ifs with hr
    · rw [hr]
      exact hnonneg
    · simpa using h.nonneg r
  balance r := by
    have hbalance := h.balance r
    rw [add_depth]
    simp only [add_process, add_pending, add_pools]
    by_cases hr : r = runtime
    · have hcounted := Pool.counted_step hpool
      subst hr
      rw [if_pos rfl, Function.update_self, hcounted]
      omega
    · rw [if_neg hr, Function.update_of_ne hr]
      omega

theorem Books.step {a : MultiLabel} (h : Books s) (hown : s.Own a) (hintime : s.InTime a)
    (hs : s.step a = some t) : Books t := by
  cases a with
  | process e =>
    simp only [MultiMetrics.step] at hs
    split_ifs at hs
    obtain ⟨p, hp, rfl⟩ := Option.map_eq_some_iff.mp hs
    exact h.event hown.1 hown.2 hp
  | count n =>
    obtain ⟨c, hc, rfl⟩ := Option.map_eq_some_iff.mp hs
    exact h.count hc (hintime c hc)
  | pool runtime a =>
    obtain ⟨⟨pool, d⟩, hpool, rfl⟩ := Option.map_eq_some_iff.mp hs
    refine h.pool hpool ?_
    have hnonneg := h.nonneg runtime
    cases a with
    | submit =>
      cases hpool
      omega
    | take =>
      simp only [Pool.step] at hpool
      split_ifs at hpool
      cases hpool
      omega
    | taskDequeued =>
      have hpos := h.ahead_iff.mp hintime
      simp only [Pool.step] at hpool
      split_ifs at hpool
      cases hpool
      omega

/-- A `task_dequeued` that is not in time takes the counter below zero. -/
theorem Books.inTime {a : MultiLabel} (h : Books s) (hs : s.step a = some t) (ht : t.Exact) :
    s.InTime a := by
  cases a with
  | process e => trivial
  | count n =>
    obtain ⟨c, hc, rfl⟩ := Option.map_eq_some_iff.mp hs
    intro c' hc' hcount
    obtain rfl : c = c' := Option.some.inj (hc.symm.trans hc')
    have hnonneg := ht.nonneg c.runtime
    rw [add_depth, if_pos rfl, hcount] at hnonneg
    simp only [Count.change] at hnonneg
    exact h.ahead_iff.mpr (by omega)
  | pool runtime a =>
    obtain ⟨⟨pool, d⟩, hpool, rfl⟩ := Option.map_eq_some_iff.mp hs
    cases a with
    | submit | take => trivial
    | taskDequeued =>
      simp only [Pool.step] at hpool
      split_ifs at hpool
      cases hpool
      have hnonneg := ht.nonneg runtime
      rw [add_depth, if_pos rfl] at hnonneg
      exact h.ahead_iff.mpr (by simp only at hnonneg; omega)

theorem always_exact_iff {labels : List MultiLabel} (h : Obeys step Own new labels) :
    Always step Exact new labels ↔ Obeys step InTime new labels :=
  h.always_iff (I := Books) (fun _ hs => hs.exact)
    (fun _ _ _ hs hown hintime ht => hs.step hown hintime ht)
    (fun _ _ _ hs _ ht hexact => hs.inTime ht hexact) books_new

end MultiMetrics

instance (s : CurrentMetrics α) (a : CurrentLabel α) : Decidable (s.NoDeferral a) :=
  inferInstanceAs (Decidable (_ = _))

instance (s : MultiMetrics) : (a : MultiLabel) → Decidable (s.Own a)
  | .process _ => inferInstanceAs (Decidable (_ ∧ _))
  | .count _ | .pool _ _ => .isTrue trivial

instance (s : MultiMetrics) (runtime : ℕ) : Decidable (s.Ahead runtime) :=
  inferInstanceAs (Decidable (_ < _))

instance (s : MultiMetrics) : (a : MultiLabel) → Decidable (s.InTime a)
  | .count n => inferInstanceAs (Decidable (∀ c ∈ s.pending[n]?, c.count = .dequeued → s.Ahead _))
  | .pool runtime .taskDequeued => inferInstanceAs (Decidable (s.Ahead runtime))
  | .process _ | .pool _ .submit | .pool _ .take => .isTrue trivial

/-- Another thread wakes a task, whose entry `next_task` returns at its fifth access. -/
def countedCurrent : List (CurrentLabel ℕ) :=
  .queues (.enqueue ⟨true, false, false, true⟩ .other .inject 7) ::
    List.replicate 5 (.queues .nextTask) ++ [.taskDequeued]

/-- A thread spawns a task and counts it before a worker has taken it. -/
def countedMulti : List MultiLabel :=
  [.process (.newRuntime 1 true), .process .newThread, .process (.spawn 1 0 []), .count 0,
    .process (.takeInjected 0 0 false), .process (.pop 0 0), .count 0]

/-- Another thread drops the last reference of a task, and `block_on` frees the task. -/
def foreignDrop :
    List (CurrentLabel ℕ) := [.queues (.deferDealloc 7), .drainDeferred, .taskDequeued]

/-- A thread pushes a task to the injector; before it has counted the task, a worker has taken
it, counted it out and polls it. -/
def lateCount : List MultiLabel :=
  [.process (.newRuntime 1 true), .process .newThread, .process (.spawn 1 0 []),
    .process (.takeInjected 0 0 false), .process (.pop 0 0), .count 1]

end Eddy.QueueDepth
