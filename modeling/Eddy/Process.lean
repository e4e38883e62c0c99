import Eddy.Interleaving

/-!
# Several multi-thread runtimes in one process

`scheduler/multi_thread/worker.rs` with the thread-locals `WORKER_ID` and `LIFO_SLOT`, which
say nothing about the runtime they belong to. Any number of runtimes and threads; a worker
that blocks in place hands its queues over to a takeover thread. A task, and any other code, may
spawn, wake, block on a future and block in place, through the handle of any runtime.

What matters is who touches which queue. The order in which a queue hands out its entries, how many
are moved and which of its sources a worker looks at next are left open. No runtime is shut down.
-/

namespace Eddy.Process

structure Runtime where
  workers : ℕ
  lifoSlotEnabled : Bool
  nextWorker : ℕ

structure Task where
  runtime : ℕ
  /-- `target` of the handle that the task was spawned with. -/
  target : ℕ
  ownerId : ℕ

/-- A nested call on a thread. -/
inductive Call where
  | poll
  | blockOn (wasWorker : Option ℕ)
  | blockInPlace (takeover : ℕ)

/-- The `worker_loop` that a thread executes. -/
structure Home where
  runtime : ℕ
  worker : ℕ
  takeover : Option ℕ
  deriving DecidableEq

structure Thread where
  home : Option Home
  workerId : Option ℕ
  calls : List Call

inductive Phase where
  | handed
  | serving
  | returned
  | resumed
  deriving DecidableEq

structure Takeover where
  runtime : ℕ
  worker : ℕ
  phase : Phase
  requested : Bool

inductive Place where
  /-- `LIFO_SLOT` of a thread. -/
  | lifo (thread : ℕ)
  | queue (runtime worker : ℕ)
  | injector (runtime : ℕ)
  /-- In the hands of a takeover. -/
  | handedQueue (takeover : ℕ)
  | handedLifo (takeover : ℕ)
  /-- Taken by a worker of the runtime and polled. -/
  | polled (runtime : ℕ)
  /-- Dropped with a takeover of the runtime whose thread was not started. -/
  | dropped (runtime : ℕ)
  | lost
  deriving DecidableEq

/-- A task that was scheduled; `runtime` is the one of its scheduler handle. -/
structure Entry where
  task : ℕ
  runtime : ℕ
  place : Place

/-- A `push_back`, `push_overflow` or `pop` on a worker's queue, or another use of it as its
owner, with the threads that serve the worker at that moment. -/
structure Access where
  thread : ℕ
  runtime : ℕ
  worker : ℕ
  servers : List ℕ

structure State where
  runtimes : List Runtime
  tasks : List Task
  threads : List Thread
  takeovers : List Takeover
  entries : List Entry
  accesses : List Access

def State.new : State where
  runtimes := []
  tasks := []
  threads := []
  takeovers := []
  entries := []
  accesses := []

def Call.isBlockInPlace : Call → Bool
  | .blockInPlace _ => true
  | _ => false

def Thread.handedOver (th : Thread) : Bool := th.calls.any Call.isBlockInPlace

def Thread.serves (runtime worker : ℕ) (th : Thread) : Bool :=
  th.home.any (fun home => home.runtime = runtime && home.worker = worker) && !th.handedOver

/-- Nobody serves a worker while its queues are being handed over or back. -/
def Takeover.holds (runtime worker : ℕ) (tk : Takeover) : Bool :=
  tk.runtime = runtime && tk.worker = worker && (tk.phase = .handed || tk.phase = .returned)

/-- `schedule`: the worker that polled the task last, or the one it was spawned for. -/
def Runtime.target (rt : Runtime) (task : Task) : ℕ :=
  if task.ownerId < rt.workers then task.ownerId else task.target

namespace State

def servers (s : State) (runtime worker : ℕ) : List ℕ :=
  (List.range s.threads.length).filter fun i => s.threads[i]?.any (Thread.serves runtime worker)

def touch (s : State) (i runtime worker : ℕ) : State :=
  { s with accesses := s.accesses ++ [⟨i, runtime, worker, s.servers runtime worker⟩] }

def enter (s : State) (e : Entry) : State := { s with entries := s.entries ++ [e] }

def relocate (s : State) (f : ℕ → Place → Place) : State :=
  { s with entries := s.entries.mapIdx fun n e => { e with place := f n e.place } }

/-- The entries of `moved` that are at one place go to another. -/
def move (s : State) (moved : List ℕ) (source place : Place) : State :=
  s.relocate fun n p => if moved.contains n && p = source then place else p

def lifoFull (s : State) (i : ℕ) : Bool := s.entries.any fun e => e.place = .lifo i

def setThread (s : State) (i : ℕ) (th : Thread) : State := { s with threads := s.threads.set i th }

def addTask (s : State) (task : Task) : State := { s with tasks := s.tasks ++ [task] }

/-- `next_worker.fetch_add(1)`. -/
def countWorker (s : State) (runtime : ℕ) : State :=
  { s with runtimes := s.runtimes.modify runtime fun rt =>
      { rt with nextWorker := (rt.nextWorker + 1) % 2 ^ 64 } }

/-- `MultiThreadHandle::schedule` of task `x` on thread `i`. When the queue is full, the entries
of `moved` overflow to the injector. When the index is out of bounds, unwinding drops the entry. -/
def schedule (s : State) (i x : ℕ) (moved : List ℕ) : Option State :=
  s.threads[i]?.bind fun th => s.tasks[x]?.bind fun task => s.runtimes[task.runtime]?.map fun rt =>
    let target := rt.target task
    if th.workerId = some target then
      if rt.lifoSlotEnabled && !s.lifoFull i then s.enter ⟨x, task.runtime, .lifo i⟩
      else if target < rt.workers then
        ((s.touch i task.runtime target).move moved (.queue task.runtime target)
          (.injector task.runtime)).enter ⟨x, task.runtime, .queue task.runtime target⟩
      else
        (s.touch i task.runtime target).enter ⟨x, task.runtime, .lost⟩
    else s.enter ⟨x, task.runtime, .injector task.runtime⟩

/-- `MultiThread::spawn_named` on thread `i`. -/
def spawn (s : State) (i runtime : ℕ) (moved : List ℕ) : Option State :=
  s.threads[i]?.bind fun th => s.runtimes[runtime]?.bind fun rt =>
    let target := th.workerId.getD (rt.nextWorker % rt.workers)
    let counted := if th.workerId.isNone then s.countWorker runtime else s
    (counted.addTask ⟨runtime, target, target % 2 ^ 32⟩).schedule i s.tasks.length moved

/-- The thread is in its `worker_loop` and in no nested call. -/
def loop (s : State) (i : ℕ) : Option (Thread × Home) :=
  s.threads[i]?.bind fun th => if th.calls.isEmpty then th.home.map fun home => (th, home) else none

/-- `run_task` of entry `n`. -/
def run (s : State) (i : ℕ) (th : Thread) (home : Home) (n : ℕ) (e : Entry) : State :=
  { s with
    entries := s.entries.set n { e with place := .polled home.runtime }
    tasks := s.tasks.modify e.task fun task => { task with ownerId := home.worker % 2 ^ 32 }
    threads := s.threads.set i { th with calls := .poll :: th.calls } }

/-- The queues of a worker, and the LIFO slot of the thread that serves it, go to a takeover. -/
def handOver (s : State) (i runtime worker k : ℕ) : State :=
  s.relocate fun _ p =>
    if p = .queue runtime worker then .handedQueue k
    else if p = .lifo i then .handedLifo k
    else p

/-- The queues of a worker, and the LIFO slot of the thread that serves it, are dropped. -/
def abandon (s : State) (i runtime worker : ℕ) : State :=
  s.relocate fun _ p => if p = .queue runtime worker || p = .lifo i then .dropped runtime else p

/-- What a takeover holds replaces the worker's queue and the thread's LIFO slot. -/
def takeBack (s : State) (i runtime worker k : ℕ) : State :=
  s.relocate fun _ p =>
    if p = .queue runtime worker || p = .lifo i then .lost
    else if p = .handedQueue k then .queue runtime worker
    else if p = .handedLifo k then .lifo i
    else p

end State

inductive Event where
  | newRuntime (workers : ℕ) (lifoSlot : Bool)
  | newThread
  | spawn (i runtime : ℕ) (moved : List ℕ)
  | wake (i x : ℕ) (moved : List ℕ)
  | runLifo (i n : ℕ)
  | pop (i n : ℕ)
  /-- `pop` finds nothing. -/
  | popNothing (i : ℕ)
  /-- `take_injected`; with room in the local queue the entry goes there. -/
  | takeInjected (i n : ℕ) (full : Bool)
  /-- `steal_into`: entry `n` is run, those of `moved` go to the thief's queue. -/
  | steal (i victim n : ℕ) (moved : List ℕ)
  | pollReturns (i : ℕ)
  | blockOn (i runtime : ℕ)
  | blockOnReturns (i : ℕ)
  /-- The root future panics. -/
  | blockOnUnwinds (i : ℕ)
  | blockInPlace (i runtime : ℕ)
  /-- `block_in_place` whose takeover thread is not started: the `expect` panics. -/
  | spawnFails (i runtime : ℕ)
  /-- The future of `block_in_place` is ready, and the worker wants its queues back. -/
  | request (i : ℕ)
  | takeoverStarts (k : ℕ)
  | takeoverLeaves (i : ℕ)
  | resume (i : ℕ)

/-- The worker threads of a new runtime. -/
def workerThreads (runtime workers : ℕ) : List Thread :=
  (List.range workers).map fun worker =>
    { home := some ⟨runtime, worker, none⟩, workerId := some worker, calls := [] }

def State.step (s : State) : Event → Option State
  | .newRuntime workers lifoSlot =>
      some { s with
        runtimes := s.runtimes ++ [⟨max workers 1, lifoSlot, 0⟩]
        threads := s.threads ++ workerThreads s.runtimes.length (max workers 1) }
  | .newThread => some { s with threads := s.threads ++ [⟨none, none, []⟩] }
  | .spawn i runtime moved => s.spawn i runtime moved
  | .wake i x moved => s.schedule i x moved
  | .runLifo i n =>
      (s.loop i).bind fun (th, home) => s.entries[n]?.bind fun e =>
        if e.place = .lifo i then some (s.run i th home n e) else none
  | .pop i n =>
      (s.loop i).bind fun (th, home) => s.entries[n]?.bind fun e =>
        if e.place = .queue home.runtime home.worker then
          some ((s.touch i home.runtime home.worker).run i th home n e)
        else none
  | .popNothing i => (s.loop i).map fun (_, home) => s.touch i home.runtime home.worker
  | .takeInjected i n full =>
      (s.loop i).bind fun (th, home) => s.entries[n]?.bind fun e =>
        if e.place = .injector home.runtime then
          let touched := s.touch i home.runtime home.worker
          if full then some (touched.run i th home n e)
          else some (touched.move [n] (.injector home.runtime)
            (.queue home.runtime home.worker))
        else none
  | .steal i victim n moved =>
      (s.loop i).bind fun (th, home) => s.entries[n]?.bind fun e =>
        if victim ≠ home.worker && e.place = .queue home.runtime victim then
          some (((s.touch i home.runtime home.worker).move moved (.queue home.runtime victim)
            (.queue home.runtime home.worker)).run i th home n e)
        else none
  | .pollReturns i =>
      s.threads[i]?.bind fun th =>
        match th.calls with
        | .poll :: calls => some (s.setThread i { th with calls := calls })
        | _ => none
  | .blockOn i runtime =>
      s.threads[i]?.bind fun th =>
        if runtime < s.runtimes.length then
          some ((s.countWorker runtime).setThread i
            { th with workerId := none, calls := .blockOn th.workerId :: th.calls })
        else none
  | .blockOnReturns i =>
      s.threads[i]?.bind fun th =>
        match th.calls with
        | .blockOn wasWorker :: calls =>
            some (s.setThread i { th with workerId := wasWorker.or th.workerId, calls := calls })
        | _ => none
  | .blockOnUnwinds i =>
      s.threads[i]?.bind fun th =>
        match th.calls with
        | .blockOn _ :: calls => some (s.setThread i { th with calls := calls })
        | _ => none
  | .blockInPlace i runtime =>
      s.threads[i]?.bind fun th => s.runtimes[runtime]?.bind fun rt => th.workerId.map fun worker =>
        if worker < rt.workers then
          let k := s.takeovers.length
          { ((s.touch i runtime worker).handOver i runtime worker k).setThread i
              { th with workerId := none, calls := .blockInPlace k :: th.calls } with
            takeovers := s.takeovers ++ [⟨runtime, worker, .handed, false⟩] }
        else s.touch i runtime worker
  | .spawnFails i runtime =>
      s.threads[i]?.bind fun th => s.runtimes[runtime]?.bind fun rt => th.workerId.bind fun worker =>
        if worker < rt.workers then
          some (((s.touch i runtime worker).abandon i runtime worker).setThread i
            { th with workerId := none })
        else none
  | .request i =>
      s.threads[i]?.bind fun th =>
        match th.calls with
        | .blockInPlace k :: _ =>
            s.takeovers[k]?.map fun tk =>
              { s with takeovers := s.takeovers.set k { tk with requested := true } }
        | _ => none
  | .takeoverStarts k =>
      s.takeovers[k]?.bind fun tk =>
        if tk.phase = .handed then
          let home := ⟨tk.runtime, tk.worker, some k⟩
          some { s.takeBack s.threads.length tk.runtime tk.worker k with
            takeovers := s.takeovers.set k { tk with phase := .serving }
            threads := s.threads ++ [⟨some home, some tk.worker, []⟩] }
        else none
  | .takeoverLeaves i =>
      (s.loop i).bind fun (_, home) => home.takeover.bind fun k => s.takeovers[k]?.bind fun tk =>
        if tk.phase = .serving && tk.requested && s.entries.all fun e =>
            e.place ≠ .lifo i && e.place ≠ .queue home.runtime home.worker then
          some { (s.handOver i home.runtime home.worker k).setThread i ⟨none, none, []⟩ with
            takeovers := s.takeovers.set k { tk with phase := .returned } }
        else none
  | .resume i =>
      s.threads[i]?.bind fun th =>
        match th.calls with
        | .blockInPlace k :: calls =>
            s.takeovers[k]?.bind fun tk =>
              if tk.phase = .returned then
                some { (s.takeBack i tk.runtime tk.worker k).setThread i
                    { th with workerId := some tk.worker, calls := calls } with
                  takeovers := s.takeovers.set k { tk with phase := .resumed } }
              else none
        | _ => none

namespace State

/-- The four places that `schedule` has for an entry. -/
inductive Schedules (s : State) (i x : ℕ) (moved : List ℕ) : State → Prop
  | lifo {th : Thread} {task : Task} {rt : Runtime} (hi : s.threads[i]? = some th)
      (hx : s.tasks[x]? = some task) (hrt : s.runtimes[task.runtime]? = some rt)
      (htarget : th.workerId = some (rt.target task))
      (hlifo : (rt.lifoSlotEnabled && !s.lifoFull i) = true) :
      Schedules s i x moved (s.enter ⟨x, task.runtime, .lifo i⟩)
  | queue {th : Thread} {task : Task} {rt : Runtime} (hi : s.threads[i]? = some th)
      (hx : s.tasks[x]? = some task) (hrt : s.runtimes[task.runtime]? = some rt)
      (htarget : th.workerId = some (rt.target task))
      (hlifo : ¬ (rt.lifoSlotEnabled && !s.lifoFull i) = true)
      (hbound : rt.target task < rt.workers) :
      Schedules s i x moved
        (((s.touch i task.runtime (rt.target task)).move moved
          (.queue task.runtime (rt.target task)) (.injector task.runtime)).enter
            ⟨x, task.runtime, .queue task.runtime (rt.target task)⟩)
  | lost {th : Thread} {task : Task} {rt : Runtime} (hi : s.threads[i]? = some th)
      (hx : s.tasks[x]? = some task) (hrt : s.runtimes[task.runtime]? = some rt)
      (htarget : th.workerId = some (rt.target task))
      (hlifo : ¬ (rt.lifoSlotEnabled && !s.lifoFull i) = true)
      (hbound : ¬ rt.target task < rt.workers) :
      Schedules s i x moved
        ((s.touch i task.runtime (rt.target task)).enter ⟨x, task.runtime, .lost⟩)
  | injector {th : Thread} {task : Task} {rt : Runtime} (hi : s.threads[i]? = some th)
      (hx : s.tasks[x]? = some task) (hrt : s.runtimes[task.runtime]? = some rt)
      (htarget : ¬ th.workerId = some (rt.target task)) :
      Schedules s i x moved (s.enter ⟨x, task.runtime, .injector task.runtime⟩)

theorem schedules {s t : State} {i x : ℕ} {moved : List ℕ} (h : s.schedule i x moved = some t) :
    s.Schedules i x moved t := by
  obtain ⟨th, hi, h⟩ := Option.bind_eq_some_iff.mp h
  obtain ⟨task, hx, h⟩ := Option.bind_eq_some_iff.mp h
  obtain ⟨rt, hrt, rfl⟩ := Option.map_eq_some_iff.mp h
  dsimp only
  split_ifs with htarget hlifo hbound
  · exact .lifo hi hx hrt htarget hlifo
  · exact .queue hi hx hrt htarget hlifo hbound
  · exact .lost hi hx hrt htarget hlifo hbound
  · exact .injector hi hx hrt htarget

/-- Every event with the conditions under which it happens and what it leaves. -/
inductive Steps (s : State) : Event → State → Prop
  | newRuntime (workers : ℕ) (lifoSlot : Bool) :
      Steps s (.newRuntime workers lifoSlot) { s with
        runtimes := s.runtimes ++ [⟨max workers 1, lifoSlot, 0⟩]
        threads := s.threads ++ workerThreads s.runtimes.length (max workers 1) }
  | newThread : Steps s .newThread { s with threads := s.threads ++ [⟨none, none, []⟩] }
  | spawn {i runtime : ℕ} {moved : List ℕ} {th : Thread} {rt : Runtime} {t : State}
      (hi : s.threads[i]? = some th) (hrt : s.runtimes[runtime]? = some rt)
      (hs : ((if th.workerId.isNone then s.countWorker runtime else s).addTask
        ⟨runtime, th.workerId.getD (rt.nextWorker % rt.workers),
          th.workerId.getD (rt.nextWorker % rt.workers) % 2 ^ 32⟩).Schedules i s.tasks.length
            moved t) :
      Steps s (.spawn i runtime moved) t
  | wake {i x : ℕ} {moved : List ℕ} {t : State} (hs : s.Schedules i x moved t) :
      Steps s (.wake i x moved) t
  | runLifo {i n : ℕ} {th : Thread} {home : Home} {e : Entry} (hloop : s.loop i = some (th, home))
      (hn : s.entries[n]? = some e) (hplace : e.place = .lifo i) :
      Steps s (.runLifo i n) (s.run i th home n e)
  | pop {i n : ℕ} {th : Thread} {home : Home} {e : Entry} (hloop : s.loop i = some (th, home))
      (hn : s.entries[n]? = some e) (hplace : e.place = .queue home.runtime home.worker) :
      Steps s (.pop i n) ((s.touch i home.runtime home.worker).run i th home n e)
  | popNothing {i : ℕ} {th : Thread} {home : Home} (hloop : s.loop i = some (th, home)) :
      Steps s (.popNothing i) (s.touch i home.runtime home.worker)
  | takeInjected {i n : ℕ} {th : Thread} {home : Home} {e : Entry}
      (hloop : s.loop i = some (th, home)) (hn : s.entries[n]? = some e)
      (hplace : e.place = .injector home.runtime) :
      Steps s (.takeInjected i n true) ((s.touch i home.runtime home.worker).run i th home n e)
  | fillQueue {i n : ℕ} {th : Thread} {home : Home} {e : Entry}
      (hloop : s.loop i = some (th, home)) (hn : s.entries[n]? = some e)
      (hplace : e.place = .injector home.runtime) :
      Steps s (.takeInjected i n false) ((s.touch i home.runtime home.worker).move [n]
        (.injector home.runtime) (.queue home.runtime home.worker))
  | steal {i victim n : ℕ} {moved : List ℕ} {th : Thread} {home : Home} {e : Entry}
      (hloop : s.loop i = some (th, home)) (hn : s.entries[n]? = some e)
      (hvictim : victim ≠ home.worker) (hplace : e.place = .queue home.runtime victim) :
      Steps s (.steal i victim n moved) (((s.touch i home.runtime home.worker).move moved
        (.queue home.runtime victim) (.queue home.runtime home.worker)).run i th home n e)
  | pollReturns {i : ℕ} {th : Thread} {calls : List Call} (hi : s.threads[i]? = some th)
      (hcalls : th.calls = .poll :: calls) :
      Steps s (.pollReturns i) (s.setThread i { th with calls := calls })
  | blockOn {i runtime : ℕ} {th : Thread} (hi : s.threads[i]? = some th)
      (hruntime : runtime < s.runtimes.length) :
      Steps s (.blockOn i runtime) ((s.countWorker runtime).setThread i
        { th with workerId := none, calls := .blockOn th.workerId :: th.calls })
  | blockOnReturns {i : ℕ} {th : Thread} {wasWorker : Option ℕ} {calls : List Call}
      (hi : s.threads[i]? = some th) (hcalls : th.calls = .blockOn wasWorker :: calls) :
      Steps s (.blockOnReturns i)
        (s.setThread i { th with workerId := wasWorker.or th.workerId, calls := calls })
  | blockOnUnwinds {i : ℕ} {th : Thread} {wasWorker : Option ℕ} {calls : List Call}
      (hi : s.threads[i]? = some th) (hcalls : th.calls = .blockOn wasWorker :: calls) :
      Steps s (.blockOnUnwinds i) (s.setThread i { th with calls := calls })
  | blockInPlace {i runtime worker : ℕ} {th : Thread} {rt : Runtime}
      (hi : s.threads[i]? = some th) (hrt : s.runtimes[runtime]? = some rt)
      (hid : th.workerId = some worker) (hbound : worker < rt.workers) :
      Steps s (.blockInPlace i runtime)
        { ((s.touch i runtime worker).handOver i runtime worker s.takeovers.length).setThread i
            { th with workerId := none, calls := .blockInPlace s.takeovers.length :: th.calls } with
          takeovers := s.takeovers ++ [⟨runtime, worker, .handed, false⟩] }
  | strayBlockInPlace {i runtime worker : ℕ} {th : Thread} {rt : Runtime}
      (hi : s.threads[i]? = some th) (hrt : s.runtimes[runtime]? = some rt)
      (hid : th.workerId = some worker) (hbound : ¬ worker < rt.workers) :
      Steps s (.blockInPlace i runtime) (s.touch i runtime worker)
  | spawnFails {i runtime worker : ℕ} {th : Thread} {rt : Runtime}
      (hi : s.threads[i]? = some th) (hrt : s.runtimes[runtime]? = some rt)
      (hid : th.workerId = some worker) (hbound : worker < rt.workers) :
      Steps s (.spawnFails i runtime)
        (((s.touch i runtime worker).abandon i runtime worker).setThread i
          { th with workerId := none })
  | request {i k : ℕ} {th : Thread} {calls : List Call} {tk : Takeover}
      (hi : s.threads[i]? = some th) (hcalls : th.calls = .blockInPlace k :: calls)
      (hk : s.takeovers[k]? = some tk) :
      Steps s (.request i) { s with takeovers := s.takeovers.set k { tk with requested := true } }
  | takeoverStarts {k : ℕ} {tk : Takeover} (hk : s.takeovers[k]? = some tk)
      (hphase : tk.phase = .handed) :
      Steps s (.takeoverStarts k) { s.takeBack s.threads.length tk.runtime tk.worker k with
        takeovers := s.takeovers.set k { tk with phase := .serving }
        threads := s.threads ++ [⟨some ⟨tk.runtime, tk.worker, some k⟩, some tk.worker, []⟩] }
  | takeoverLeaves {i k : ℕ} {th : Thread} {home : Home} {tk : Takeover}
      (hloop : s.loop i = some (th, home)) (hhome : home.takeover = some k)
      (hk : s.takeovers[k]? = some tk) (hphase : tk.phase = .serving) (hrequested : tk.requested)
      (hentries : s.entries.all fun e =>
        e.place ≠ .lifo i && e.place ≠ .queue home.runtime home.worker) :
      Steps s (.takeoverLeaves i)
        { (s.handOver i home.runtime home.worker k).setThread i ⟨none, none, []⟩ with
          takeovers := s.takeovers.set k { tk with phase := .returned } }
  | resume {i k : ℕ} {th : Thread} {calls : List Call} {tk : Takeover}
      (hi : s.threads[i]? = some th) (hcalls : th.calls = .blockInPlace k :: calls)
      (hk : s.takeovers[k]? = some tk) (hphase : tk.phase = .returned) :
      Steps s (.resume i) { (s.takeBack i tk.runtime tk.worker k).setThread i
          { th with workerId := some tk.worker, calls := calls } with
        takeovers := s.takeovers.set k { tk with phase := .resumed } }

theorem steps {s t : State} {e : Event} (h : s.step e = some t) : s.Steps e t := by
  cases e with
  | newRuntime workers lifoSlot =>
    cases h
    exact .newRuntime workers lifoSlot
  | newThread =>
    cases h
    exact .newThread
  | spawn i runtime moved =>
    obtain ⟨th, hi, h⟩ := Option.bind_eq_some_iff.mp h
    obtain ⟨rt, hrt, h⟩ := Option.bind_eq_some_iff.mp h
    exact .spawn hi hrt (schedules h)
  | wake i x moved => exact .wake (schedules h)
  | runLifo i n =>
    obtain ⟨⟨th, home⟩, hloop, h⟩ := Option.bind_eq_some_iff.mp h
    obtain ⟨e, hn, h⟩ := Option.bind_eq_some_iff.mp h
    obtain ⟨hplace, h⟩ := Option.ite_none_right_eq_some.mp h
    cases h
    exact .runLifo hloop hn hplace
  | pop i n =>
    obtain ⟨⟨th, home⟩, hloop, h⟩ := Option.bind_eq_some_iff.mp h
    obtain ⟨e, hn, h⟩ := Option.bind_eq_some_iff.mp h
    obtain ⟨hplace, h⟩ := Option.ite_none_right_eq_some.mp h
    cases h
    exact .pop hloop hn hplace
  | popNothing i =>
    obtain ⟨⟨th, home⟩, hloop, rfl⟩ := Option.map_eq_some_iff.mp h
    exact .popNothing hloop
  | takeInjected i n full =>
    obtain ⟨⟨th, home⟩, hloop, h⟩ := Option.bind_eq_some_iff.mp h
    obtain ⟨e, hn, h⟩ := Option.bind_eq_some_iff.mp h
    obtain ⟨hplace, h⟩ := Option.ite_none_right_eq_some.mp h
    cases full with
    | true =>
      cases h
      exact .takeInjected hloop hn hplace
    | false =>
      cases h
      exact .fillQueue hloop hn hplace
  | steal i victim n moved =>
    obtain ⟨⟨th, home⟩, hloop, h⟩ := Option.bind_eq_some_iff.mp h
    obtain ⟨e, hn, h⟩ := Option.bind_eq_some_iff.mp h
    obtain ⟨hplace, h⟩ := Option.ite_none_right_eq_some.mp h
    cases h
    simp only [Bool.and_eq_true, decide_eq_true_eq] at hplace
    exact .steal hloop hn hplace.1 hplace.2
  | pollReturns i =>
    obtain ⟨th, hi, h⟩ := Option.bind_eq_some_iff.mp h
    split at h
    case h_1 calls hcalls =>
      cases h
      exact .pollReturns hi hcalls
    case h_2 => cases h
  | blockOn i runtime =>
    obtain ⟨th, hi, h⟩ := Option.bind_eq_some_iff.mp h
    obtain ⟨hruntime, h⟩ := Option.ite_none_right_eq_some.mp h
    cases h
    exact .blockOn hi hruntime
  | blockOnReturns i =>
    obtain ⟨th, hi, h⟩ := Option.bind_eq_some_iff.mp h
    split at h
    case h_1 wasWorker calls hcalls =>
      cases h
      exact .blockOnReturns hi hcalls
    case h_2 => cases h
  | blockOnUnwinds i =>
    obtain ⟨th, hi, h⟩ := Option.bind_eq_some_iff.mp h
    split at h
    case h_1 wasWorker calls hcalls =>
      cases h
      exact .blockOnUnwinds hi hcalls
    case h_2 => cases h
  | blockInPlace i runtime =>
    obtain ⟨th, hi, h⟩ := Option.bind_eq_some_iff.mp h
    obtain ⟨rt, hrt, h⟩ := Option.bind_eq_some_iff.mp h
    obtain ⟨worker, hid, rfl⟩ := Option.map_eq_some_iff.mp h
    dsimp only
    split_ifs with hbound
    · exact .blockInPlace hi hrt hid hbound
    · exact .strayBlockInPlace hi hrt hid hbound
  | spawnFails i runtime =>
    obtain ⟨th, hi, h⟩ := Option.bind_eq_some_iff.mp h
    obtain ⟨rt, hrt, h⟩ := Option.bind_eq_some_iff.mp h
    obtain ⟨worker, hid, h⟩ := Option.bind_eq_some_iff.mp h
    obtain ⟨hbound, h⟩ := Option.ite_none_right_eq_some.mp h
    cases h
    exact .spawnFails hi hrt hid hbound
  | request i =>
    obtain ⟨th, hi, h⟩ := Option.bind_eq_some_iff.mp h
    split at h
    case h_1 k calls hcalls =>
      obtain ⟨tk, hk, rfl⟩ := Option.map_eq_some_iff.mp h
      exact .request hi hcalls hk
    case h_2 => cases h
  | takeoverStarts k =>
    obtain ⟨tk, hk, h⟩ := Option.bind_eq_some_iff.mp h
    obtain ⟨hphase, h⟩ := Option.ite_none_right_eq_some.mp h
    cases h
    exact .takeoverStarts hk hphase
  | takeoverLeaves i =>
    obtain ⟨⟨th, home⟩, hloop, h⟩ := Option.bind_eq_some_iff.mp h
    obtain ⟨k, hhome, h⟩ := Option.bind_eq_some_iff.mp h
    obtain ⟨tk, hk, h⟩ := Option.bind_eq_some_iff.mp h
    obtain ⟨hleaves, h⟩ := Option.ite_none_right_eq_some.mp h
    cases h
    rw [Bool.and_eq_true, Bool.and_eq_true, decide_eq_true_eq] at hleaves
    exact .takeoverLeaves hloop hhome hk hleaves.1.1 hleaves.1.2 hleaves.2
  | resume i =>
    obtain ⟨th, hi, h⟩ := Option.bind_eq_some_iff.mp h
    split at h
    case h_1 k calls hcalls =>
      obtain ⟨tk, hk, h⟩ := Option.bind_eq_some_iff.mp h
      obtain ⟨hphase, h⟩ := Option.ite_none_right_eq_some.mp h
      cases h
      exact .resume hi hcalls hk hphase
    case h_2 => cases h

end State

end Eddy.Process
