import Eddy.Process

/-!
# Who touches a worker's queue

As long as no thread takes the number of its own worker for one of another runtime, each
worker is served by exactly one thread, or its queues are on the way between a worker and its
takeover. A thread that carries a worker number serves that worker.
-/

namespace Eddy.Process
open Interleaving

/-- A call under which the thread has given its worker number away. -/
def Call.suspends : Call → Bool
  | .blockOn (some _) | .blockInPlace _ => true
  | _ => false

structure ThreadOk (takeovers : List Takeover) (th : Thread) : Prop where
  identity : ∀ w, th.workerId = some w → ∃ home, th.home = some home ∧ home.worker = w
  saved : ∀ w, .blockOn (some w) ∈ th.calls → ∃ home, th.home = some home ∧ home.worker = w
  handed : ∀ k, .blockInPlace k ∈ th.calls → ∃ home tk, th.home = some home ∧
    takeovers[k]? = some tk ∧ tk.runtime = home.runtime ∧ tk.worker = home.worker
  once : th.calls.countP Call.suspends + th.workerId.toList.length ≤ 1
  takeover : ∀ home k, th.home = some home → home.takeover = some k → ∃ tk,
    takeovers[k]? = some tk ∧ tk.runtime = home.runtime ∧ tk.worker = home.worker

namespace State

def hasWorker (s : State) (runtime worker : ℕ) : Bool :=
  s.runtimes[runtime]?.any fun rt => worker < rt.workers

def serving (s : State) (runtime worker : ℕ) : ℕ :=
  total (fun th => (th.serves runtime worker).toNat) s.threads

/-- The number of hand-overs in which a worker's queues are. -/
def holding (s : State) (runtime worker : ℕ) : ℕ :=
  total (fun tk => (tk.holds runtime worker).toNat) s.takeovers

def ownsLifo (s : State) (i runtime : ℕ) : Prop :=
  ∃ th home, s.threads[i]? = some th ∧ th.home = some home ∧ home.runtime = runtime ∧
    th.handedOver = false

def carries (s : State) (k runtime : ℕ) : Prop :=
  ∃ tk, s.takeovers[k]? = some tk ∧ tk.runtime = runtime ∧ tk.holds runtime tk.worker = true

end State

/-- An entry is where its own runtime will find it, or was polled or dropped there. -/
def Placed (s : State) (e : Entry) : Prop :=
  match e.place with
  | .lifo i => s.ownsLifo i e.runtime
  | .queue runtime worker => runtime = e.runtime ∧ 0 < s.serving runtime worker
  | .injector runtime => runtime = e.runtime
  | .handedQueue k | .handedLifo k => s.carries k e.runtime
  | .polled runtime | .dropped runtime => runtime = e.runtime
  | .lost => False

structure Ok (s : State) : Prop where
  threads : ∀ th ∈ s.threads, ThreadOk s.takeovers th
  served : ∀ runtime worker,
    s.serving runtime worker + s.holding runtime worker = (s.hasWorker runtime worker).toNat
  entries : ∀ e ∈ s.entries, Placed s e
  accesses : ∀ a ∈ s.accesses, s.hasWorker a.runtime a.worker = true ∧ a.servers = [a.thread]

theorem ok_new : Ok State.new where
  threads := by simp [State.new]
  served := by simp [State.new, State.serving, State.holding, State.hasWorker]
  entries := by simp [State.new]
  accesses := by simp [State.new]

section
variable {s s' : State} {i runtime worker : ℕ} {th th' : Thread} {e : Entry}

theorem Thread.handedOver_of_suspends (h : th.calls.countP Call.suspends = 0) :
    th.handedOver = false := by
  rw [List.countP_eq_zero] at h
  rw [Thread.handedOver, List.any_eq_false]
  intro call hcall hblock
  refine h call hcall ?_
  cases call <;> first | rfl | cases hblock

variable {tk : Takeover} {home : Home} {k : ℕ} {takeovers : List Takeover} {calls : List Call}
  {moved : List ℕ}

theorem ThreadOk.handedOver_of_identity (h : ThreadOk takeovers th)
    (hid : th.workerId = some worker) : th.handedOver = false := by
  have honce := h.once
  simp only [hid, Option.toList_some, List.length_singleton] at honce
  exact Thread.handedOver_of_suspends (by omega)

theorem ThreadOk.serves (h : ThreadOk takeovers th)
    (hid : th.workerId = some worker) :
    ∃ home, th.home = some home ∧ home.worker = worker ∧
      th.serves home.runtime worker = true := by
  obtain ⟨home, hhome, hworker⟩ := h.identity worker hid
  exact ⟨home, hhome, hworker, by simp [Thread.serves, hhome, hworker, h.handedOver_of_identity hid]⟩

theorem Ok.servers_eq (h : Ok s) (hi : s.threads[i]? = some th)
    (hserves : th.serves runtime worker = true) :
    s.servers runtime worker = [i] ∧ s.hasWorker runtime worker = true := by
  have hserved := h.served runtime worker
  have hone := le_total (fun th => (th.serves runtime worker).toNat) hi
  simp only [hserves, Bool.toNat_true] at hone
  have hle := Bool.toNat_le (s.hasWorker runtime worker)
  have htotal : s.serving runtime worker = 1 := by
    unfold State.serving at hserved ⊢
    omega
  constructor
  · have hall : ∀ j ∈ s.servers runtime worker, j = i := by
      intro j hj
      obtain ⟨hlt, hany⟩ := List.mem_filter.mp hj
      cases hth : s.threads[j]? with
      | none => simp [hth] at hany
      | some th' =>
        by_contra hne
        have hadd := add_le_total (fun th => (th.serves runtime worker).toNat) hne hth hi
        simp only [hth, Option.any_some] at hany
        simp only [hany, hserves, Bool.toNat_true] at hadd
        unfold State.serving at htotal
        omega
    have hmem : i ∈ s.servers runtime worker := by
      refine List.mem_filter.mpr ⟨List.mem_range.mpr (List.getElem?_eq_some_iff.mp hi).1, ?_⟩
      simpa [hi] using hserves
    have hnodup : (s.servers runtime worker).Nodup := List.nodup_range.filter _
    exact List.perm_singleton.mp ((List.perm_ext_iff_of_nodup hnodup (by simp)).mpr fun j =>
      ⟨fun hj => List.mem_singleton.mpr (hall j hj), fun hj => List.mem_singleton.mp hj ▸ hmem⟩)
  · cases hw : s.hasWorker runtime worker with
    | true => rfl
    | false =>
      rw [hw] at hserved
      simp only [Bool.toNat_false] at hserved
      omega

theorem Ok.touch (h : Ok s) (hi : s.threads[i]? = some th)
    (hserves : th.serves runtime worker = true) : Ok (s.touch i runtime worker) where
  threads := h.threads
  served := h.served
  entries := h.entries
  accesses := by
    intro a ha
    rcases List.mem_append.mp ha with ha | ha
    · exact h.accesses a ha
    · obtain rfl := List.mem_singleton.mp ha
      exact (h.servers_eq hi hserves).symm

theorem Ok.enter (h : Ok s) (hplaced : Placed s e) : Ok (s.enter e) where
  threads := h.threads
  served := h.served
  entries := by
    intro p hp
    rcases List.mem_append.mp hp with hp | hp
    · exact h.entries p hp
    · obtain rfl := List.mem_singleton.mp hp
      exact hplaced
  accesses := h.accesses

theorem Ok.relocate (h : Ok s) {f : ℕ → Place → Place}
    (hf : ∀ n e, Placed s e → Placed s { e with place := f n e.place }) : Ok (s.relocate f) where
  threads := h.threads
  served := h.served
  entries := by
    intro p hp
    obtain ⟨n, hlt, rfl⟩ := List.mem_mapIdx.mp hp
    exact hf n _ (h.entries _ (List.getElem_mem hlt))
  accesses := h.accesses

theorem Ok.move (h : Ok s) {source place : Place}
    (hf : ∀ e, e.place = source → Placed s e → Placed s { e with place := place }) :
    Ok (s.move moved source place) := by
  refine h.relocate fun n e he => ?_
  split_ifs with hmoved
  · simp only [Bool.and_eq_true, decide_eq_true_eq] at hmoved
    exact hf e hmoved.2 he
  · exact he

theorem Ok.countWorker (h : Ok s) : Ok (s.countWorker runtime) := by
  have hworkers : ∀ r w, (s.countWorker runtime).hasWorker r w = s.hasWorker r w := by
    intro r w
    simp only [State.hasWorker, State.countWorker, List.getElem?_modify]
    cases s.runtimes[r]? with
    | none => rfl
    | some rt => simp only [Option.any_some]; split <;> rfl
  refine ⟨h.threads, fun r w => ?_, h.entries, fun a ha => ?_⟩
  · rw [hworkers]
    exact h.served r w
  · rw [hworkers]
    exact h.accesses a ha

theorem Ok.addTask (h : Ok s) (task : Task) : Ok (s.addTask task) :=
  ⟨h.threads, h.served, h.entries, h.accesses⟩

theorem Thread.serves_congr (hhome : th'.home = th.home) (hover : th'.handedOver = th.handedOver) :
    th'.serves runtime worker = th.serves runtime worker := by
  simp only [Thread.serves, hhome, hover]

theorem State.ownsLifo_set {j : ℕ} (hi : s.threads[i]? = some th) (hhome : th'.home = th.home)
    (hover : th'.handedOver = th.handedOver) (h : s.ownsLifo j runtime) :
    (s.setThread i th').ownsLifo j runtime := by
  obtain ⟨p, home, hj, hp, hruntime, hnot⟩ := h
  by_cases hij : i = j
  · subst hij
    rw [hi] at hj
    cases hj
    have hlt := (List.getElem?_eq_some_iff.mp hi).1
    exact ⟨th', home, by simp [State.setThread, hlt], hhome.trans hp, hruntime, hover.trans hnot⟩
  · exact ⟨p, home, by simpa [State.setThread, List.getElem?_set_ne hij] using hj, hp, hruntime, hnot⟩

/-- A thread moves on without a change in what it serves. -/
theorem Ok.setThread (h : Ok s) (hi : s.threads[i]? = some th) (hhome : th'.home = th.home)
    (hover : th'.handedOver = th.handedOver) (hok : ThreadOk s.takeovers th') :
    Ok (s.setThread i th') := by
  have hserving : ∀ r w, (s.setThread i th').serving r w = s.serving r w := by
    intro r w
    have hset := total_set (fun th => (th.serves r w).toNat) hi th'
    simp only [Thread.serves_congr hhome hover] at hset
    simp only [State.serving, State.setThread]
    omega
  refine ⟨fun p hp => ?_, fun r w => ?_, fun e he => ?_, h.accesses⟩
  · rcases List.mem_or_eq_of_mem_set hp with hp | rfl
    · exact h.threads p hp
    · exact hok
  · rw [hserving]
    exact h.served r w
  · have hplaced := h.entries e he
    unfold Placed at hplaced ⊢
    cases hplace : e.place with
    | lifo j =>
      rw [hplace] at hplaced
      exact State.ownsLifo_set hi hhome hover hplaced
    | queue r w =>
      rw [hplace] at hplaced
      exact ⟨hplaced.1, hserving r w ▸ hplaced.2⟩
    | injector r | handedQueue k | handedLifo k | polled r | dropped r | lost =>
      rw [hplace] at hplaced
      exact hplaced

/-- `run_task` of an entry of the worker's own runtime. -/
theorem Ok.run (h : Ok s) {n : ℕ} (hi : s.threads[i]? = some th)
    (hruntime : home.runtime = e.runtime) : Ok (s.run i th home n e) := by
  have hok := h.threads th (List.mem_of_getElem? hi)
  have hpoll : Ok (s.setThread i { th with calls := .poll :: th.calls }) := by
    refine h.setThread hi rfl ?_ ⟨hok.identity, ?_, ?_, ?_, hok.takeover⟩
    · simp [Thread.handedOver, Call.isBlockInPlace]
    · simpa using hok.saved
    · simpa using hok.handed
    · simpa [Call.suspends] using hok.once
  refine ⟨hpoll.threads, hpoll.served, fun p hp => ?_, hpoll.accesses⟩
  rcases List.mem_or_eq_of_mem_set hp with hp | rfl
  · exact hpoll.entries p hp
  · exact hruntime

def strays (th : Thread) (runtime target : ℕ) : Bool :=
  th.workerId = some target && th.home.any fun home => home.runtime ≠ runtime

theorem ThreadOk.on_target (h : ThreadOk takeovers th)
    (hid : th.workerId = some worker) (hstays : strays th runtime worker = false) :
    (∃ home, th.home = some home ∧ home.runtime = runtime) ∧
      th.serves runtime worker = true := by
  obtain ⟨home, hhome, -, hserves⟩ := h.serves hid
  have hruntime : home.runtime = runtime := by simpa [strays, hid, hhome] using hstays
  exact ⟨⟨home, hhome, hruntime⟩, hruntime ▸ hserves⟩

theorem State.serving_pos (hi : s.threads[i]? = some th)
    (hserves : th.serves runtime worker = true) :
    0 < s.serving runtime worker := by
  have hone := le_total (fun th => (th.serves runtime worker).toNat) hi
  simp only [hserves, Bool.toNat_true] at hone
  exact hone

/-- A number that a worker goes by is below the worker count. -/
theorem Ok.worker_lt (h : Ok s) {rt : Runtime} (hi : s.threads[i]? = some th)
    (hrt : s.runtimes[runtime]? = some rt) (hid : th.workerId = some worker)
    (hown : strays th runtime worker = false) : worker < rt.workers := by
  have hserves := ((h.threads th (List.mem_of_getElem? hi)).on_target hid hown).2
  simpa [State.hasWorker, hrt] using (h.servers_eq hi hserves).2

theorem Ok.schedule (h : Ok s) {x : ℕ}
    (hstays : ∀ th task rt, s.threads[i]? = some th → s.tasks[x]? = some task →
      s.runtimes[task.runtime]? = some rt → strays th task.runtime (rt.target task) = false)
    (hs : s.Schedules i x moved s') : Ok s' := by
  cases hs with
  | @lifo th task rt hi hx hrt htarget hlifo =>
    have hok := h.threads th (List.mem_of_getElem? hi)
    obtain ⟨⟨home, hhome, hruntime⟩, -⟩ := hok.on_target htarget (hstays th task rt hi hx hrt)
    refine h.enter (show s.ownsLifo i task.runtime from ?_)
    exact ⟨th, home, hi, hhome, hruntime, hok.handedOver_of_identity htarget⟩
  | @queue th task rt hi hx hrt htarget hlifo hbound =>
    have hok := h.threads th (List.mem_of_getElem? hi)
    obtain ⟨-, hserves⟩ := hok.on_target htarget (hstays th task rt hi hx hrt)
    refine Ok.enter ((h.touch hi hserves).move fun e he hplaced => ?_)
      (show task.runtime = task.runtime ∧ 0 < s.serving task.runtime (rt.target task) from
        ⟨rfl, State.serving_pos hi hserves⟩)
    simp only [Placed, he] at hplaced
    exact hplaced.1
  | @lost th task rt hi hx hrt htarget hlifo hbound =>
    exact absurd (h.worker_lt hi hrt htarget (hstays th task rt hi hx hrt)) hbound
  | @injector th task rt hi hx hrt htarget =>
    exact h.enter (show task.runtime = task.runtime from rfl)

theorem Ok.spawn (h : Ok s) {rt : Runtime} (hi : s.threads[i]? = some th)
    (hrt : s.runtimes[runtime]? = some rt)
    (hstays : ∀ w, th.workerId = some w →
      strays th runtime (rt.target ⟨runtime, w, w % 2 ^ 32⟩) = false)
    (hs : ((if th.workerId.isNone then s.countWorker runtime else s).addTask
      ⟨runtime, th.workerId.getD (rt.nextWorker % rt.workers),
        th.workerId.getD (rt.nextWorker % rt.workers) % 2 ^ 32⟩).Schedules i s.tasks.length
          moved s') : Ok s' := by
  cases hid : th.workerId with
  | none =>
    simp only [hid, Option.isNone_none, if_true, Option.getD_none] at hs
    refine (h.countWorker.addTask _).schedule (fun th' task rt' hi' _ _ => ?_) hs
    obtain rfl : th = th' := Option.some.inj (hi.symm.trans hi')
    simp [strays, hid]
  | some w =>
    simp only [hid, Option.isNone_some, Bool.false_eq_true, if_false, Option.getD_some] at hs
    refine (h.addTask _).schedule (fun th' task rt' hi' hx hrt' => ?_) hs
    obtain rfl : th = th' := Option.some.inj (hi.symm.trans hi')
    obtain rfl : (⟨runtime, w, w % 2 ^ 32⟩ : Task) = task := by
      simpa [State.addTask] using hx
    obtain rfl : rt = rt' := Option.some.inj (hrt.symm.trans hrt')
    exact hstays w hid

theorem State.loop_eq (h : s.loop i = some (th, home)) :
    s.threads[i]? = some th ∧ th.home = some home ∧ th.calls = [] := by
  obtain ⟨p, hi, h⟩ := Option.bind_eq_some_iff.mp h
  split_ifs at h with hcalls
  obtain ⟨home', hhome, heq⟩ := Option.map_eq_some_iff.mp h
  cases heq
  exact ⟨hi, hhome, List.isEmpty_iff.mp hcalls⟩

theorem State.serves_of_loop (h : s.loop i = some (th, home)) :
    th.serves home.runtime home.worker = true := by
  obtain ⟨-, hhome, hcalls⟩ := State.loop_eq h
  simp [Thread.serves, Thread.handedOver, hhome, hcalls]

/-- A worker gets an entry of its own runtime. -/
theorem Ok.loop_run (h : Ok s) {n : ℕ} (hloop : s.loop i = some (th, home))
    (hn : s.entries[n]? = some e)
    (hplace : e.place = .lifo i ∨ e.place = .injector home.runtime ∨
      ∃ w, e.place = .queue home.runtime w) : home.runtime = e.runtime := by
  obtain ⟨hi, hhome, -⟩ := State.loop_eq hloop
  have hplaced := h.entries e (List.mem_of_getElem? hn)
  rcases hplace with hplace | hplace | ⟨w, hplace⟩ <;> simp only [Placed, hplace] at hplaced
  · obtain ⟨p, home', hj, hhome', hruntime, -⟩ := hplaced
    rw [hi] at hj
    cases hj
    rw [hhome] at hhome'
    cases hhome'
    exact hruntime
  · exact hplaced
  · exact hplaced.1

theorem Ok.fill (h : Ok s) {source : Place} (hi : s.threads[i]? = some th)
    (hserves : th.serves runtime worker = true)
    (hsource : source = .injector runtime ∨ ∃ w, source = .queue runtime w) :
    Ok (s.move moved source (.queue runtime worker)) := by
  have hpos := State.serving_pos hi hserves
  refine h.move fun e he hplaced => ?_
  rcases hsource with rfl | ⟨w, rfl⟩ <;> simp only [Placed, he] at hplaced ⊢
  · exact ⟨hplaced, hpos⟩
  · exact ⟨hplaced.1, hpos⟩

theorem Ok.pollReturns (h : Ok s) (hi : s.threads[i]? = some th)
    (hcalls : th.calls = .poll :: calls) : Ok (s.setThread i { th with calls := calls }) := by
  have hok := h.threads th (List.mem_of_getElem? hi)
  refine h.setThread hi rfl ?_ ⟨hok.identity, fun w hw => hok.saved w ?_,
    fun k hk => hok.handed k ?_, ?_, hok.takeover⟩
  · simp [Thread.handedOver, hcalls, Call.isBlockInPlace]
  · exact hcalls ▸ List.mem_cons_of_mem _ hw
  · exact hcalls ▸ List.mem_cons_of_mem _ hk
  · have honce := hok.once
    simpa [hcalls, Call.suspends] using honce

theorem Ok.blockOn (h : Ok s) (hi : s.threads[i]? = some th) :
    Ok ((s.countWorker runtime).setThread i
      { th with workerId := none, calls := .blockOn th.workerId :: th.calls }) := by
  have hok := h.threads th (List.mem_of_getElem? hi)
  refine h.countWorker.setThread hi rfl ?_ ⟨by simp, fun w hw => ?_, fun k hk => hok.handed k ?_, ?_,
    hok.takeover⟩
  · simp [Thread.handedOver, Call.isBlockInPlace]
  · rcases List.mem_cons.mp hw with heq | hw
    · exact hok.identity w (Call.blockOn.inj heq).symm
    · exact hok.saved w hw
  · simpa using hk
  · have honce := hok.once
    rw [List.countP_cons]
    cases hid : th.workerId with
    | none | some w => simpa [hid, Call.suspends] using honce

theorem Ok.blockOnReturns (h : Ok s) {wasWorker : Option ℕ}
    (hi : s.threads[i]? = some th) (hcalls : th.calls = .blockOn wasWorker :: calls) :
    Ok (s.setThread i { th with workerId := wasWorker.or th.workerId, calls := calls }) := by
  have hok := h.threads th (List.mem_of_getElem? hi)
  refine h.setThread hi rfl ?_ ⟨fun w hw => ?_, fun w hw => hok.saved w ?_,
    fun k hk => hok.handed k ?_, ?_, hok.takeover⟩
  · simp [Thread.handedOver, hcalls, Call.isBlockInPlace]
  · cases wasWorker with
    | none => exact hok.identity w hw
    | some v =>
      obtain rfl : v = w := by simpa using hw
      exact hok.saved v (hcalls ▸ List.mem_cons_self)
  · exact hcalls ▸ List.mem_cons_of_mem _ hw
  · exact hcalls ▸ List.mem_cons_of_mem _ hk
  · have honce := hok.once
    rw [hcalls, List.countP_cons] at honce
    cases wasWorker with
    | none => simpa [Call.suspends] using honce
    | some w =>
      simp only [Call.suspends, if_true, Option.some_or, Option.toList_some,
        List.length_singleton] at honce ⊢
      omega

theorem Ok.blockOnUnwinds (h : Ok s) {wasWorker : Option ℕ}
    (hi : s.threads[i]? = some th) (hcalls : th.calls = .blockOn wasWorker :: calls) :
    Ok (s.setThread i { th with calls := calls }) := by
  have hok := h.threads th (List.mem_of_getElem? hi)
  refine h.setThread hi rfl ?_ ⟨hok.identity, fun w hw => hok.saved w ?_,
    fun k hk => hok.handed k ?_, ?_, hok.takeover⟩
  · simp [Thread.handedOver, hcalls, Call.isBlockInPlace]
  · exact hcalls ▸ List.mem_cons_of_mem _ hw
  · exact hcalls ▸ List.mem_cons_of_mem _ hk
  · have honce := hok.once
    rw [hcalls, List.countP_cons] at honce
    change calls.countP Call.suspends + th.workerId.toList.length ≤ 1
    omega

def TakeoversKeep (takeovers takeovers' : List Takeover) : Prop :=
  ∀ (k : ℕ) (tk : Takeover), takeovers[k]? = some tk → ∃ tk' : Takeover,
    takeovers'[k]? = some tk' ∧ tk'.runtime = tk.runtime ∧ tk'.worker = tk.worker

theorem ThreadOk.keep {takeovers' : List Takeover} (h : ThreadOk takeovers th)
    (hkeep : TakeoversKeep takeovers takeovers') : ThreadOk takeovers' th where
  identity := h.identity
  saved := h.saved
  handed := by
    intro k hk
    obtain ⟨home, tk, hhome, htk, hruntime, hworker⟩ := h.handed k hk
    obtain ⟨tk', htk', hr, hw⟩ := hkeep k tk htk
    exact ⟨home, tk', hhome, htk', hr.trans hruntime, hw.trans hworker⟩
  once := h.once
  takeover := by
    intro home k hhome hk
    obtain ⟨tk, htk, hruntime, hworker⟩ := h.takeover home k hhome hk
    obtain ⟨tk', htk', hr, hw⟩ := hkeep k tk htk
    exact ⟨tk', htk', hr.trans hruntime, hw.trans hworker⟩

theorem takeoversKeep_append (takeovers : List Takeover) (tk : Takeover) :
    TakeoversKeep takeovers (takeovers ++ [tk]) := by
  intro k p hk
  have hlt := (List.getElem?_eq_some_iff.mp hk).1
  exact ⟨p, by rwa [List.getElem?_append_left hlt], rfl, rfl⟩

theorem takeoversKeep_set {tk' : Takeover}
    (hk : takeovers[k]? = some tk) (hruntime : tk'.runtime = tk.runtime)
    (hworker : tk'.worker = tk.worker) : TakeoversKeep takeovers (takeovers.set k tk') := by
  intro j p hj
  by_cases hjk : k = j
  · subst hjk
    rw [hk] at hj
    cases hj
    have hlt := (List.getElem?_eq_some_iff.mp hk).1
    exact ⟨tk', by simp [hlt], hruntime, hworker⟩
  · exact ⟨p, by rwa [List.getElem?_set_ne hjk], rfl, rfl⟩

/-- While the queues of a worker are handed over, nobody serves it. -/
theorem Ok.serving_eq_zero (h : Ok s) (hk : s.takeovers[k]? = some tk)
    (hholds : tk.holds runtime worker = true) : s.serving runtime worker = 0 := by
  have hserved := h.served runtime worker
  have hone := le_total (fun tk => (tk.holds runtime worker).toNat) hk
  simp only [hholds, Bool.toNat_true] at hone
  have hle := Bool.toNat_le (s.hasWorker runtime worker)
  unfold State.holding at hserved
  omega

theorem Thread.serves_of_home (hhome : th.home = some home)
    (hover : th.handedOver = false) :
    th.serves runtime worker = (home.runtime = runtime && home.worker = worker) := by
  simp [Thread.serves, hhome, hover]

theorem Takeover.holds_of_phase (hphase : tk.phase = .handed ∨ tk.phase = .returned) :
    tk.holds runtime worker = (tk.runtime = runtime && tk.worker = worker) := by
  rcases hphase with hphase | hphase <;> simp [Takeover.holds, hphase]

theorem Takeover.not_holds_of_phase
    (hphase : tk.phase = .serving ∨ tk.phase = .resumed) : tk.holds runtime worker = false := by
  rcases hphase with hphase | hphase <;> simp [Takeover.holds, hphase]

/-- The thread that serves a worker stops doing so, and takeover `k` gets what it had. -/
theorem Ok.handOver (h : Ok s)
    (hi : s.threads[i]? = some th) (hhome : th.home = some home) (hover : th.handedOver = false)
    (hok : ThreadOk takeovers th') (hnot : ∀ r w, th'.serves r w = false)
    (hkeep : TakeoversKeep s.takeovers takeovers) (hk : takeovers[k]? = some tk)
    (hruntime : tk.runtime = home.runtime) (hworker : tk.worker = home.worker)
    (hphase : tk.phase = .handed ∨ tk.phase = .returned)
    (hholding : ∀ r w, total (fun tk => (tk.holds r w).toNat) takeovers =
      s.holding r w + (tk.holds r w).toNat)
    (hcarries : ∀ j r, s.carries j r → { s with takeovers := takeovers }.carries j r) :
    Ok { (s.handOver i home.runtime home.worker k).setThread i th' with takeovers := takeovers } := by
  have hserves : ∀ r w, (th.serves r w).toNat = (tk.holds r w).toNat := by
    intro r w
    rw [Thread.serves_of_home hhome hover, Takeover.holds_of_phase hphase, hruntime, hworker]
  have hserving : ∀ r w, total (fun th => (th.serves r w).toNat) (s.threads.set i th') +
      (tk.holds r w).toNat = s.serving r w := by
    intro r w
    have hset := total_set (fun th => (th.serves r w).toNat) hi th'
    simp only [hnot, Bool.toNat_false, hserves r w] at hset
    unfold State.serving
    omega
  refine ⟨fun p hp => ?_, fun r w => ?_, fun p hp => ?_, h.accesses⟩
  · rcases List.mem_or_eq_of_mem_set hp with hp | rfl
    · exact (h.threads p hp).keep hkeep
    · exact hok
  · have hserved := h.served r w
    have hs := hserving r w
    have hh := hholding r w
    simp only [State.serving, State.holding, State.setThread, State.handOver, State.relocate,
      State.hasWorker] at *
    omega
  · obtain ⟨n, hlt, rfl⟩ := List.mem_mapIdx.mp hp
    have hplaced := h.entries _ (List.getElem_mem hlt)
    generalize s.entries[n] = e at hplaced
    have hcarried : home.runtime = e.runtime → { s with takeovers := takeovers }.carries k e.runtime := by
      intro hhome
      refine ⟨tk, hk, hruntime.trans hhome, ?_⟩
      simp [Takeover.holds_of_phase hphase, hruntime, hhome]
    cases hplace : e.place with
    | lifo j =>
      simp only [Placed, hplace] at hplaced
      simp only [Placed, reduceCtorEq, if_false, Place.lifo.injEq]
      split_ifs with hji
      · subst hji
        obtain ⟨p, home', hj, hhome', hr, -⟩ := hplaced
        rw [hi] at hj
        cases hj
        rw [hhome] at hhome'
        cases hhome'
        exact hcarried hr
      · obtain ⟨p, home', hj, rest⟩ := hplaced
        exact ⟨p, home', by rwa [State.setThread, List.getElem?_set_ne (Ne.symm hji)], rest⟩
    | queue r w =>
      simp only [Placed, hplace] at hplaced
      simp only [Placed, Place.queue.injEq, reduceCtorEq, if_false]
      split_ifs with heq
      · exact hcarried (heq.1 ▸ hplaced.1)
      · refine ⟨hplaced.1, ?_⟩
        have hs := hserving r w
        have hfalse : tk.holds r w = false := by
          rw [Takeover.holds_of_phase hphase, hruntime, hworker]
          by_contra htrue
          rw [Bool.not_eq_false, Bool.and_eq_true, decide_eq_true_eq, decide_eq_true_eq] at htrue
          exact heq ⟨htrue.1.symm, htrue.2.symm⟩
        rw [hfalse] at hs
        exact lt_of_lt_of_eq hplaced.2 hs.symm
    | injector r | polled r | dropped r =>
      simp only [Placed, hplace] at hplaced
      simpa only [Placed, hplace, reduceCtorEq, if_false] using hplaced
    | handedQueue j | handedLifo j =>
      simp only [Placed, hplace] at hplaced
      simp only [Placed, reduceCtorEq, if_false]
      exact hcarries j e.runtime hplaced
    | lost =>
      simp only [Placed, hplace] at hplaced

/-- `block_in_place` through a handle of the worker's own runtime. -/
theorem Ok.blockInPlace (h : Ok s) (hi : s.threads[i]? = some th)
    (hid : th.workerId = some worker) (hown : strays th runtime worker = false) :
    Ok { ((s.touch i runtime worker).handOver i runtime worker s.takeovers.length).setThread i
        { th with workerId := none, calls := .blockInPlace s.takeovers.length :: th.calls } with
      takeovers := s.takeovers ++ [⟨runtime, worker, .handed, false⟩] } := by
  have hok := h.threads th (List.mem_of_getElem? hi)
  obtain ⟨home, hhome, rfl, -⟩ := hok.serves hid
  obtain ⟨⟨home', hhome', rfl⟩, hserves⟩ := hok.on_target hid hown
  obtain rfl : home = home' := Option.some.inj (hhome.symm.trans hhome')
  have hover := hok.handedOver_of_identity hid
  let tk : Takeover := ⟨home.runtime, home.worker, .handed, false⟩
  have hkeep := takeoversKeep_append s.takeovers tk
  have hkeptOk := hok.keep hkeep
  have hlast : (s.takeovers ++ [tk])[s.takeovers.length]? = some tk := by simp
  refine (h.touch hi hserves).handOver hi hhome hover ?_ ?_ hkeep hlast rfl rfl (.inl rfl) ?_ ?_
  · refine ⟨by simp, fun w hw => ?_, fun k hk => ?_, ?_, hkeptOk.takeover⟩
    · exact hok.saved w (by simpa using hw)
    · rcases List.mem_cons.mp hk with heq | hk
      · cases heq
        exact ⟨home, tk, hhome, hlast, rfl, rfl⟩
      · exact hkeptOk.handed k hk
    · have honce := hok.once
      simp only [hid, Option.toList_some, List.length_singleton] at honce
      rw [List.countP_cons]
      simp only [Call.suspends, if_true, Option.toList_none, List.length_nil]
      omega
  · intro r w
    simp [Thread.serves, Thread.handedOver, Call.isBlockInPlace]
  · intro r w
    simp only [total_append, total_cons, total_nil, Nat.add_zero]
    rfl
  · rintro j r ⟨tk, hj, rest⟩
    have hlt : j < s.takeovers.length := (List.getElem?_eq_some_iff.mp hj).1
    exact ⟨tk, (List.getElem?_append_left hlt).trans hj, rest⟩

/-- The takeover thread is not started. -/
theorem Ok.spawnFails (h : Ok s) (hi : s.threads[i]? = some th)
    (hid : th.workerId = some worker) (hown : strays th runtime worker = false) :
    Ok (((s.touch i runtime worker).abandon i runtime worker).setThread i
      { th with workerId := none }) := by
  have hok := h.threads th (List.mem_of_getElem? hi)
  obtain ⟨⟨home, hhome, hruntime⟩, hserves⟩ := hok.on_target hid hown
  have habandon : Ok ((s.touch i runtime worker).abandon i runtime worker) := by
    refine (h.touch hi hserves).relocate fun n e hplaced => ?_
    split_ifs with hplace
    · rw [Bool.or_eq_true, decide_eq_true_eq, decide_eq_true_eq] at hplace
      rcases hplace with hplace | hplace
      · rw [Placed, hplace] at hplaced
        exact hplaced.1
      · rw [Placed, hplace] at hplaced
        obtain ⟨p, home', hp, hhome', hr, -⟩ := hplaced
        obtain rfl : th = p := Option.some.inj (hi.symm.trans hp)
        obtain rfl : home = home' := Option.some.inj (hhome.symm.trans hhome')
        exact hruntime.symm.trans hr
    · exact hplaced
  refine habandon.setThread hi rfl rfl ⟨nofun, hok.saved, hok.handed, ?_, hok.takeover⟩
  exact (Nat.le_add_right _ _).trans hok.once

theorem Ok.takeoverLeaves (h : Ok s)
    (hloop : s.loop i = some (th, home)) (hk : home.takeover = some k)
    (htk : s.takeovers[k]? = some tk) (hserving : tk.phase = .serving) :
    Ok { (s.handOver i home.runtime home.worker k).setThread i ⟨none, none, []⟩ with
      takeovers := s.takeovers.set k { tk with phase := .returned } } := by
  obtain ⟨hi, hhome, hcalls⟩ := State.loop_eq hloop
  have hok := h.threads th (List.mem_of_getElem? hi)
  obtain ⟨tk', htk', hruntime, hworker⟩ := hok.takeover home k hhome hk
  obtain rfl : tk = tk' := Option.some.inj (htk.symm.trans htk')
  have hlt := (List.getElem?_eq_some_iff.mp htk).1
  let back : Takeover := { tk with phase := .returned }
  have hback : (s.takeovers.set k back)[k]? = some back := by simp [hlt]
  refine h.handOver hi hhome (by simp [Thread.handedOver, hcalls]) ?_ ?_
    (takeoversKeep_set htk rfl rfl) hback hruntime hworker (.inr rfl) ?_ ?_
  · exact ⟨by simp, by simp, by simp, by simp, by simp⟩
  · intro r w
    simp [Thread.serves]
  · intro r w
    have hset := total_set (fun tk => (tk.holds r w).toNat) htk back
    simp only [Takeover.not_holds_of_phase (.inl hserving), Bool.toNat_false] at hset
    exact hset
  · rintro j r ⟨p, hj, hr, hholds⟩
    by_cases hkj : k = j
    · subst hkj
      rw [htk] at hj
      cases hj
      simp [Takeover.not_holds_of_phase (.inl hserving)] at hholds
    · exact ⟨p, by simpa [List.getElem?_set_ne hkj] using hj, hr, hholds⟩

/-- Thread `i` starts to serve the worker of takeover `k`, with what the takeover held. -/
theorem Ok.takeBack (h : Ok s) {done : Takeover} {threads : List Thread}
    (hk : s.takeovers[k]? = some tk) (hphase : tk.phase = .handed ∨ tk.phase = .returned)
    (hruntime : done.runtime = tk.runtime) (hworker : done.worker = tk.worker)
    (hdone : done.phase = .serving ∨ done.phase = .resumed)
    (hi : threads[i]? = some th) (hhome : th.home = some home) (hover : th.handedOver = false)
    (hhomeRuntime : tk.runtime = home.runtime) (hhomeWorker : tk.worker = home.worker)
    (hthreads : ∀ p ∈ threads, p ∈ s.threads ∨ ThreadOk (s.takeovers.set k done) p)
    (hserving : ∀ r w, total (fun th => (th.serves r w).toNat) threads =
      s.serving r w + (th.serves r w).toNat)
    (hlifo : ∀ j r, s.ownsLifo j r → j ≠ i ∧ { s with threads := threads }.ownsLifo j r) :
    Ok { s.takeBack i tk.runtime tk.worker k with
      takeovers := s.takeovers.set k done, threads := threads } := by
  have hlt := (List.getElem?_eq_some_iff.mp hk).1
  have hserves : ∀ r w, (th.serves r w).toNat = (tk.holds r w).toNat := by
    intro r w
    rw [Thread.serves_of_home hhome hover, Takeover.holds_of_phase hphase, hhomeRuntime, hhomeWorker]
  have hholding : ∀ r w, total (fun tk => (tk.holds r w).toNat) (s.takeovers.set k done) +
      (tk.holds r w).toNat = s.holding r w := by
    intro r w
    have hset := total_set (fun tk => (tk.holds r w).toNat) hk done
    simp only [Takeover.not_holds_of_phase hdone, Bool.toNat_false] at hset
    unfold State.holding
    omega
  have hholds : tk.holds tk.runtime tk.worker = true := by
    simp [Takeover.holds_of_phase hphase]
  have hpos : 0 < total (fun th => (th.serves tk.runtime tk.worker).toNat) threads := by
    rw [hserving, hserves, hholds]
    exact Nat.succ_pos _
  refine ⟨fun p hp => ?_, fun r w => ?_, fun p hp => ?_, h.accesses⟩
  · rcases hthreads p hp with hp | hp
    · exact (h.threads p hp).keep (takeoversKeep_set hk hruntime hworker)
    · exact hp
  · have hserved := h.served r w
    have hs := hserving r w
    have hh := hholding r w
    have heq := hserves r w
    simp only [State.serving, State.holding, State.takeBack, State.relocate, State.hasWorker] at *
    omega
  · obtain ⟨n, hn, rfl⟩ := List.mem_mapIdx.mp hp
    have hplaced := h.entries _ (List.getElem_mem hn)
    generalize s.entries[n] = e at hplaced
    cases hplace : e.place with
    | lifo j =>
      simp only [Placed, hplace] at hplaced
      obtain ⟨hji, howns⟩ := hlifo j e.runtime hplaced
      simp only [Placed, reduceCtorEq, decide_false, Place.lifo.injEq, hji, Bool.or_self,
        Bool.false_eq_true, if_false]
      exact howns
    | queue r w =>
      simp only [Placed, hplace] at hplaced
      have hne : ¬ (r = tk.runtime ∧ w = tk.worker) := by
        rintro ⟨rfl, rfl⟩
        simp [h.serving_eq_zero hk hholds] at hplaced
      have hmore : 0 < total (fun th => (th.serves r w).toNat) threads := by
        rw [hserving]
        omega
      simpa [Placed, hne] using ⟨hplaced.1, hmore⟩
    | injector r | polled r | dropped r =>
      simp only [Placed, hplace] at hplaced
      simpa [Placed] using hplaced
    | handedQueue j =>
      simp only [Placed, hplace] at hplaced
      simp only [Placed, reduceCtorEq, decide_false, Bool.or_self, Bool.false_eq_true, if_false,
        Place.handedQueue.injEq]
      obtain ⟨p, hj, hr, hheld⟩ := hplaced
      split_ifs with hjk
      · subst hjk
        obtain rfl : tk = p := Option.some.inj (hk.symm.trans hj)
        exact ⟨hr, hpos⟩
      · exact ⟨p, by rwa [List.getElem?_set_ne (Ne.symm hjk)], hr, hheld⟩
    | handedLifo j =>
      simp only [Placed, hplace] at hplaced
      simp only [Placed, reduceCtorEq, decide_false, Bool.or_self, Bool.false_eq_true, if_false,
        Place.handedLifo.injEq]
      obtain ⟨p, hj, hr, hheld⟩ := hplaced
      split_ifs with hjk
      · subst hjk
        obtain rfl : tk = p := Option.some.inj (hk.symm.trans hj)
        exact ⟨th, home, hi, hhome, hhomeRuntime.symm.trans hr, hover⟩
      · exact ⟨p, by rwa [List.getElem?_set_ne (Ne.symm hjk)], hr, hheld⟩
    | lost =>
      simp only [Placed, hplace] at hplaced

theorem State.ownsLifo_append {j : ℕ} (h : s.ownsLifo j runtime) (threads : List Thread) :
    j < s.threads.length ∧ { s with threads := s.threads ++ threads }.ownsLifo j runtime := by
  obtain ⟨p, home, hj, rest⟩ := h
  have hlt := (List.getElem?_eq_some_iff.mp hj).1
  exact ⟨hlt, p, home, (List.getElem?_append_left hlt).trans hj, rest⟩

theorem Ok.takeoverStarts (h : Ok s) (hk : s.takeovers[k]? = some tk)
    (hphase : tk.phase = .handed) :
    Ok { s.takeBack s.threads.length tk.runtime tk.worker k with
      takeovers := s.takeovers.set k { tk with phase := .serving }
      threads := s.threads ++ [⟨some ⟨tk.runtime, tk.worker, some k⟩, some tk.worker, []⟩] } := by
  have hlt := (List.getElem?_eq_some_iff.mp hk).1
  let home : Home := ⟨tk.runtime, tk.worker, some k⟩
  let th : Thread := ⟨some home, some tk.worker, []⟩
  have hi : (s.threads ++ [th])[s.threads.length]? = some th := by simp
  refine h.takeBack hk (.inl hphase) rfl rfl (.inl rfl) hi rfl rfl rfl rfl ?_ ?_ ?_
  · intro p hp
    rcases List.mem_append.mp hp with hp | hp
    · exact .inl hp
    · obtain rfl := List.mem_singleton.mp hp
      refine .inr ⟨?_, by simp, by simp, by simp, ?_⟩
      · rintro w ⟨rfl⟩
        exact ⟨home, rfl, rfl⟩
      · rintro home' j ⟨rfl⟩ ⟨rfl⟩
        exact ⟨{ tk with phase := .serving }, by simp [hlt], rfl, rfl⟩
  · intro r w
    simp only [total_append, total_cons, total_nil, Nat.add_zero]
    rfl
  · intro j r howns
    obtain ⟨hj, howns⟩ := State.ownsLifo_append howns [th]
    exact ⟨hj.ne, howns⟩

theorem Ok.resume (h : Ok s)
    (hi : s.threads[i]? = some th) (hcalls : th.calls = .blockInPlace k :: calls)
    (hk : s.takeovers[k]? = some tk) (hphase : tk.phase = .returned) :
    Ok { (s.takeBack i tk.runtime tk.worker k).setThread i
        { th with workerId := some tk.worker, calls := calls } with
      takeovers := s.takeovers.set k { tk with phase := .resumed } } := by
  have hok := h.threads th (List.mem_of_getElem? hi)
  obtain ⟨home, tk', hhome, htk', hruntime, hworker⟩ := hok.handed k (hcalls ▸ List.mem_cons_self)
  obtain rfl : tk = tk' := Option.some.inj (hk.symm.trans htk')
  have hnone : calls.countP Call.suspends = 0 := by
    have honce := hok.once
    rw [hcalls, List.countP_cons] at honce
    simp only [Call.suspends, if_true] at honce
    omega
  have hlt := (List.getElem?_eq_some_iff.mp hi).1
  have hover : th.handedOver = true := by
    simp [Thread.handedOver, hcalls, Call.isBlockInPlace]
  have hkeep : TakeoversKeep s.takeovers (s.takeovers.set k { tk with phase := .resumed }) :=
    takeoversKeep_set hk rfl rfl
  have hkept := hok.keep hkeep
  let back : Thread := { th with workerId := some tk.worker, calls := calls }
  have hback : (s.threads.set i back)[i]? = some back := by simp [hlt]
  refine h.takeBack hk (.inr hphase) rfl rfl (.inr rfl) hback hhome
    (Thread.handedOver_of_suspends hnone) hruntime hworker ?_ ?_ ?_
  · intro p hp
    rcases List.mem_or_eq_of_mem_set hp with hp | rfl
    · exact .inl hp
    · refine .inr ⟨?_, fun w hw => ?_, fun j hj => ?_, ?_, hkept.takeover⟩
      · rintro w ⟨rfl⟩
        exact ⟨home, hhome, hworker.symm⟩
      · exact hok.saved w (hcalls ▸ List.mem_cons_of_mem _ hw)
      · exact hkept.handed j (hcalls ▸ List.mem_cons_of_mem _ hj)
      · simp [hnone]
  · intro r w
    have hset := total_set (fun th => (th.serves r w).toNat) hi back
    have hfalse : th.serves r w = false := by simp [Thread.serves, hover]
    simp only [hfalse, Bool.toNat_false] at hset
    exact hset
  · rintro j r ⟨p, home', hj, hhome', hr, hnot⟩
    have hji : j ≠ i := by
      rintro rfl
      rw [hi] at hj
      cases hj
      simp [hover] at hnot
    exact ⟨hji, p, home', (List.getElem?_set_ne hji.symm).trans hj, hhome', hr, hnot⟩

/-- The worker asks for its queues. -/
theorem Ok.request (h : Ok s) (hk : s.takeovers[k]? = some tk) :
    Ok { s with takeovers := s.takeovers.set k { tk with requested := true } } := by
  have hlt := (List.getElem?_eq_some_iff.mp hk).1
  have hholding : ∀ r w, total (fun tk => (tk.holds r w).toNat)
      (s.takeovers.set k { tk with requested := true }) = s.holding r w := by
    intro r w
    have hset := total_set (fun tk => (tk.holds r w).toNat) hk { tk with requested := true }
    exact Nat.add_right_cancel hset
  refine ⟨fun p hp => ?_, fun r w => ?_, fun e he => ?_, h.accesses⟩
  · exact (h.threads p hp).keep (takeoversKeep_set hk rfl rfl)
  · have hserved := h.served r w
    rw [← hholding r w] at hserved
    exact hserved
  · have hplaced := h.entries e he
    unfold Placed at hplaced ⊢
    cases hplace : e.place with
    | handedQueue j | handedLifo j =>
      rw [hplace] at hplaced
      obtain ⟨p, hj, hr, hholds⟩ := hplaced
      by_cases hkj : k = j
      · subst hkj
        obtain rfl : tk = p := Option.some.inj (hk.symm.trans hj)
        exact ⟨{ tk with requested := true }, by simp [hlt], hr, hholds⟩
      · exact ⟨p, (List.getElem?_set_ne hkj).trans hj, hr, hholds⟩
    | lifo j | queue r w | injector r | polled r | dropped r | lost =>
      rw [hplace] at hplaced
      exact hplaced

/-- New threads serve new workers only. -/
theorem Ok.addThreads (h : Ok s) {runtimes : List Runtime} {threads : List Thread}
    (hok : ∀ th ∈ threads, ThreadOk s.takeovers th)
    (hserved : ∀ r w, total (fun th => (th.serves r w).toNat) threads + (s.hasWorker r w).toNat =
      ({ s with runtimes := runtimes }.hasWorker r w).toNat) :
    Ok { s with runtimes := runtimes, threads := s.threads ++ threads } := by
  have hserving : ∀ r w, total (fun th => (th.serves r w).toNat) (s.threads ++ threads) =
      s.serving r w + total (fun th => (th.serves r w).toNat) threads := fun r w => total_append ..
  refine ⟨fun p hp => ?_, fun r w => ?_, fun e he => ?_, fun a ha => ⟨?_, (h.accesses a ha).2⟩⟩
  · rcases List.mem_append.mp hp with hp | hp
    · exact h.threads p hp
    · exact hok p hp
  · have hold := h.served r w
    have hnew := hserved r w
    have hsum := hserving r w
    simp only [State.serving, State.holding, State.hasWorker] at *
    omega
  · have hplaced := h.entries e he
    unfold Placed at hplaced ⊢
    cases hplace : e.place with
    | lifo j =>
      rw [hplace] at hplaced
      exact (State.ownsLifo_append hplaced threads).2
    | queue r w =>
      rw [hplace] at hplaced
      refine ⟨hplaced.1, ?_⟩
      have hsum := hserving r w
      simp only [State.serving] at *
      omega
    | injector r | handedQueue k | handedLifo k | polled r | dropped r | lost =>
      rw [hplace] at hplaced
      exact hplaced
  · have hnew := hserved a.runtime a.worker
    rw [(h.accesses a ha).1, Bool.toNat_true] at hnew
    cases hworker : State.hasWorker { s with runtimes := runtimes } a.runtime a.worker with
    | true => exact hworker
    | false =>
      rw [hworker, Bool.toNat_false] at hnew
      omega

theorem Ok.newThread (h : Ok s) : Ok { s with threads := s.threads ++ [⟨none, none, []⟩] } := by
  refine h.addThreads (fun p hp => ?_) fun r w => ?_
  · obtain rfl := List.mem_singleton.mp hp
    exact ⟨by simp, by simp, by simp, by simp, by simp⟩
  · simp [Thread.serves]

theorem total_workerThreads (n r w : ℕ) :
    total (fun th => (th.serves r w).toNat) (workerThreads runtime n) =
      if runtime = r ∧ w < n then 1 else 0 := by
  induction n with
  | zero => simp [workerThreads]
  | succ n ih =>
    have hsucc : workerThreads runtime (n + 1) = workerThreads runtime n ++
        [{ home := some ⟨runtime, n, none⟩, workerId := some n, calls := [] }] := by
      simp [workerThreads, List.range_succ]
    have hlast : ({ home := some ⟨runtime, n, none⟩, workerId := some n, calls := [] } :
        Thread).serves r w = decide (runtime = r ∧ n = w) := by
      simp [Thread.serves, Thread.handedOver]
    rw [hsucc, total_append, ih, total_cons, total_nil, hlast]
    by_cases hr : runtime = r
    · rcases lt_trichotomy w n with hlt | rfl | hgt
      · rw [if_pos ⟨hr, hlt⟩, if_pos ⟨hr, by omega⟩, decide_eq_false (by omega)]
        rfl
      · rw [if_neg (by omega), if_pos ⟨hr, by omega⟩, decide_eq_true ⟨hr, rfl⟩]
        rfl
      · rw [if_neg (by omega), if_neg (by omega), decide_eq_false (by omega)]
        rfl
    · simp [hr]

theorem Ok.newRuntime (h : Ok s) (workers : ℕ) (lifoSlot : Bool) :
    Ok { s with
      runtimes := s.runtimes ++ [⟨max workers 1, lifoSlot, 0⟩]
      threads := s.threads ++ workerThreads s.runtimes.length (max workers 1) } := by
  refine h.addThreads (fun p hp => ?_) fun r w => ?_
  · obtain ⟨w, -, rfl⟩ := List.mem_map.mp hp
    refine ⟨?_, by simp, by simp, by simp, ?_⟩
    · rintro v ⟨rfl⟩
      exact ⟨_, rfl, rfl⟩
    · rintro home k ⟨rfl⟩ ⟨⟩
  · rw [total_workerThreads]
    rcases lt_trichotomy r s.runtimes.length with hlt | rfl | hgt
    · simp [State.hasWorker, List.getElem?_append_left hlt, hlt.ne']
    · by_cases hw : w < max workers 1 <;> simp [State.hasWorker, hw]
    · have hnone : s.runtimes[r]? = none := List.getElem?_eq_none hgt.le
      have hnone' : (s.runtimes ++ [(⟨max workers 1, lifoSlot, 0⟩ : Runtime)])[r]? = none :=
        List.getElem?_eq_none (by rw [List.length_append]; exact hgt)
      simp [State.hasWorker, hnone, hnone', hgt.ne]

/-- No thread takes its worker number for the one of another runtime: not when it schedules a
task, and not when it blocks in place. -/
def own (s : State) : Event → Bool
  | .wake i x _ => s.threads[i]?.all fun th => s.tasks[x]?.all fun task =>
      s.runtimes[task.runtime]?.all fun rt => !strays th task.runtime (rt.target task)
  | .spawn i runtime _ => s.threads[i]?.all fun th => s.runtimes[runtime]?.all fun rt =>
      th.workerId.all fun worker =>
        !strays th runtime (rt.target ⟨runtime, worker, worker % 2 ^ 32⟩)
  | .blockInPlace i runtime | .spawnFails i runtime => s.threads[i]?.all fun th =>
      th.workerId.all fun worker => !strays th runtime worker
  | _ => true

def Own (s : State) (e : Event) : Prop := own s e = true

instance (s : State) (e : Event) : Decidable (Own s e) := inferInstanceAs (Decidable (_ = true))

theorem Ok.step (h : Ok s) {e : Event} (hown : Own s e) (hs : s.step e = some s') : Ok s' := by
  cases State.steps hs with
  | newRuntime workers lifoSlot => exact h.newRuntime workers lifoSlot
  | newThread => exact h.newThread
  | spawn hi hrt hs =>
    refine h.spawn hi hrt (fun w hid => ?_) hs
    simpa [Own, own, hi, hrt, hid] using hown
  | wake hs =>
    refine h.schedule (fun th task rt hi hx hrt => ?_) hs
    simpa [Own, own, hi, hx, hrt] using hown
  | runLifo hloop hn hplace =>
    exact h.run (State.loop_eq hloop).1 (h.loop_run hloop hn (.inl hplace))
  | pop hloop hn hplace =>
    have hi := (State.loop_eq hloop).1
    exact (h.touch hi (State.serves_of_loop hloop)).run hi
      (h.loop_run hloop hn (.inr (.inr ⟨_, hplace⟩)))
  | popNothing hloop => exact h.touch (State.loop_eq hloop).1 (State.serves_of_loop hloop)
  | takeInjected hloop hn hplace =>
    have hi := (State.loop_eq hloop).1
    exact (h.touch hi (State.serves_of_loop hloop)).run hi
      (h.loop_run hloop hn (.inr (.inl hplace)))
  | fillQueue hloop hn hplace =>
    have hi := (State.loop_eq hloop).1
    have hserves := State.serves_of_loop hloop
    exact (h.touch hi hserves).fill hi hserves (.inl rfl)
  | @steal i victim n moved th home e hloop hn hvictim hplace =>
    have hi := (State.loop_eq hloop).1
    have hserves := State.serves_of_loop hloop
    exact ((h.touch hi hserves).fill hi hserves (.inr ⟨victim, rfl⟩)).run hi
      (h.loop_run hloop hn (.inr (.inr ⟨_, hplace⟩)))
  | pollReturns hi hcalls => exact h.pollReturns hi hcalls
  | blockOn hi hruntime => exact h.blockOn hi
  | blockOnReturns hi hcalls => exact h.blockOnReturns hi hcalls
  | blockOnUnwinds hi hcalls => exact h.blockOnUnwinds hi hcalls
  | blockInPlace hi hrt hid hbound =>
    refine h.blockInPlace hi hid ?_
    simpa [Own, own, hi, hid] using hown
  | strayBlockInPlace hi hrt hid hbound =>
    refine absurd (h.worker_lt hi hrt hid ?_) hbound
    simpa [Own, own, hi, hid] using hown
  | spawnFails hi hrt hid hbound =>
    refine h.spawnFails hi hid ?_
    simpa [Own, own, hi, hid] using hown
  | request hi hcalls hk => exact h.request hk
  | takeoverStarts hk hphase => exact h.takeoverStarts hk hphase
  | takeoverLeaves hloop hhome hk hphase => exact h.takeoverLeaves hloop hhome hk hphase
  | resume hi hcalls hk hphase => exact h.resume hi hcalls hk hphase

theorem ok_of_reachable (h : Reachable State.step Own State.new s) : Ok s :=
  h.invariant ok_new fun _ _ _ hok hown hs => hok.step hown hs

/-- The runtime that a place belongs to. -/
def State.runtimeOf (s : State) : Place → Option ℕ
  | .lifo i => (s.threads[i]?.bind Thread.home).map Home.runtime
  | .queue runtime _ | .injector runtime | .polled runtime | .dropped runtime => some runtime
  | .handedQueue k | .handedLifo k => s.takeovers[k]?.map Takeover.runtime
  | .lost => none

theorem Placed.runtimeOf (h : Placed s e) : s.runtimeOf e.place = some e.runtime := by
  unfold Placed at h
  cases hplace : e.place with
  | lifo i =>
    rw [hplace] at h
    obtain ⟨th, home, hi, hhome, hruntime, -⟩ := h
    simp [State.runtimeOf, hi, hhome, hruntime]
  | queue r w =>
    rw [hplace] at h
    exact congrArg some h.1
  | injector r | polled r | dropped r =>
    rw [hplace] at h
    exact congrArg some h
  | handedQueue k | handedLifo k =>
    rw [hplace] at h
    obtain ⟨tk, hk, hruntime, -⟩ := h
    simp [State.runtimeOf, hk, hruntime]
  | lost =>
    rw [hplace] at h
    exact h.elim

/-- A worker's queue is touched only by the thread that serves the worker, under an index
below the worker count; and an entry stays with its own runtime until a worker of that
runtime polls or drops it. -/
theorem queues_touched_by_their_worker (h : Reachable State.step Own State.new s) :
    (∀ a ∈ s.accesses, s.hasWorker a.runtime a.worker = true ∧ a.servers = [a.thread]) ∧
      ∀ e ∈ s.entries, s.runtimeOf e.place = some e.runtime :=
  ⟨(ok_of_reachable h).accesses, fun e he => ((ok_of_reachable h).entries e he).runtimeOf⟩

/-- Two workers of one runtime, one worker of another, and a thread that is no worker. -/
def twoRuntimes : List Event := [.newRuntime 2 true, .newRuntime 1 true, .newThread]

/-- A task of the second runtime is polled, woken by worker 1 of the first runtime and polled
again; then worker 0 of the first runtime spawns a task of its own and blocks in place. -/
def wakeAcross : List Event :=
  twoRuntimes ++ [Event.spawn 3 1 [], .takeInjected 2 0 false, .pop 2 0, .pollReturns 2,
    .wake 1 0 [], .takeInjected 2 1 false, .pop 2 1, .spawn 0 0 [], .blockInPlace 0 0, .takeoverStarts 0,
    .runLifo 4 2, .pollReturns 4, .request 0, .takeoverLeaves 4, .resume 0, .popNothing 0]

theorem queues_touched_across_runtimes :
    ∃ s, Reachable State.step Own State.new s ∧ s.accesses.length = 6 ∧ s.entries.length = 3 ∧
      (∀ a ∈ s.accesses, s.hasWorker a.runtime a.worker = true ∧ a.servers = [a.thread]) ∧
      ∀ e ∈ s.entries, s.runtimeOf e.place = some e.runtime := by
  obtain ⟨s, hreach, hs⟩ := exists_reachable_of_run
    (show (run (guarded State.step Own) State.new wakeAcross).any
      (fun s => s.accesses.length = 6 && s.entries.length = 3) = true by decide +kernel)
  simp only [Bool.and_eq_true, decide_eq_true_eq] at hs
  exact ⟨s, hreach, hs.1, hs.2, queues_touched_by_their_worker hreach⟩

/-- Both workers of the first runtime poll a task that spawns twice on the second runtime. -/
def spawnAcross : List Event :=
  twoRuntimes ++ [Event.spawn 3 0 [], .spawn 3 0 [], .takeInjected 0 0 false, .pop 0 0,
    .takeInjected 1 1 false, .pop 1 1, .spawn 0 1 [], .spawn 0 1 [], .spawn 1 1 [], .spawn 1 1 [],
    .pollReturns 0, .runLifo 0 2]

/-- The queue of the second runtime's worker is pushed to by a worker of the first, one of its
tasks is polled by the first runtime, and an index is out of bounds. -/
theorem queue_touched_by_stranger :
    ∃ s, Reachable State.step anyStep State.new s ∧
      (∃ a ∈ s.accesses, s.hasWorker a.runtime a.worker = true ∧ a.servers ≠ [a.thread]) ∧
      (∃ e ∈ s.entries, ∃ runtime, e.place = .polled runtime ∧ runtime ≠ e.runtime) ∧
      ∃ a ∈ s.accesses, s.hasWorker a.runtime a.worker = false := by
  obtain ⟨s, hreach, hs⟩ := exists_reachable_of_run
    (show (run (guarded State.step anyStep) State.new spawnAcross).any (fun s =>
      (s.accesses.any fun a => s.hasWorker a.runtime a.worker && a.servers ≠ [a.thread]) &&
      (s.entries.any fun e => e.place = .polled 0 && 0 ≠ e.runtime) &&
      s.accesses.any fun a => !s.hasWorker a.runtime a.worker) = true by decide +kernel)
  simp only [Bool.and_eq_true, List.any_eq_true, decide_eq_true_eq, Bool.not_eq_true'] at hs
  obtain ⟨⟨hstranger, e, he, hplace, hruntime⟩, hindex⟩ := hs
  exact ⟨s, hreach, hstranger, ⟨e, he, 0, hplace, hruntime⟩, hindex⟩

end

end Eddy.Process
