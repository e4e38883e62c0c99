import Eddy.MultiThreadRuntime

/-!
# When a shutdown completes every task

A shutdown cancels what is registered and leaves the tasks that are notified or running to
whoever holds their queue entry. That works as long as the entry is neither dropped nor in the hands
of an unfinished call when the shutdown returns, is queued where a worker will still look, and as no
task is registered behind the shutdown's back.
-/

namespace Eddy.MultiThread
open TaskState TaskHarness Interleaving

/-- What holds of a task while the workers of `finished` have left. -/
structure TaskOk (workers : ℕ) (finished : List ℕ) (t : Task scheduler) : Prop where
  consistent : Consistent t
  registered : Registered t
  kept : t.shared.dropped = 0
  threads : ∀ op ∈ t.ops, op.pc.isFinished = true ∨ live workers finished op.thread = true
  /-- Only workers poll. -/
  polls : ∀ op ∈ t.ops, op.thread = none → op.pc.load.running + op.pc.load.starting = 0
  places : ∀ place ∈ t.shared.entries, serves workers finished place = true

theorem serving_of_live {workers w : ℕ} {finished : List ℕ}
    (h : live workers finished (some w) = true) : serving workers finished = true := by
  simp only [live, Bool.and_eq_true, decide_eq_true_eq] at h
  exact List.any_eq_true.mpr ⟨w, List.mem_range.mpr h.1, h.2⟩

section
variable {workers : ℕ} {finished : List ℕ} {t t' : Task scheduler} {env : Env}
  {a : Action scheduler}

structure StepOk (workers : ℕ) (finished : List ℕ) (env : Env) (t : Task scheduler)
    (a : Action scheduler) : Prop where
  route : ∀ i op caller pre, a = .advance i → t.ops[i]? = some op → op.pc = .schedule caller pre →
    match schedule env op.thread t.shared.target t.shared.ownerId pre with
    | .goOn _ => True
    | .queue _ _ => serving workers finished = true
    | .drop _ => False
  discard : ∀ thread k, a ≠ .discard thread k
  start : ∀ thread, a.startThread = some thread → live workers finished thread = true
  release : ∀ thread, a = .releaseRegistry thread → (view t.shared.word).cancelled = true

/-- `schedule` queues an entry in the injector or in a place of its own worker. -/
theorem schedule_place {thread : Thread} {target owner : ℕ} {pre : Pre} {place : Place}
    {rest : Option Post} (h : schedule env thread target owner pre = .queue place rest) :
    place = .injector ∨ ∃ w, thread = some w ∧ (place = .lifo w ∨ place = .localQueue w) := by
  cases pre with
  | checkShutdown | push =>
    simp only [schedule] at h
    split_ifs at h
  | pushLocked =>
    simp only [schedule] at h
    split_ifs at h
    cases h
    exact .inl rfl
  | route =>
    simp only [schedule] at h
    split_ifs at h with hon <;> cases h
    · exact .inr ⟨_, hon, .inl rfl⟩
    · exact .inr ⟨_, hon, .inr rfl⟩
    · exact .inr ⟨_, hon, .inr rfl⟩

theorem mayMove_serves {source place : Place} (hworkers : env.workers = workers)
    (hfinished : ∀ w, env.finished w = finished.contains w) (h : mayMove env source place = true)
    (hsource : serves workers finished source = true) : serves workers finished place = true := by
  cases source <;> cases place <;> simp only [mayMove, Bool.false_eq_true] at h
  · simpa [serves, live, hworkers, hfinished] using h
  · obtain rfl := of_decide_eq_true h
    exact hsource
  · exact serving_of_live hsource
  · simpa [serves, live, hworkers, hfinished] using h

theorem TaskOk.kept_moves (h : TaskOk workers finished t) (hok : StepOk workers finished env t a)
    (hm : Moves env t a t') : t'.shared.dropped = 0 := by
  induction hm with
  | access hi hacc =>
    rcases hacc.dropped_cases with hsame | ⟨-, hrefuses, -⟩ | ⟨caller, pre, rest, hpc, hdrop⟩
    · exact hsame.trans h.kept
    · cases hrefuses
    · have hroute := hok.route _ _ _ _ rfl hi hpc
      simp only [show schedule env _ _ _ pre = _ from hdrop] at hroute
  | discard => exact absurd rfl (hok.discard _ _)
  | _ => exact h.kept

theorem TaskOk.threads_moves (h : TaskOk workers finished t) (hok : StepOk workers finished env t a)
    (hm : Moves env t a t') :
    ∀ op ∈ t'.ops, op.pc.isFinished = true ∨ live workers finished op.thread = true := by
  intro p hp
  rcases hm.mem_ops hp with
    hp | ⟨i, op, pc, -, hi, hacc, rfl⟩ | ⟨op, hop, result, hpc, rfl⟩ | ⟨-, hstart, -⟩
  · exact h.threads p hp
  · refine .inr ((h.threads op (List.mem_of_getElem? hi)).resolve_left ?_)
    simp [hacc.not_finished]
  · refine .inr ((h.threads op hop).resolve_left ?_)
    simp [hpc, Pc.isFinished]
  · exact .inr (hok.start _ hstart)

theorem TaskOk.places_moves (h : TaskOk workers finished t) (hok : StepOk workers finished env t a)
    (hworkers : env.workers = workers) (hfinished : ∀ w, env.finished w = finished.contains w)
    (hm : Moves env t a t') : ∀ place ∈ t'.shared.entries, serves workers finished place = true := by
  intro place hplace
  induction hm with
  | access hi hacc =>
    rcases hacc.entries_cases with hsame | ⟨caller, pre, place', rest, hpc, hqueue, hentries⟩
    · exact h.places place (hsame ▸ hplace)
    · rw [hentries] at hplace
      rcases List.mem_append.mp hplace with hplace | hplace
      · exact h.places place hplace
      · obtain rfl := List.mem_singleton.mp hplace
        have hroute := hok.route _ _ _ _ rfl hi hpc
        simp only [show schedule env _ _ _ pre = _ from hqueue] at hroute
        rcases schedule_place hqueue with rfl | ⟨w, hthread, hw⟩
        · exact hroute
        · have hlive := (h.threads _ (List.mem_of_getElem? hi)).resolve_left
            (by simp [hacc.not_finished])
          rw [hthread] at hlive
          rcases hw with rfl | rfl <;> exact hlive
  | take | discard => exact h.places place (List.mem_of_mem_eraseIdx hplace)
  | move hk hmay =>
    rcases List.mem_or_eq_of_mem_set hplace with hplace | rfl
    · exact h.places place hplace
    · exact mayMove_serves hworkers hfinished hmay (h.places _ (List.mem_of_getElem? hk))
  | _ => exact h.places place hplace

theorem TaskOk.step (h : TaskOk workers finished t) (hok : StepOk workers finished env t a)
    (hworkers : env.workers = workers) (hfinished : ∀ w, env.finished w = finished.contains w)
    (hs : TaskHarness.step env t a = some t') : TaskOk workers finished t' := by
  have hm := h.consistent.moves hs
  have haway : ∀ thread place, mayTake env thread place = true → ¬ thread = none := by
    rintro thread place hmay rfl
    cases hmay
  exact ⟨h.consistent.step hs, h.registered.moves hm hok.release, h.kept_moves hok hm,
    h.threads_moves hok hm, hm.poll_eq_zero h.polls haway, h.places_moves hok hworkers hfinished hm⟩

end

theorem serving_of_serves {workers : ℕ} {finished : List ℕ} {place : Place}
    (h : serves workers finished place = true) : serving workers finished = true := by
  cases place with
  | injector => exact h
  | lifo | localQueue | overflow => exact serving_of_live h

theorem TaskOk.complete {workers : ℕ} {finished : List ℕ} {t : Task scheduler}
    (h : TaskOk workers finished t) (hserving : serving workers finished = false)
    (hcancelled : (view t.shared.word).cancelled = true)
    (hquiet : ∀ op ∈ t.ops, op.pc.load.handing + op.pc.load.finalizing = 0) :
    (view t.shared.word).complete = true := by
  have hops : ∀ op ∈ t.ops, op.pc.load.running + op.pc.load.starting = 0 := by
    intro op hop
    rcases h.threads op hop with hfin | hlive
    · rw [Pc.isFinished_iff.mp hfin]
      rfl
    · cases hthread : op.thread with
      | none => exact h.polls op hop hthread
      | some w =>
        rw [hthread] at hlive
        simp [serving_of_live hlive] at hserving
  have hentries : t.shared.entries = [] := by
    refine List.eq_nil_iff_forall_not_mem.mpr fun place hplace => ?_
    simp [serving_of_serves (h.places place hplace)] at hserving
  have hsettled : Settled t := by
    refine ⟨hentries, h.kept, .inl hcancelled, fun op hop => ?_⟩
    have := hops op hop
    have := hquiet op hop
    omega
  refine hsettled.isComplete h.consistent fun op hop => ?_
  have := hquiet op hop
  omega

structure Ok (r : Runtime) : Prop where
  tasks : ∀ t ∈ r.tasks, TaskOk r.workers r.finished t
  cancels : Cancels r.tasks r.shutdown.taken r.shutdown.pending
  joined : r.shutdown = .release ∨ r.shutdown = .returned → serving r.workers r.finished = false
  done : r.shutdown = .returned → ∀ t ∈ r.tasks, t.shared.registry ≠ .absent →
    (view t.shared.word).complete = true

theorem ok_new (workers : ℕ) (lifoSlotEnabled : Bool) :
    Ok (Runtime.new workers lifoSlotEnabled) where
  tasks := by simp [Runtime.new]
  cancels := cancels_nil
  joined := by simp [Runtime.new]
  done := by simp [Runtime.new]

variable {r r' : Runtime} {j : ℕ} {t t' : Task scheduler} {full : Bool} {a : Action scheduler}

theorem onTask_eq (h : r.onTask full j a = some r') : ∃ t t', r.tasks[j]? = some t ∧
    TaskHarness.step (r.env full) t a = some t' ∧ r' = { r with tasks := r.tasks.set j t' } := by
  obtain ⟨t, hj, h⟩ := Option.bind_eq_some_iff.mp h
  obtain ⟨t', hs, rfl⟩ := Option.map_eq_some_iff.mp h
  exact ⟨t, t', hj, hs, rfl⟩

theorem Ok.tasks_set (h : Ok r) (ht : TaskOk r.workers r.finished t') :
    ∀ p ∈ r.tasks.set j t', TaskOk r.workers r.finished p := by
  intro p hp
  rcases List.mem_or_eq_of_mem_set hp with hp | rfl
  · exact h.tasks p hp
  · exact ht

/-- Whether the access of an operation drops an entry, queues it where nobody looks any
more, or registers a task behind the back of the shutdown. -/
def orderlyAccess (r : Runtime) (full : Bool) (t : Task scheduler) (op : Op scheduler) : Bool :=
  match op.pc with
  | .schedule _ pre =>
      match schedule (r.env full) op.thread t.shared.target t.shared.ownerId pre with
      | .goOn _ => true
      | .queue _ _ => serving r.workers r.finished
      | .drop _ => false
  | .registerPush => !r.shutdown.taken
  | _ => true

/-- No `schedule` finds the flag set or the injector closed, or queues its entry after the
last worker has left; no task is registered after the registry was taken; and when the
shutdown returns, no call is still bringing an entry of a registered task to a queue or
finalizing the task. -/
def orderly (r : Runtime) : Event → Bool
  | .task _ _ (.discard _ _) => false
  | .task j full (.advance i) =>
      r.tasks[j]?.all fun t => t.ops[i]?.all fun op => orderlyAccess r full t op
  | .return => r.tasks.all fun t => t.shared.registry = .absent ||
      t.ops.all fun op => op.pc.load.handing + op.pc.load.finalizing = 0
  | _ => true

def Orderly (r : Runtime) (e : Event) : Prop := orderly r e = true

instance (r : Runtime) (e : Event) : Decidable (Orderly r e) :=
  inferInstanceAs (Decidable (_ = true))

theorem Orderly.access {i : ℕ} {op : Op scheduler} (h : Orderly r (.task j full (.advance i)))
    (hj : r.tasks[j]? = some t) (hi : t.ops[i]? = some op) : orderlyAccess r full t op = true := by
  simpa [Orderly, orderly, hj, hi] using h

theorem Orderly.stepOk (h : Orderly r (.task j full a)) (hj : r.tasks[j]? = some t)
    (ha : a.ofShutdown = false) (hstart : a.startThread.all (live r.workers r.finished) = true) :
    StepOk r.workers r.finished (r.env full) t a where
  route := by
    rintro i op caller pre rfl hi hpc
    have := h.access hj hi
    simp only [orderlyAccess, hpc] at this
    cases hroute : schedule (r.env full) op.thread t.shared.target t.shared.ownerId pre with
    | goOn => trivial
    | queue => simpa [hroute] using this
    | drop => simp [hroute] at this
  discard := by
    rintro thread k rfl
    cases h
  start := by
    intro thread hthread
    simpa [hthread] using hstart
  release := by
    rintro thread rfl
    cases ha

theorem Ok.task (h : Ok r) (horder : Orderly r (.task j full a)) (ha : a.ofShutdown = false)
    (hstart : a.startThread.all (live r.workers r.finished) = true)
    (honTask : r.onTask full j a = some r') : Ok r' := by
  obtain ⟨t, t', hj, hs, rfl⟩ := onTask_eq honTask
  have hmem := List.mem_of_getElem? hj
  have hold := h.tasks t hmem
  have hm := hold.consistent.moves hs
  have hnew := hold.step (horder.stepOk hj ha hstart) rfl (fun _ => rfl) hs
  have hregister : ∀ i op, a = .advance i → t.ops[i]? = some op → op.pc.registers = true →
      r.shutdown.taken = false := by
    rintro i op rfl hi hpc
    have := horder.access hj hi
    cases hpc' : op.pc <;> simp only [hpc', Pc.registers, Bool.false_eq_true] at hpc
    simpa [orderlyAccess, hpc'] using this
  have hcancels := h.cancels.moves hj hm ha fun i op ha hi hpc _ => hregister i op ha hi hpc
  refine ⟨h.tasks_set hnew, hcancels, h.joined, fun hphase p hp hreg => ?_⟩
  rcases List.mem_or_eq_of_mem_set hp with hp | rfl
  · exact h.done hphase p hp hreg
  · have hreturned : r.shutdown = .returned := hphase
    have htaken : r.shutdown.taken = true := by simp [hreturned, Shutdown.taken]
    refine hm.grows.complete (h.done hphase t hmem ?_)
    rcases hm.registry ha with hsame | ⟨-, i, op, hadv, hi, hpc, -⟩ | ⟨hlisted, -⟩
    · exact hsame ▸ hreg
    · simp [hregister i op hadv hi hpc] at htaken
    · simp [hlisted]

theorem Ok.spawn (h : Ok r) {thread : Thread} {target : ℕ}
    (hs : r.step (.spawn thread target) = some r') : Ok r' := by
  simp only [Runtime.step] at hs
  split_ifs at hs with hspawn
  cases hs
  simp only [Bool.and_eq_true, Bool.not_eq_true', Bool.or_eq_true, decide_eq_true_eq] at hspawn
  obtain ⟨⟨⟨hcalled, hlive⟩, -⟩, -⟩ := hspawn
  have hphase : r.shutdown = .notCalled := by
    cases hshut : r.shutdown <;> simp_all [Shutdown.called]
  have hnew : TaskOk r.workers r.finished (Task.new thread target) := by
    refine ⟨consistent_new _ _, registered_new _ _, rfl, ?_, ?_, ?_⟩
    · simp [Task.new, hlive]
    · simp [Task.new, Pc.load]
    · simp [Task.new]
  have hcancels := h.cancels
  rw [hphase] at hcancels
  refine ⟨fun t ht => ?_, ?_, h.joined, by simp [hphase]⟩
  · rcases List.mem_append.mp ht with ht | ht
    · exact h.tasks t ht
    · obtain rfl := List.mem_singleton.mp ht
      exact hnew
  · simp only [hphase]
    exact hcancels.spawn thread target

theorem live_cons {workers w : ℕ} {finished : List ℕ} {thread : Thread}
    (h : live workers finished thread = true) (hw : thread ≠ some w) :
    live workers (w :: finished) thread = true := by
  cases thread with
  | none => rfl
  | some v =>
    simp only [live, Bool.and_eq_true, decide_eq_true_eq, Bool.not_eq_true'] at h ⊢
    refine ⟨h.1, ?_⟩
    have hne : v ≠ w := fun hvw => hw (congrArg some hvw)
    simpa [hne] using h.2

theorem Ok.finish (h : Ok r) {w : ℕ} (hs : r.step (.finish w) = some r') : Ok r' := by
  simp only [Runtime.step] at hs
  split_ifs at hs with hfinish
  cases hs
  simp only [Bool.and_eq_true] at hfinish
  obtain ⟨⟨-, hlive⟩, hdrained⟩ := hfinish
  refine ⟨fun t ht => ?_, h.cancels, fun hphase => ?_, h.done⟩
  · have hold := h.tasks t ht
    have hempty := List.all_eq_true.mp hdrained t ht
    simp only [Bool.and_eq_true, List.all_eq_true, Bool.or_eq_true, decide_eq_true_eq, ne_eq]
      at hempty
    refine ⟨hold.consistent, hold.registered, hold.kept, fun op hop => ?_, hold.polls,
      fun place hplace => ?_⟩
    · rcases hempty.2 op hop with hne | hfin
      · exact (hold.threads op hop).imp_right fun hlive => live_cons hlive hne
      · exact .inl hfin
    · obtain ⟨⟨⟨hlifo, hlocal⟩, hoverflow⟩, hinjector⟩ := hempty.1 place hplace
      have hserves := hold.places place hplace
      cases place with
      | injector => exact absurd rfl hinjector
      | lifo v | localQueue v | overflow v =>
        refine live_cons (show live r.workers r.finished (some v) = true from hserves) ?_
        rintro ⟨rfl⟩
        contradiction
  · exact absurd (h.joined hphase) (by simp [serving_of_live hlive])

/-- The steps of a shutdown need no condition of their own. -/
theorem stepOk_shutdown (hstart : ∀ thread, a.startThread = some thread → thread = none)
    (hadvance : ∀ i, a ≠ .advance i) (hdiscard : ∀ thread k, a ≠ .discard thread k)
    (hrelease : ∀ thread, a = .releaseRegistry thread → (view t.shared.word).cancelled = true) :
    StepOk r.workers r.finished (r.env full) t a where
  route := fun i _ _ _ ha => absurd ha (hadvance i)
  discard := hdiscard
  start := by
    intro thread hthread
    rw [hstart thread hthread]
    rfl
  release := hrelease

theorem Ok.takeTasks (h : Ok r) (hs : r.step .takeTasks = some r') : Ok r' := by
  simp only [Runtime.step] at hs
  split at hs <;> cases hs
  rename_i hphase
  have hcancels := h.cancels
  rw [hphase] at hcancels
  refine ⟨fun p hp => ?_, hcancels.takeAll _, by simp, by simp⟩
  obtain ⟨t, ht, rfl⟩ := List.mem_map.mp hp
  have hold := h.tasks t ht
  cases hstep : TaskHarness.step (r.env false) t .takeRegistry with
  | none => exact hold
  | some t' =>
    refine hold.step (stepOk_shutdown ?_ ?_ ?_ ?_) rfl (fun _ => rfl) hstep <;>
      simp [Action.startThread]

theorem Ok.cancelNext (h : Ok r) (hs : r.step .cancelNext = some r') : Ok r' := by
  simp only [Runtime.step] at hs
  split at hs
  · rename_i j rest hphase
    obtain ⟨t, hj, hs⟩ := Option.bind_eq_some_iff.mp hs
    obtain ⟨t₂, hcall, rfl⟩ := Option.map_eq_some_iff.mp hs
    have hold := h.tasks t (List.mem_of_getElem? hj)
    obtain ⟨t₁, habort, hadvance, hop, hcancelled, hregistry⟩ :=
      callShutdown_eq hold.consistent hcall
    have hok₁ : TaskOk r.workers r.finished t₁ := by
      refine hold.step (stepOk_shutdown ?_ ?_ ?_ ?_) rfl (fun _ => rfl) habort <;>
        simp [Action.startThread]
    have hok₂ : TaskOk r.workers r.finished t₂ := by
      refine hok₁.step ⟨?_, by simp, by simp [Action.startThread], by simp⟩ rfl (fun _ => rfl)
        hadvance
      rintro i op caller pre hi hi' hpc
      cases hi
      rw [hop] at hi'
      cases hi'
      cases hpc
    have hcancels := h.cancels
    rw [hphase] at hcancels
    exact ⟨h.tasks_set hok₂, hcancels.cancel hj hcancelled hregistry, by simp, by simp⟩
  · cases hs

theorem Ok.release (h : Ok r) (hs : r.step (.release j) = some r') : Ok r' := by
  simp only [Runtime.step] at hs
  split at hs
  · rename_i hphase
    obtain ⟨t, t', hj, hrelease, rfl⟩ := onTask_eq hs
    have hmem := List.mem_of_getElem? hj
    have hold := h.tasks t hmem
    obtain ⟨htaken, hremoved⟩ : t.shared.registry = .taken ∧ t'.shared.registry = .removed := by
      cases hold.consistent.moves hrelease with
      | releaseRegistry htaken => exact ⟨htaken, rfl⟩
    have hcancelled : (view t.shared.word).cancelled = true := by
      refine (h.cancels.cancelled j t hj htaken).resolve_right ?_
      simp [hphase, Shutdown.pending]
    have hnew : TaskOk r.workers r.finished t' := by
      refine hold.step (stepOk_shutdown ?_ ?_ ?_ fun _ _ => hcancelled) rfl (fun _ => rfl)
        hrelease <;> simp [Action.startThread]
    exact ⟨h.tasks_set hnew, h.cancels.set hj (by simp [hremoved]) (by simp [hremoved])
      (hold.consistent.moves hrelease).grows.cancelled, h.joined, by simp [hphase]⟩
  · cases hs

/-- The steps of the shutdown that touch no task. -/
theorem Ok.phase (h : Ok r) {phase : Shutdown} {closed : Bool}
    (htaken : phase.taken = r.shutdown.taken)
    (hpending : ∀ k, k ∈ r.shutdown.pending → k ∈ phase.pending)
    (hjoined : phase = .release → serving r.workers r.finished = false)
    (hreturned : phase ≠ .returned) : Ok { r with closed := closed, shutdown := phase } where
  tasks := h.tasks
  cancels :=
    { listed := fun hphase => h.cancels.listed (htaken ▸ hphase)
      untaken := fun hphase => h.cancels.untaken (htaken ▸ hphase)
      cancelled := fun k t hk htaken =>
        (h.cancels.cancelled k t hk htaken).imp_right (hpending k) }
  joined := fun hphase => hjoined (hphase.resolve_right hreturned)
  done := fun hphase => absurd hphase hreturned

theorem Ok.return (h : Ok r) (horder : Orderly r .return) (hs : r.step .return = some r') :
    Ok r' := by
  simp only [Runtime.step] at hs
  split at hs
  · rename_i hphase
    split_ifs at hs with hreleased
    cases hs
    have hserving := h.joined (.inl hphase)
    have htaken : r.shutdown.taken = true := by simp [hphase, Shutdown.taken]
    have hnotTaken : ∀ t ∈ r.tasks, t.shared.registry ≠ .taken := fun t ht => by
      simpa using List.all_eq_true.mp hreleased t ht
    refine ⟨h.tasks, ⟨fun _ => h.cancels.listed htaken, by simp [Shutdown.taken],
      fun k t hk hreg => absurd hreg (hnotTaken t (List.mem_of_getElem? hk))⟩,
      fun _ => hserving, fun _ t ht hreg => ?_⟩
    · have hold := h.tasks t ht
      have hquiet := List.all_eq_true.mp horder t ht
      simp only [hreg, decide_false, Bool.false_or, List.all_eq_true, decide_eq_true_eq] at hquiet
      have hremoved : t.shared.registry = .removed := by
        have hnotListed := h.cancels.listed htaken t ht
        have hnotTaken := hnotTaken t ht
        cases hcase : t.shared.registry <;> simp_all
      rcases hold.registered.removed hremoved with hc | hx
      · exact hc
      · exact hold.complete hserving hx hquiet
  · cases hs

theorem Ok.step (h : Ok r) {e : Event} (horder : Orderly r e) (hs : r.step e = some r') :
    Ok r' := by
  cases e with
  | spawn thread target => exact h.spawn hs
  | task j full a =>
    simp only [Runtime.step] at hs
    split_ifs at hs with hallowed
    simp only [Bool.or_eq_true, Bool.not_eq_true', not_or, Bool.not_eq_true, Bool.not_eq_false]
      at hallowed
    exact h.task horder hallowed.1 hallowed.2 hs
  | finish w => exact h.finish hs
  | takeTasks => exact h.takeTasks hs
  | cancelNext => exact h.cancelNext hs
  | release j => exact h.release hs
  | «return» => exact h.return horder hs
  | swap | close | unparkAll =>
    simp only [Runtime.step] at hs
    split at hs <;> cases hs
    rename_i hphase
    refine h.phase ?_ ?_ ?_ ?_ <;> simp [hphase, Shutdown.taken, Shutdown.pending]
  | cancelReturns =>
    simp only [Runtime.step] at hs
    split at hs
    · rename_i hphase
      split_ifs at hs
      cases hs
      refine h.phase ?_ ?_ ?_ ?_ <;> simp [hphase, Shutdown.taken, Shutdown.pending]
    · cases hs
  | join =>
    simp only [Runtime.step] at hs
    split at hs
    · rename_i hphase
      split_ifs at hs with hserving
      cases hs
      refine h.phase ?_ ?_ ?_ ?_ <;> simp [hphase, Shutdown.taken, Shutdown.pending]
      simpa using hserving
    · cases hs

theorem ok_of_reachable {workers : ℕ} {lifoSlotEnabled : Bool}
    (h : Reachable Runtime.step Orderly (Runtime.new workers lifoSlotEnabled) r) : Ok r :=
  h.invariant (ok_new workers lifoSlotEnabled) fun _ _ _ hok horder hs => hok.step horder hs

theorem shutdown_completes_registered {workers : ℕ} {lifoSlotEnabled : Bool}
    (h : Reachable Runtime.step Orderly (Runtime.new workers lifoSlotEnabled) r)
    (hreturned : r.shutdown = .returned) :
    ∀ t ∈ r.tasks, t.shared.registry ≠ .absent → Snapshot.isComplete t.shared.word = true :=
  (ok_of_reachable h).done hreturned

def shutdownParked : List Event :=
  spawnAndPark ++ [Event.swap, .close, .takeTasks, .cancelNext] ++ onFirst (advances 2 4) ++
    [Event.cancelReturns, .unparkAll, .finish 0, .join, .release 0, .return]

/-- The task is woken just before the shutdown, and the wake finds the flag set. -/
def shutdownDuringWake : List Event :=
  spawnAndPark ++ onFirst (.wake none :: advances 2 1) ++
    [Event.swap, .close, .takeTasks, .cancelNext, .cancelReturns, .unparkAll, .finish 0, .join] ++
    onFirst (advances 2 2) ++ [Event.release 0, .return]

def Runtime.unresolved (r : Runtime) : Bool :=
  r.tasks.any fun t => t.shared.registry ≠ .absent && !Snapshot.isComplete t.shared.word

theorem shutdown_completes_parked :
    ∃ r, Reachable Runtime.step Orderly (Runtime.new 1 true) r ∧ r.shutdown = .returned ∧
      r.tasks.length = 1 ∧
      ∀ t ∈ r.tasks, t.shared.registry ≠ .absent → Snapshot.isComplete t.shared.word = true := by
  obtain ⟨r, hreach, hr⟩ := exists_reachable_of_run
    (show (run (guarded Runtime.step Orderly) (Runtime.new 1 true) shutdownParked).any
      (fun r => r.shutdown = .returned && r.tasks.length = 1) = true by decide +kernel)
  simp only [Bool.and_eq_true, decide_eq_true_eq] at hr
  exact ⟨r, hreach, hr.1, hr.2, shutdown_completes_registered hreach hr.1⟩

/-- The shutdown returns and the task it left to the dropped entry never completes. -/
theorem shutdown_leaves_woken_task :
    ∃ r, Reachable Runtime.step anyStep (Runtime.new 1 true) r ∧ r.shutdown = .returned ∧
      ∃ t ∈ r.tasks, t.shared.registry ≠ .absent ∧ Snapshot.isComplete t.shared.word = false := by
  obtain ⟨r, hreach, hr⟩ := exists_reachable_of_run
    (show (run (guarded Runtime.step anyStep) (Runtime.new 1 true) shutdownDuringWake).any
      (fun r => r.shutdown = .returned && r.unresolved) = true by decide +kernel)
  simp only [Bool.and_eq_true, decide_eq_true_eq, Runtime.unresolved, List.any_eq_true,
    Bool.not_eq_true'] at hr
  obtain ⟨hreturned, t, ht, hreg, hc⟩ := hr
  exact ⟨r, hreach, hreturned, t, ht, hreg, hc⟩

end Eddy.MultiThread
