import Eddy.ProcessOwnership

/-!
# The identity of a worker

`block_on` takes the `WORKER_ID` of its thread and puts it back when its root future has returned;
`block_in_place` puts it back in any case. A call inside of either finds no identity and has none to
put back. So a thread keeps its identity until the root future of a `block_on` that took it panics,
or the takeover thread of a `block_in_place` is not started, and from then on never has it again.
-/

namespace Eddy.Process
open Interleaving

/-- The identity that the end of a call puts back. -/
def Call.restores (takeovers : List Takeover) : Call → Option ℕ
  | .poll => none
  | .blockOn wasWorker => wasWorker
  | .blockInPlace k => (takeovers[k]?).map Takeover.worker

/-- The thread is between two polls of its loop or in a poll outside of any call. -/
def Thread.outside (th : Thread) : Prop := th.calls = [] ∨ th.calls = [.poll]

/-- Outside of calls, a thread that runs a `worker_loop` has the identity of its worker. -/
def State.Restored (s : State) : Prop :=
  ∀ th ∈ s.threads, ∀ home, th.home = some home → th.outside → th.workerId = some home.worker

/-- The root future of a `block_on` that has taken an identity does not panic, and a takeover thread
is started. -/
def State.Calm (s : State) : Event → Prop
  | .blockOnUnwinds i => ∀ th, s.threads[i]? = some th → ∀ w,
      th.calls.head? ≠ some (.blockOn (some w))
  | .spawnFails _ _ => False
  | _ => True

/-- Where the identity of a thread is: one that runs a `worker_loop` has it outside of calls, and
the outermost call puts it back. -/
inductive Identity (takeovers : List Takeover) : Thread → Prop where
  | stranger {calls} (inner : ∀ call ∈ calls, call = .blockOn none) :
      Identity takeovers ⟨none, none, calls⟩
  | kept {home calls} (outside : calls = [] ∨ calls = [.poll]) :
      Identity takeovers ⟨some home, some home.worker, calls⟩
  | away {home inner call outer} (within : ∀ call ∈ inner, call = .blockOn none)
      (outside : outer = [] ∨ outer = [.poll])
      (restores : call.restores takeovers = some home.worker) :
      Identity takeovers ⟨some home, none, inner ++ call :: outer⟩

structure Kept (s : State) : Prop where
  threads : ∀ th ∈ s.threads, Identity s.takeovers th

section
variable {s t : State} {i k runtime : ℕ} {th th' : Thread} {takeovers : List Takeover}

theorem Identity.keep {takeovers' : List Takeover} (h : Identity takeovers th)
    (hkeep : TakeoversKeep takeovers takeovers') : Identity takeovers' th := by
  cases h with
  | stranger hinner => exact .stranger hinner
  | kept houtside => exact .kept houtside
  | @away home inner call outer hwithin houtside hrestores =>
    refine .away hwithin houtside ?_
    cases call with
    | poll => cases hrestores
    | blockOn wasWorker => exact hrestores
    | blockInPlace k =>
      obtain ⟨tk, htk, hworker⟩ := Option.map_eq_some_iff.mp hrestores
      obtain ⟨tk', htk', -, hworker'⟩ := hkeep k tk htk
      exact Option.map_eq_some_iff.mpr ⟨tk', htk', hworker'.trans hworker⟩

variable {calls : List Call} {home : Home}

theorem Identity.restored (h : Identity takeovers th) (hhome : th.home = some home)
    (houtside : th.outside) : th.workerId = some home.worker := by
  cases h with
  | stranger => cases hhome
  | kept => exact congrArg (Option.map Home.worker) hhome
  | @away home' inner call outer hwithin _ hrestores =>
    exfalso
    have hmem : call ∈ inner ++ call :: outer := by simp
    rcases houtside with hnil | hpoll
    · simp only at hnil
      rw [hnil] at hmem
      cases hmem
    · simp only at hpoll
      rw [hpoll, List.mem_singleton] at hmem
      rw [hmem] at hrestores
      cases hrestores

theorem Kept.restored (h : Kept s) : s.Restored :=
  fun th hth _ hhome houtside => (h.threads th hth).restored hhome houtside

theorem Kept.of_eq (h : Kept s) (hthreads : t.threads = s.threads)
    (htakeovers : t.takeovers = s.takeovers) : Kept t := by
  refine ⟨fun th hth => ?_⟩
  rw [htakeovers]
  rw [hthreads] at hth
  exact h.threads th hth

theorem Kept.set (h : Kept s) (hthreads : t.threads = s.threads.set i th')
    (hkeep : TakeoversKeep s.takeovers t.takeovers) (hidentity : Identity t.takeovers th') :
    Kept t := by
  refine ⟨fun th hth => ?_⟩
  rw [hthreads] at hth
  rcases List.mem_or_eq_of_mem_set hth with hth | rfl
  · exact (h.threads th hth).keep hkeep
  · exact hidentity

theorem Kept.append (h : Kept s) {threads : List Thread}
    (hthreads : t.threads = s.threads ++ threads) (hkeep : TakeoversKeep s.takeovers t.takeovers)
    (hidentity : ∀ th ∈ threads, Identity t.takeovers th) : Kept t := by
  refine ⟨fun th hth => ?_⟩
  rw [hthreads] at hth
  rcases List.mem_append.mp hth with hth | hth
  · exact (h.threads th hth).keep hkeep
  · exact hidentity th hth

theorem takeoversKeep_refl (takeovers : List Takeover) : TakeoversKeep takeovers takeovers :=
  fun _ tk hk => ⟨tk, hk, rfl, rfl⟩

theorem Identity.poll (h : Identity takeovers th) (hhome : th.home = some home)
    (hcalls : th.calls = []) : Identity takeovers { th with calls := .poll :: th.calls } := by
  cases h with
  | stranger => cases hhome
  | kept => exact .kept (.inr (congrArg (Call.poll :: ·) hcalls))
  | away => simp at hcalls

theorem Identity.pollReturns (h : Identity takeovers th)
    (hcalls : th.calls = .poll :: calls) : Identity takeovers { th with calls := calls } := by
  cases h with
  | stranger hinner =>
    cases hcalls
    exact absurd (hinner .poll List.mem_cons_self) nofun
  | kept houtside =>
    rcases houtside with rfl | rfl <;> cases hcalls
    exact .kept (.inl rfl)
  | @away home inner call outer hwithin _ hrestores =>
    cases inner with
    | nil =>
      cases hcalls
      cases hrestores
    | cons c inner =>
      cases hcalls
      exact absurd (hwithin .poll List.mem_cons_self) nofun

/-- An identity that is there is taken, and otherwise the call takes none. -/
theorem Identity.blockOn (h : Identity takeovers th) :
    Identity takeovers { th with workerId := none, calls := .blockOn th.workerId :: th.calls } := by
  cases h with
  | stranger hinner => exact .stranger (List.forall_mem_cons.mpr ⟨rfl, hinner⟩)
  | @kept home calls houtside => exact @Identity.away _ home [] _ _ nofun houtside rfl
  | @away home inner call outer hwithin houtside hrestores =>
    exact @Identity.away _ home (.blockOn none :: inner) _ _
      (List.forall_mem_cons.mpr ⟨rfl, hwithin⟩) houtside hrestores

theorem Identity.blockOnReturns (h : Identity takeovers th) {wasWorker : Option ℕ}
    (hcalls : th.calls = .blockOn wasWorker :: calls) :
    Identity takeovers { th with workerId := wasWorker.or th.workerId, calls := calls } := by
  cases h with
  | stranger hinner =>
    cases hcalls
    cases hinner _ List.mem_cons_self
    exact .stranger fun call hcall => hinner call (List.mem_cons_of_mem _ hcall)
  | kept houtside => rcases houtside with rfl | rfl <;> cases hcalls
  | @away home inner call outer hwithin houtside hrestores =>
    cases inner with
    | nil =>
      cases hcalls
      cases hrestores
      exact .kept houtside
    | cons c inner =>
      cases hcalls
      cases hwithin _ List.mem_cons_self
      exact .away (fun call hcall => hwithin call (List.mem_cons_of_mem _ hcall)) houtside hrestores

theorem Identity.blockOnUnwinds (h : Identity takeovers th)
    (hcalls : th.calls = .blockOn none :: calls) :
    Identity takeovers { th with calls := calls } := by
  cases h with
  | stranger hinner =>
    cases hcalls
    exact .stranger fun call hcall => hinner call (List.mem_cons_of_mem _ hcall)
  | kept houtside => rcases houtside with rfl | rfl <;> cases hcalls
  | @away home inner call outer hwithin houtside hrestores =>
    cases inner with
    | nil =>
      cases hcalls
      cases hrestores
    | cons c inner =>
      cases hcalls
      exact .away (fun call hcall => hwithin call (List.mem_cons_of_mem _ hcall)) houtside hrestores

/-- A call that took an identity unwinds, and the thread is outside of calls without it. -/
theorem Identity.lost (h : Identity takeovers th) {w : ℕ}
    (hcalls : th.calls = .blockOn (some w) :: calls) :
    ∃ home, th.home = some home ∧ th.workerId = none ∧ (calls = [] ∨ calls = [.poll]) := by
  cases h with
  | stranger hinner =>
    cases hcalls
    cases hinner _ List.mem_cons_self
  | kept houtside => rcases houtside with rfl | rfl <;> cases hcalls
  | @away home inner call outer hwithin houtside _ =>
    cases inner with
    | nil =>
      cases hcalls
      exact ⟨home, rfl, rfl, houtside⟩
    | cons c inner =>
      cases hcalls
      cases hwithin _ List.mem_cons_self

theorem Identity.outside (h : Identity takeovers th) {w : ℕ} (hid : th.workerId = some w) :
    ∃ home, th.home = some home ∧ th.outside := by
  cases h with
  | stranger => cases hid
  | @kept home calls houtside => exact ⟨home, rfl, houtside⟩
  | away => cases hid

theorem Identity.blockInPlace (h : Identity takeovers th) {worker : ℕ}
    (hid : th.workerId = some worker) {tk : Takeover} (htk : takeovers[k]? = some tk)
    (hworker : tk.worker = worker) :
    Identity takeovers { th with workerId := none, calls := .blockInPlace k :: th.calls } := by
  cases h with
  | stranger => cases hid
  | @kept home calls houtside =>
    cases hid
    refine @Identity.away _ home [] _ _ nofun houtside ?_
    rw [Call.restores, htk, Option.map_some, hworker]
  | away => cases hid

theorem Identity.resume (h : Identity takeovers th)
    (hcalls : th.calls = .blockInPlace k :: calls) {tk : Takeover} (htk : takeovers[k]? = some tk) :
    Identity takeovers { th with workerId := some tk.worker, calls := calls } := by
  cases h with
  | stranger hinner =>
    cases hcalls
    cases hinner _ List.mem_cons_self
  | kept houtside => rcases houtside with rfl | rfl <;> cases hcalls
  | @away home inner call outer hwithin houtside hrestores =>
    cases inner with
    | nil =>
      cases hcalls
      rw [Call.restores, htk, Option.map_some, Option.some.injEq] at hrestores
      rw [hrestores]
      exact .kept houtside
    | cons c inner =>
      cases hcalls
      cases hwithin _ List.mem_cons_self

theorem Kept.schedule (h : Kept s) {x : ℕ} {moved : List ℕ} (hs : s.Schedules i x moved t) :
    Kept t := by
  cases hs with
  | lifo | queue | lost | injector => exact h.of_eq rfl rfl

/-- A worker polls an entry that it has taken in one way or another. -/
theorem Kept.run (h : Kept s) (hloop : s.loop i = some (th, home))
    (hthreads : t.threads = s.threads) (htakeovers : t.takeovers = s.takeovers) (n : ℕ)
    (e : Entry) : Kept (t.run i th home n e) := by
  obtain ⟨hi, hhome, hcalls⟩ := State.loop_eq hloop
  have hidentity := (h.threads th (List.mem_of_getElem? hi)).poll hhome hcalls
  refine h.set (show t.threads.set i _ = _ by rw [hthreads]) ?_ ?_
  · rw [show (t.run i th home n e).takeovers = s.takeovers from htakeovers]
    exact takeoversKeep_refl _
  · rw [show (t.run i th home n e).takeovers = s.takeovers from htakeovers]
    exact hidentity

theorem Kept.step {event : Event} (h : Kept s) (hcalm : s.Calm event)
    (hs : s.step event = some t) : Kept t := by
  cases State.steps hs with
  | newRuntime workers lifoSlot =>
    refine h.append rfl (takeoversKeep_refl _) fun th hth => ?_
    obtain ⟨worker, -, rfl⟩ := List.mem_map.mp hth
    exact .kept (.inl rfl)
  | newThread =>
    refine h.append rfl (takeoversKeep_refl _) fun th hth => ?_
    rw [List.mem_singleton.mp hth]
    exact .stranger nofun
  | spawn hi hrt hs =>
    refine Kept.schedule ?_ hs
    split_ifs <;> exact h.of_eq rfl rfl
  | wake hs => exact h.schedule hs
  | runLifo hloop => exact h.run hloop rfl rfl _ _
  | popNothing | fillQueue => exact h.of_eq rfl rfl
  | @pop i n th home e hloop | @takeInjected i n th home e hloop =>
    exact h.run (t := s.touch i home.runtime home.worker) hloop rfl rfl n e
  | @steal i victim n moved th home e hloop =>
    exact h.run (t := (s.touch i home.runtime home.worker).move moved
      (.queue home.runtime victim) (.queue home.runtime home.worker)) hloop rfl rfl n e
  | @pollReturns i th calls hi hcalls =>
    have hidentity := h.threads th (List.mem_of_getElem? hi)
    exact h.set rfl (takeoversKeep_refl _) (hidentity.pollReturns hcalls)
  | @blockOn i runtime th hi =>
    have hidentity := h.threads th (List.mem_of_getElem? hi)
    exact h.set rfl (takeoversKeep_refl _) hidentity.blockOn
  | @blockOnReturns i th wasWorker calls hi hcalls =>
    have hidentity := h.threads th (List.mem_of_getElem? hi)
    exact h.set rfl (takeoversKeep_refl _) (hidentity.blockOnReturns hcalls)
  | @blockOnUnwinds i th wasWorker calls hi hcalls =>
    have hidentity := h.threads th (List.mem_of_getElem? hi)
    cases wasWorker with
    | none => exact h.set rfl (takeoversKeep_refl _) (hidentity.blockOnUnwinds hcalls)
    | some w => exact absurd (congrArg List.head? hcalls) (hcalm th hi w)
  | @blockInPlace i runtime worker th rt hi hrt hid =>
    have hidentity := h.threads th (List.mem_of_getElem? hi)
    let tk : Takeover := ⟨runtime, worker, .handed, false⟩
    have hkeep := takeoversKeep_append s.takeovers tk
    have hlast : (s.takeovers ++ [tk])[s.takeovers.length]? = some tk := by simp
    exact h.set rfl hkeep ((hidentity.keep hkeep).blockInPlace hid hlast rfl)
  | strayBlockInPlace => exact h.of_eq rfl rfl
  | spawnFails => exact hcalm.elim
  | request hi hcalls hk =>
    refine ⟨fun th hth => (h.threads th hth).keep ?_⟩
    exact takeoversKeep_set hk rfl rfl
  | takeoverStarts hk =>
    refine h.append rfl (takeoversKeep_set hk rfl rfl) fun th hth => ?_
    rw [List.mem_singleton.mp hth]
    exact .kept (.inl rfl)
  | takeoverLeaves hloop hhome hk =>
    exact h.set rfl (takeoversKeep_set hk rfl rfl) (.stranger nofun)
  | @resume i k th calls tk hi hcalls hk =>
    have hkeep : TakeoversKeep s.takeovers (s.takeovers.set k { tk with phase := .resumed }) :=
      takeoversKeep_set hk rfl rfl
    have hidentity := (h.threads th (List.mem_of_getElem? hi)).resume hcalls hk
    exact h.set rfl hkeep (hidentity.keep hkeep)

/-- The unwinding of a call that took an identity, or fails to hand over, leaves its thread without
one. -/
theorem Kept.calm {event : Event} (h : Kept s) (hs : s.step event = some t) (ht : t.Restored) :
    s.Calm event := by
  cases State.steps hs with
  | @blockOnUnwinds i th wasWorker calls hi hcalls =>
    intro th' hi' w hhead
    obtain rfl : th = th' := Option.some.inj (hi.symm.trans hi')
    rw [hcalls, List.head?_cons, Option.some.injEq] at hhead
    rw [hhead] at hcalls
    obtain ⟨home, hhome, hid, houtside⟩ :=
      (h.threads th (List.mem_of_getElem? hi)).lost hcalls
    have hlt := (List.getElem?_eq_some_iff.mp hi).1
    have hrestored := ht { th with calls := calls } (List.mem_set hlt _) home hhome houtside
    rw [show ({ th with calls := calls } : Thread).workerId = none from hid] at hrestored
    cases hrestored
  | @spawnFails i runtime worker th rt hi hrt hid hbound =>
    obtain ⟨home, hhome, houtside⟩ := (h.threads th (List.mem_of_getElem? hi)).outside hid
    have hlt := (List.getElem?_eq_some_iff.mp hi).1
    have hrestored := ht { th with workerId := none } (List.mem_set hlt _) home hhome houtside
    cases hrestored
  | _ => trivial

theorem restored_iff_calm (events : List Event) :
    Always State.step State.Restored State.new events ↔
      Obeys State.step State.Calm State.new events :=
  always_iff_obeys (I := Kept) (fun _ h => h.restored)
    (fun _ _ _ h hcalm hs => h.step hcalm hs) (fun _ _ _ h hs ht => h.calm hs ht)
    ⟨by simp [State.new]⟩ events

/-- A task blocks on a future that panics: the harness catches the panic, and its worker goes on
with the loop without an identity. -/
def panickingBlockOn : List Event :=
  [.newRuntime 1 true, .newThread, .spawn 1 0 [], .takeInjected 0 0 true, .blockOn 0 0,
    .blockOnUnwinds 0, .pollReturns 0]

theorem identity_lost : ∃ s, Reachable State.step anyStep State.new s ∧
    (∃ th, s.threads[0]? = some th ∧ th.home = some ⟨0, 0, none⟩ ∧ th.calls = [] ∧
      th.workerId = none) ∧ ¬ s.Restored := by
  have hrun : (run (guarded State.step anyStep) State.new panickingBlockOn).any (fun s =>
      (s.threads[0]?).any fun th => decide (th.home = some ⟨0, 0, none⟩ ∧ th.calls = [] ∧
        th.workerId = none)) = true := by decide +kernel
  obtain ⟨s, hreach, hs⟩ := exists_reachable_of_run hrun
  obtain ⟨th, hth, hlost⟩ := (Option.any_eq_true _ _).mp hs
  obtain ⟨hhome, hcalls, hid⟩ := of_decide_eq_true hlost
  refine ⟨s, hreach, ⟨th, hth, hhome, hcalls, hid⟩, fun hrestored => ?_⟩
  have hsome := hrestored th (List.mem_of_getElem? hth) _ hhome (.inl hcalls)
  rw [hid] at hsome
  cases hsome

end
end Eddy.Process
