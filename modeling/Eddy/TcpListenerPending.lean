import Eddy.TcpListener

/-!
# Whoever searches while a connection is queued may be stranded

A call looks into `pending` once, before it waits. So a connection that another call queues later
does not reach it: it goes on waiting for a readiness that the drain has cleared.
-/

namespace Eddy.TcpListener
open Interleaving ScheduledIo

namespace State

variable {s t : State} {i : ℕ} {c : Call}

theorem underLock_eq_some {u : State} : s.underLock u = some t ↔ s.holder = none ∧ u = t := by
  unfold underLock
  cases s.holder <;> simp

theorem detach_eq_some {place : Place} :
    s.detach i place = some t ↔
      s.holder = none ∧ { s with waiters := s.waiters.erase i }.setCall i ⟨place, false⟩ = t :=
  underLock_eq_some

/-- What a call may do that goes on from `c` to `c'`. -/
structure Moves (s t : State) (i : ℕ) (c c' : Call) : Prop where
  calls : t.calls = s.calls.set i c'
  packed : t.packed = s.packed ∨ ∃ event, t.packed = (s.clearReady event).packed
  holder : t.holder = s.holder
  /-- It begins to search only if it finds `pending` empty. -/
  searching : c'.place.searching = true →
    c.place.pushes = false ∧ (c.place.searching = true ∨ s.pending = [])
  pending : c.place.pushes = false → s.pending = [] → t.pending = []

variable {l : Label} {c' : Call}

/-- The call searches as before, and the word and `pending` stay as they are. -/
theorem Moves.keeps (hcalls : t.calls = s.calls.set i c')
    (hpacked : t.packed = s.packed) (hholder : t.holder = s.holder)
    (hpending : t.pending = s.pending)
    (hsearching : c'.place.searching = true →
      c.place.pushes = false ∧ (c.place.searching = true ∨ s.pending = [])) : Moves s t i c c' :=
  ⟨hcalls, .inl hpacked, hholder, hsearching, fun _ hnil => hpending.trans hnil⟩

theorem next_moves (hnext : s.next i c = some t) : ∃ c', Moves s t i c c' := by
  obtain ⟨place, registered⟩ := c
  cases place with
  | checks =>
    simp only [next] at hnext
    split at hnext
    · rename_i hcons
      cases hnext
      exact ⟨_, rfl, .inl rfl, rfl, nofun, fun _ hnil => nomatch hcons.symm.trans hnil⟩
    · rename_i hnil
      cases hnext
      exact ⟨_, .keeps rfl rfl rfl rfl fun _ => ⟨rfl, .inr hnil⟩⟩
  | loads =>
    simp only [next] at hnext
    split at hnext <;> cases hnext <;> exact ⟨_, .keeps rfl rfl rfl rfl fun _ => ⟨rfl, .inl rfl⟩⟩
  | returns event =>
    simp only [next] at hnext
    split_ifs at hnext
    · obtain ⟨-, rfl⟩ := detach_eq_some.mp hnext
      exact ⟨_, .keeps rfl rfl rfl rfl fun _ => ⟨rfl, .inl rfl⟩⟩
    · cases hnext
      exact ⟨_, .keeps rfl rfl rfl rfl fun _ => ⟨rfl, .inl rfl⟩⟩
  | detaches =>
    obtain ⟨-, rfl⟩ := detach_eq_some.mp hnext
    exact ⟨_, .keeps rfl rfl rfl rfl fun _ => ⟨rfl, .inl rfl⟩⟩
  | adds =>
    obtain ⟨-, rfl⟩ := underLock_eq_some.mp hnext
    unfold addWaiter
    split_ifs
    · exact ⟨_, .keeps rfl rfl rfl rfl fun _ => ⟨rfl, .inl rfl⟩⟩
    · exact ⟨_, .keeps rfl rfl rfl rfl fun _ => ⟨rfl, .inl rfl⟩⟩
  | accepts event first =>
    simp only [next] at hnext
    split at hnext
    · cases hnext
      exact ⟨_, .keeps rfl rfl rfl rfl nofun⟩
    · cases hnext
      exact ⟨_, .keeps rfl rfl rfl rfl fun hsearching => ⟨rfl, .inl hsearching⟩⟩
  | accepted event first conn =>
    cases first with
    | none =>
      cases hnext
      exact ⟨_, .keeps rfl rfl rfl rfl nofun⟩
    | some first =>
      cases hnext
      exact ⟨_, rfl, .inl rfl, rfl, nofun, nofun⟩
  | tries event first =>
    simp only [next] at hnext
    split at hnext <;> cases hnext <;>
      exact ⟨_, .keeps rfl rfl rfl rfl fun hsearching => ⟨rfl, .inl hsearching⟩⟩
  | clears event seen first =>
    cases hnext
    exact ⟨_, rfl, .inr ⟨seen, rfl⟩, rfl, fun hsearching => ⟨rfl, .inl hsearching⟩, fun _ => id⟩
  | finishes event first =>
    cases first with
    | none =>
      cases hnext
      exact ⟨_, rfl, .inr ⟨event, rfl⟩, rfl, fun _ => ⟨rfl, .inl rfl⟩, fun _ => id⟩
    | some first =>
      cases hnext
      exact ⟨_, rfl, .inr ⟨event, rfl⟩, rfl, nofun, fun _ => id⟩
  | waits | returned | failed | dropped => cases hnext

/-- A step is one of a call, or it leaves the calls and `pending` as they are. -/
inductive Effect (s : State) : State → Label → Prop where
  | next {t : State} {i : ℕ} {c c' : Call} (call : s.calls[i]? = some c)
      (moves : Moves s t i c c') : Effect s t (.next i)
  | moves {t : State} {l : Label} {i : ℕ} {c c' : Call} (call : s.calls[i]? = some c)
      (moves : Moves s t i c c') (pending : t.pending = s.pending) : Effect s t l
  | accept : Effect s { s with calls := s.calls ++ [⟨.checks, false⟩] } .accept
  | report {loaded : UInt64} {ready : Ready} (holder : s.holder = some (loaded, ready)) :
      Effect s (s.report loaded ready) .report
  | lock {events : List Ready} {ready : Ready} :
      Effect s { s with holder := some (s.packed, ready), events } .lock
  | kernel {l : Label} {events : List Ready} {backlog : List ℕ} :
      Effect s { s with events, backlog } l

theorem step_effect (hstep : s.step l = some t) : Effect s t l := by
  cases l with
  | accept =>
    cases hstep
    exact .accept
  | poll i =>
    obtain ⟨c, hc, hpoll⟩ := Option.bind_eq_some_iff.mp hstep
    obtain ⟨hwaits, ⟨⟩⟩ := Option.ite_none_right_eq_some.mp hpoll
    refine .moves hc (.keeps rfl rfl rfl rfl fun _ => ?_) rfl
    rw [hwaits]
    exact ⟨rfl, .inl rfl⟩
  | next i =>
    obtain ⟨c, hc, hnext⟩ := Option.bind_eq_some_iff.mp hstep
    obtain ⟨c', hmoves⟩ := next_moves hnext
    exact .next hc hmoves
  | fail i =>
    obtain ⟨c, hc, hfail⟩ := Option.bind_eq_some_iff.mp hstep
    split at hfail <;> cases hfail <;> exact .moves hc (.keeps rfl rfl rfl rfl nofun) rfl
  | drop i =>
    obtain ⟨c, hc, hdrop⟩ := Option.bind_eq_some_iff.mp hstep
    split at hdrop
    · cases hdrop
      exact .moves hc (.keeps rfl rfl rfl rfl nofun) rfl
    · obtain ⟨-, rfl⟩ := detach_eq_some.mp hdrop
      exact .moves hc (.keeps rfl rfl rfl rfl nofun) rfl
    · cases hdrop
  | arrive conn =>
    cases hstep
    exact .kernel
  | event ready =>
    obtain ⟨-, ⟨⟩⟩ := Option.ite_none_right_eq_some.mp hstep
    exact .kernel
  | lock =>
    simp only [step] at hstep
    split at hstep <;> cases hstep
    exact .lock
  | report =>
    obtain ⟨⟨loaded, ready⟩, hholder, rfl⟩ := Option.map_eq_some_iff.mp hstep
    exact .report hholder

/-- Nothing is in `pending` while a call searches. -/
def Unqueued (s : State) : Prop := ∀ c ∈ s.calls, c.place.searching = true → s.pending = []

theorem Unqueued.not_stranded (h : s.Unqueued) : ¬ s.Stranded := by
  rintro ⟨hpending, -, i, -, c, hc, hwaits⟩
  exact hpending (h c (List.mem_of_getElem? hc) (by rw [hwaits]; rfl))

theorem Unqueued.moves (h : s.Unqueued) (hc : s.calls[i]? = some c)
    (hmoves : Moves s t i c c')
    (hpending : ∀ d ∈ s.calls, d.place.searching = true → s.pending = [] → t.pending = []) :
    t.Unqueued := by
  intro d hd hsearching
  rw [hmoves.calls] at hd
  rcases List.mem_or_eq_of_mem_set hd with hd | rfl
  · exact hpending d hd hsearching (h d hd hsearching)
  · obtain ⟨hpushes, hbefore⟩ := hmoves.searching hsearching
    exact hmoves.pending hpushes (hbefore.elim (h c (List.mem_of_getElem? hc)) id)

theorem Unqueued.step (h : s.Unqueued) (halone : s.Alone l)
    (hstep : s.step l = some t) : t.Unqueued := by
  cases step_effect hstep with
  | @next _ i c c' hc hmoves =>
    refine h.moves hc hmoves fun d hd hsearching hnil => ?_
    cases hpushes : c.place.pushes with
    | false => exact hmoves.pending hpushes hnil
    | true =>
      have hnone := halone (by simpa [hc] using hpushes) d hd
      cases hnone.symm.trans hsearching
  | moves hc hmoves hpending =>
    exact h.moves hc hmoves fun _ _ _ hnil => hpending.trans hnil
  | accept =>
    intro d hd hsearching
    rcases List.mem_append.mp hd with hd | hd
    · exact h d hd hsearching
    · obtain rfl := List.mem_singleton.mp hd
      cases hsearching
  | report | lock | kernel => exact h

/-- The descriptor is not shut down. -/
structure Running (s : State) : Prop where
  packed : s.packed &&& SHUTDOWN_BIT = 0
  loaded : ∀ loaded ready, s.holder = some (loaded, ready) → loaded &&& SHUTDOWN_BIT = 0

theorem running_init (gen : UInt32) : (init gen).Running := ⟨new_and_SHUTDOWN_BIT gen, nofun⟩

theorem clearReady_packed (s : State) (event : Event) :
    (s.clearReady event).packed &&& SHUTDOWN_BIT = s.packed &&& SHUTDOWN_BIT := by
  unfold clearReady
  cases h : ScheduledIo.clearReady s.packed event.generation event.ready with
  | none => rfl
  | some new => exact clearReady_and_SHUTDOWN_BIT h

theorem Running.moves (h : s.Running) (hmoves : Moves s t i c c') : t.Running := by
  refine ⟨?_, fun loaded ready hholder => h.loaded loaded ready (hmoves.holder ▸ hholder)⟩
  obtain hpacked | ⟨event, hpacked⟩ := hmoves.packed
  · rw [hpacked, h.packed]
  · rw [hpacked, clearReady_packed, h.packed]

theorem Running.step (h : s.Running) (hstep : s.step l = some t) : t.Running := by
  cases step_effect hstep with
  | next hc hmoves | moves hc hmoves => exact h.moves hmoves
  | accept | kernel => exact ⟨h.packed, h.loaded⟩
  | report hholder =>
    refine ⟨?_, nofun⟩
    exact (setReadiness_and_SHUTDOWN_BIT _ _).trans (h.loaded _ _ hholder)
  | lock =>
    refine ⟨h.packed, fun loaded ready hholder => ?_⟩
    cases hholder
    exact h.packed

/-- Of a descriptor that is not shut down, the bits decide. -/
theorem readable_eq (h : s.packed &&& SHUTDOWN_BIT = 0) :
    s.readable = if (ready s.packed).isReadable then some ⟨generation s.packed, ready s.packed⟩
      else none := by
  have hsatisfied : interestSatisfied .READABLE (ready s.packed) = (ready s.packed).isReadable := by
    rfl
  unfold readable readiness
  rw [if_neg (not_not.mpr h), hsatisfied]
  split_ifs <;> rfl

theorem readable_of_clearReady {new : UInt64} {event : Event}
    (h : s.packed &&& SHUTDOWN_BIT = 0)
    (hclear : ScheduledIo.clearReady s.packed event.generation event.ready = some new) :
    (s.clearReady event).readable = none := by
  have hpacked : (s.clearReady event).packed = new := by simp [clearReady, hclear]
  rw [readable_eq ((clearReady_packed s event).trans h), hpacked, ready_clearReady hclear]
  rfl

theorem readable_clearReady (h : s.packed &&& SHUTDOWN_BIT = 0) (event : Event)
    (hnone : s.readable = none) : (s.clearReady event).readable = none := by
  cases hclear : ScheduledIo.clearReady s.packed event.generation event.ready with
  | some new => exact readable_of_clearReady h hclear
  | none =>
    have hpacked : (s.clearReady event).packed = s.packed := by simp [clearReady, hclear]
    unfold readable at hnone ⊢
    rwa [hpacked]

theorem readable_clearReady_self (h : s.packed &&& SHUTDOWN_BIT = 0) {event : Event}
    (hevent : s.readable = some event) : (s.clearReady event).readable = none := by
  rw [readable_eq h] at hevent
  obtain ⟨-, ⟨⟩⟩ := Option.ite_none_right_eq_some.mp hevent
  have hclear : ScheduledIo.clearReady s.packed (generation s.packed) (ready s.packed) =
      some (s.packed &&& ~~~((ready s.packed).bits.toUInt64 <<< 17)) := by
    simp [ScheduledIo.clearReady]
  exact readable_of_clearReady h hclear

/-- Some run from here ends in a stranded state. -/
def Strands (s : State) : Prop := ∃ t, Reachable step anyStep s t ∧ t.Stranded

theorem Stranded.strands (h : s.Stranded) : s.Strands := ⟨s, .start, h⟩

theorem Strands.of_step (h : t.Strands) (hstep : s.step l = some t) : s.Strands := by
  obtain ⟨u, hreach, hu⟩ := h
  exact ⟨u, Reachable.trans (.next .start trivial hstep) hreach, hu⟩

/-- A connection is queued, the backlog is empty, and a call is at `place`. -/
structure Beside (s : State) (i : ℕ) (place : Place) (registered : Bool) : Prop where
  call : s.calls[i]? = some ⟨place, registered⟩
  pending : s.pending ≠ []
  backlog : s.backlog = []
  free : s.holder = none
  packed : s.packed &&& SHUTDOWN_BIT = 0

namespace Beside

variable {place place' : Place} {r r' : Bool} {event seen : Event}

theorem strands_of_next (h : s.Beside i place r) (hnext : s.next i ⟨place, r⟩ = some t)
    (ht : t.Strands) : s.Strands :=
  ht.of_step (l := .next i) (by simp [step, h.call, hnext])

/-- The call goes on to `place'`, and everything else stays. -/
theorem goes (h : s.Beside i place r) (hnext : s.next i ⟨place, r⟩ = some t)
    (hcalls : t.calls = s.calls.set i ⟨place', r'⟩) (hpending : t.pending = s.pending)
    (hbacklog : t.backlog = s.backlog) : t.Beside i place' r' := by
  obtain ⟨c', hmoves⟩ := next_moves hnext
  have hlt : i < s.calls.length := (List.getElem?_eq_some_iff.mp h.call).1
  refine ⟨?_, hpending ▸ h.pending, hbacklog.trans h.backlog, hmoves.holder.trans h.free, ?_⟩
  · rw [hcalls, List.getElem?_set_self hlt]
  · obtain hpacked | ⟨event, hpacked⟩ := hmoves.packed
    · rw [hpacked, h.packed]
    · rw [hpacked, clearReady_packed, h.packed]

theorem adds_of_none (h : s.Beside i .adds r) (hnone : s.readable = none) : s.Strands := by
  have hnext : s.next i ⟨.adds, r⟩ = some
      ({ s with waiters := s.waiters ++ [i] }.setCall i ⟨.waits, true⟩) := by
    simp [next, underLock, h.free, addWaiter, hnone]
  have hwaits := h.goes hnext rfl rfl rfl
  refine h.strands_of_next hnext (Stranded.strands ⟨hwaits.pending, hwaits.backlog, i, ?_⟩)
  exact ⟨List.mem_append_right _ (List.mem_singleton_self i), _, hwaits.call, rfl⟩

theorem detaches_of_none (h : s.Beside i .detaches r) (hnone : s.readable = none) :
    s.Strands := by
  have hnext : s.next i ⟨.detaches, r⟩ = some
      ({ s with waiters := s.waiters.erase i }.setCall i ⟨.adds, false⟩) := by
    simp [next, detach, underLock, h.free]
  exact h.strands_of_next hnext ((h.goes hnext rfl rfl rfl).adds_of_none hnone)

theorem loads_of_none (h : s.Beside i .loads r) (hnone : s.readable = none) : s.Strands := by
  have hnext : s.next i ⟨.loads, r⟩ = some
      (s.setCall i ⟨if r then .detaches else .adds, r⟩) := by
    simp [next, hnone]
  cases r with
  | true => exact h.strands_of_next hnext ((h.goes hnext rfl rfl rfl).detaches_of_none hnone)
  | false => exact h.strands_of_next hnext ((h.goes hnext rfl rfl rfl).adds_of_none hnone)

theorem finishes_of_none (h : s.Beside i (.finishes event none) r) (hnone : s.readable = none) :
    s.Strands := by
  have hnext : s.next i ⟨.finishes event none, r⟩ = some
      ((s.clearReady event).setCall i ⟨.loads, r⟩) := rfl
  exact h.strands_of_next hnext
    ((h.goes hnext rfl rfl rfl).loads_of_none (readable_clearReady h.packed event hnone))

theorem tries (h : s.Beside i (.tries event none) r) : s.Strands := by
  cases hreadable : s.readable with
  | none =>
    have hnext : s.next i ⟨.tries event none, r⟩ = some
        (s.setCall i ⟨.finishes event none, r⟩) := by
      simp [next, hreadable]
    exact h.strands_of_next hnext ((h.goes hnext rfl rfl rfl).finishes_of_none hreadable)
  | some seen =>
    have hnext : s.next i ⟨.tries event none, r⟩ = some
        (s.setCall i ⟨.clears event seen none, r⟩) := by
      simp [next, hreadable]
    have hclears := h.goes hnext rfl rfl rfl
    have hnext' : (s.setCall i ⟨.clears event seen none, r⟩).next i ⟨.clears event seen none, r⟩ =
        some (((s.setCall i ⟨.clears event seen none, r⟩).clearReady seen).setCall i
          ⟨.finishes event none, r⟩) := rfl
    exact h.strands_of_next hnext (hclears.strands_of_next hnext'
      ((hclears.goes hnext' rfl rfl rfl).finishes_of_none
        (readable_clearReady_self h.packed hreadable)))

theorem accepts (h : s.Beside i (.accepts event none) r) : s.Strands := by
  have hnext : s.next i ⟨.accepts event none, r⟩ = some
      (s.setCall i ⟨.tries event none, r⟩) := by
    simp [next, h.backlog]
  exact h.strands_of_next hnext (h.goes hnext rfl rfl rfl).tries

theorem returns (h : s.Beside i (.returns event) r) : s.Strands := by
  cases r with
  | true =>
    have hnext : s.next i ⟨.returns event, true⟩ = some
        ({ s with waiters := s.waiters.erase i }.setCall i ⟨.accepts event none, false⟩) := by
      simp [next, detach, underLock, h.free]
    exact h.strands_of_next hnext (h.goes hnext rfl rfl rfl).accepts
  | false =>
    have hnext : s.next i ⟨.returns event, false⟩ = some
        (s.setCall i ⟨.accepts event none, false⟩) := by
      simp [next]
    exact h.strands_of_next hnext (h.goes hnext rfl rfl rfl).accepts

theorem adds (h : s.Beside i .adds r) : s.Strands := by
  cases hreadable : s.readable with
  | none => exact h.adds_of_none hreadable
  | some event =>
    have hnext : s.next i ⟨.adds, r⟩ = some
        (s.setCall i ⟨.accepts ⟨generation s.packed, ready s.packed⟩ none, false⟩) := by
      simp [next, underLock, h.free, addWaiter, hreadable]
    exact h.strands_of_next hnext (h.goes hnext rfl rfl rfl).accepts

theorem detaches (h : s.Beside i .detaches r) : s.Strands := by
  have hnext : s.next i ⟨.detaches, r⟩ = some
      ({ s with waiters := s.waiters.erase i }.setCall i ⟨.adds, false⟩) := by
    simp [next, detach, underLock, h.free]
  exact h.strands_of_next hnext (h.goes hnext rfl rfl rfl).adds

theorem loads (h : s.Beside i .loads r) : s.Strands := by
  cases hreadable : s.readable with
  | none => exact h.loads_of_none hreadable
  | some event =>
    have hnext : s.next i ⟨.loads, r⟩ = some (s.setCall i ⟨.returns event, r⟩) := by
      simp [next, hreadable]
    exact h.strands_of_next hnext (h.goes hnext rfl rfl rfl).returns

theorem waits (h : s.Beside i .waits r) : s.Strands := by
  have hstep : s.step (.poll i) = some (s.setCall i ⟨.loads, r⟩) := by
    simp [step, h.call]
  have hlt : i < s.calls.length := (List.getElem?_eq_some_iff.mp h.call).1
  have hloads : (s.setCall i ⟨.loads, r⟩).Beside i .loads r :=
    ⟨List.getElem?_set_self hlt, h.pending, h.backlog, h.free, h.packed⟩
  exact hloads.loads.of_step hstep

theorem finishes (h : s.Beside i (.finishes event none) r) : s.Strands := by
  have hnext : s.next i ⟨.finishes event none, r⟩ = some
      ((s.clearReady event).setCall i ⟨.loads, r⟩) := rfl
  exact h.strands_of_next hnext (h.goes hnext rfl rfl rfl).loads

theorem clears (h : s.Beside i (.clears event seen none) r) : s.Strands := by
  have hnext : s.next i ⟨.clears event seen none, r⟩ = some
      ((s.clearReady seen).setCall i ⟨.finishes event none, r⟩) := rfl
  exact h.strands_of_next hnext (h.goes hnext rfl rfl rfl).finishes

/-- A call that searches beside a queued connection may be parked beside it. -/
theorem strands (h : s.Beside i place r) (hsearching : place.searching = true) : s.Strands := by
  cases place with
  | loads => exact h.loads
  | returns event => exact h.returns
  | detaches => exact h.detaches
  | adds => exact h.adds
  | waits => exact h.waits
  | accepts event first =>
    obtain rfl := Option.isNone_iff_eq_none.mp hsearching
    exact h.accepts
  | tries event first =>
    obtain rfl := Option.isNone_iff_eq_none.mp hsearching
    exact h.tries
  | clears event seen first =>
    obtain rfl := Option.isNone_iff_eq_none.mp hsearching
    exact h.clears
  | finishes event first =>
    obtain rfl := Option.isNone_iff_eq_none.mp hsearching
    exact h.finishes
  | checks | accepted | returned | failed | dropped => cases hsearching

end Beside

/-- A connection is queued beside a search, and a call goes on with its drain. -/
structure Drains (s : State) (i j : ℕ) (event : Event) (first : ℕ) (r : Bool) (d : Call) :
    Prop where
  ne : j ≠ i
  drainer : s.calls[i]? = some ⟨.accepts event (some first), r⟩
  searcher : s.calls[j]? = some d
  searching : d.place.searching = true
  pending : s.pending ≠ []
  running : s.Running

namespace Drains

variable {j first : ℕ} {event : Event} {r : Bool} {d : Call}

/-- The report that holds the lock of the waiters comes to its end. -/
theorem strands_of_nil (h : s.Drains i j event first r d) (hbacklog : s.backlog = []) :
    s.Strands := by
  obtain ⟨place, registered⟩ := d
  cases hholder : s.holder with
  | none =>
    have hbeside : s.Beside j place registered :=
      ⟨h.searcher, h.pending, hbacklog, hholder, h.running.packed⟩
    exact hbeside.strands h.searching
  | some report =>
    obtain ⟨loaded, ready⟩ := report
    have hstep : s.step .report = some (s.report loaded ready) := by simp [step, hholder]
    have hbeside : (s.report loaded ready).Beside j place registered :=
      ⟨h.searcher, h.pending, hbacklog, rfl, (h.running.step hstep).packed⟩
    exact (hbeside.strands h.searching).of_step hstep

/-- One connection is taken out of the backlog and put into `pending`. -/
theorem next (h : s.Drains i j event first r d) {conn : ℕ} {backlog : List ℕ}
    (hbacklog : s.backlog = conn :: backlog) :
    ∃ t : State, t.Drains i j event first r d ∧ t.backlog = backlog ∧
      (t.Strands → s.Strands) := by
  have hlt : i < s.calls.length := (List.getElem?_eq_some_iff.mp h.drainer).1
  let u : State := { s with backlog }.setCall i ⟨.accepted event (some first) conn, r⟩
  have hcall : u.calls[i]? = some ⟨.accepted event (some first) conn, r⟩ :=
    List.getElem?_set_self hlt
  have hu : s.step (.next i) = some u := by simp [step, h.drainer, State.next, hbacklog, u]
  let t : State := { u with pending := u.pending ++ [conn] }.setCall i
    ⟨.accepts event (some first), r⟩
  have ht : u.step (.next i) = some t := by simp [step, hcall, State.next, t]
  refine ⟨t, ⟨h.ne, ?_, ?_, h.searching, ?_, (h.running.step hu).step ht⟩, rfl, fun hstrands =>
    (hstrands.of_step ht).of_step hu⟩
  · exact List.getElem?_set_self (by simpa [u, setCall] using hlt)
  · simp only [t, u, setCall, List.getElem?_set_ne h.ne.symm, h.searcher]
  · simp [t, setCall]

theorem strands (h : s.Drains i j event first r d) : s.Strands := by
  induction hbacklog : s.backlog generalizing s with
  | nil => exact h.strands_of_nil hbacklog
  | cons conn backlog ih =>
    obtain ⟨t, ht, hrest, hback⟩ := h.next hbacklog
    exact hback (ih ht hrest)

end Drains

/-- A connection that is queued beside a search may strand the call that searches. -/
theorem strands_of_not_alone {l : Label} (h : s.Running) (hstep : s.step l = some t)
    (halone : ¬ s.Alone l) : t.Strands := by
  cases l with
  | next i =>
    simp only [Alone, Classical.not_imp, not_forall] at halone
    obtain ⟨hpushes, d, hd, hsearching⟩ := halone
    obtain ⟨⟨place, r⟩, hc, hplace⟩ := (Option.any_eq_true _ _).mp hpushes
    obtain ⟨j, hj⟩ := List.mem_iff_getElem?.mp hd
    have hlt : i < s.calls.length := (List.getElem?_eq_some_iff.mp hc).1
    have hrunning := h.step hstep
    cases place with
    | accepted event first conn =>
      obtain ⟨first, rfl⟩ := Option.isSome_iff_exists.mp hplace
      have hne : j ≠ i := by
        rintro rfl
        obtain rfl : _ = d := Option.some_inj.mp (hc.symm.trans hj)
        exact hsearching rfl
      simp only [step, hc, Option.bind_some, State.next] at hstep
      cases hstep
      have hdrains : Drains _ i j event first r d :=
        ⟨hne, List.getElem?_set_self hlt, (List.getElem?_set_ne hne.symm).trans hj,
          by simpa using hsearching, by simp [setCall], hrunning⟩
      exact hdrains.strands
    | _ => cases hplace
  | accept | poll | fail | drop | arrive | event | lock | report => exact absurd trivial halone

/-- As long as no call puts a connection into `pending` beside a search, no call is parked beside
a queued connection; and any other step may lead there. -/
theorem no_call_parks_beside_pending (gen : UInt32) (h : Reachable step Alone (init gen) s) :
    ¬ s.Stranded ∧ ∀ l t, s.step l = some t → ¬ s.Alone l →
      ∃ u, Reachable step anyStep t u ∧ u.Stranded := by
  have hinvariant : s.Unqueued ∧ s.Running := by
    refine h.invariant (I := fun s => s.Unqueued ∧ s.Running) ⟨nofun, running_init gen⟩ ?_
    rintro s l t ⟨hunqueued, hrunning⟩ halone hstep
    exact ⟨hunqueued.step halone hstep, hrunning.step hstep⟩
  obtain ⟨hunqueued, hrunning⟩ := hinvariant
  exact ⟨hunqueued.not_stranded, fun l t hstep halone => strands_of_not_alone hrunning hstep halone⟩

/-- One call drains the backlog alone; the next finds a connection in `pending`. -/
theorem no_call_parks_beside_pending_drained :
    ∃ s, Reachable step Alone (init 1) s ∧ s.pending = [12] ∧
      s.calls.map Call.place = [.returned 10, .returned 11] ∧ ¬ s.Stranded ∧
      ∀ l t, s.step l = some t → ¬ s.Alone l → ∃ u, Reachable step anyStep t u ∧ u.Stranded := by
  have hrun : (run (guarded step Alone) (init 1)
      [.arrive 10, .arrive 11, .arrive 12, .event .READABLE, .lock, .report, .accept, .next 0,
        .next 0, .next 0, .next 0, .next 0, .next 0, .next 0, .next 0, .next 0, .next 0, .next 0,
        .next 0, .next 0, .accept, .next 1]).any (fun s => decide (s.pending = [12] ∧
          s.calls.map Call.place = [.returned 10, .returned 11])) = true := by
    decide +kernel
  obtain ⟨s, hreach, hs⟩ := exists_reachable_of_run hrun
  obtain ⟨hpending, hcalls⟩ := of_decide_eq_true hs
  obtain ⟨hnot, hexact⟩ := no_call_parks_beside_pending 1 hreach
  exact ⟨s, hreach, hpending, hcalls, hnot, hexact⟩

/-- Two calls are woken for two connections. The first takes both, and the second parks again. -/
theorem call_parks_beside_pending :
    ∃ s, Reachable step anyStep (init 1) s ∧ s.Stranded := by
  have hrun : (run (guarded step anyStep) (init 1)
      [.accept, .accept, .next 0, .next 0, .next 0, .next 1, .next 1, .next 1, .arrive 10,
        .arrive 11, .event .READABLE, .lock, .report, .poll 0, .next 0, .next 0, .next 0, .next 0,
        .next 0, .next 0, .next 0, .next 0, .next 0, .next 0, .poll 1, .next 1, .next 1,
        .next 1]).any (fun s => decide (s.pending = [11] ∧ s.backlog = [] ∧ 1 ∈ s.waiters ∧
          s.calls = [⟨.returned 10, false⟩, ⟨.waits, true⟩])) = true := by
    decide +kernel
  obtain ⟨s, hreach, hs⟩ := exists_reachable_of_run hrun
  obtain ⟨hpending, hbacklog, hwaiter, hcalls⟩ := of_decide_eq_true hs
  refine ⟨s, hreach, by simp [hpending], hbacklog, 1, hwaiter, ⟨.waits, true⟩, ?_, rfl⟩
  rw [hcalls]
  rfl

end State

end Eddy.TcpListener
