import Eddy.TcpListenerPending

/-!
# Errors of `accept`

A connection is usable once its syscall, its `getpeername` and its registration have succeeded. The
`?` after each of these steps, and the return of an error of the syscall, drop the connection that
the call holds for itself.
-/

namespace Eddy.TcpListener
open Interleaving

/-- The connection that a call which drains the backlog will return. -/
def Place.first : Place → Option ℕ
  | .accepts _ first | .accepted _ first _ | .tries _ first | .clears _ _ first
  | .finishes _ first => first
  | .checks | .loads | .returns _ | .detaches | .adds | .waits | .returned _ | .failed
  | .dropped => none

/-- The connections that a call has for its caller. -/
def Place.holding : Place → List ℕ
  | .returned conn => [conn]
  | place => place.first.toList

/-- The connection that becomes usable with the next step of the call. -/
def Place.completes : Place → List ℕ
  | .accepted _ _ conn => [conn]
  | _ => []

/-- How often a connection is in `pending`, held by a call that drains, or returned. -/
def State.places (s : State) (conn : ℕ) : ℕ :=
  s.pending.count conn + total (fun c => c.place.holding.count conn) s.calls

/-- A listener, with the connections that became usable. -/
structure Session where
  listener : State
  usable : List ℕ

namespace Session

def init (gen : UInt32) : Session := ⟨.init gen, []⟩

/-- The connections that become usable with a step. -/
def completes (s : Session) : Label → List ℕ
  | .next i => (s.listener.calls[i]?.map fun c => c.place.completes).getD []
  | _ => []

def step (s : Session) (l : Label) : Option Session :=
  (s.listener.step l).map fun listener => ⟨listener, s.usable ++ s.completes l⟩

/-- Each usable connection is in one place. -/
def Kept (s : Session) : Prop := ∀ conn, s.usable.count conn = s.listener.places conn

/-- No call that holds a connection for itself fails. -/
def Spares (s : Session) : Label → Prop
  | .fail i => s.listener.calls[i]?.all (·.place.first.isNone) = true
  | _ => True

instance (s : Session) : (l : Label) → Decidable (s.Spares l)
  | .fail i => inferInstanceAs (Decidable (s.listener.calls[i]?.all (·.place.first.isNone) = true))
  | .accept | .poll _ | .next _ | .drop _ | .arrive _ | .event _ | .lock | .report =>
    .isTrue trivial

variable {s t : Session} {i : ℕ} {c c' : Call}

/-- A call goes on from `c` to `c'`, and what it had, or has made usable, is what it has or has put
into `pending`. -/
structure Hands (s t : State) (i : ℕ) (c c' : Call) : Prop where
  calls : t.calls = s.calls.set i c'
  holds : ∀ conn, t.pending.count conn + c'.place.holding.count conn =
    s.pending.count conn + c.place.holding.count conn + c.place.completes.count conn

/-- The call and `pending` hold what they held. -/
theorem Hands.keeps {s t : State} (hcalls : t.calls = s.calls.set i c')
    (hpending : t.pending = s.pending) (hholding : c'.place.holding = c.place.holding)
    (hnone : c.place.completes = []) : Hands s t i c c' :=
  ⟨hcalls, fun conn => by rw [hpending, hholding, hnone, List.count_nil, Nat.add_zero]⟩

theorem next_hands {s t : State} (hnext : s.next i c = some t) : ∃ c', Hands s t i c c' := by
  obtain ⟨place, registered⟩ := c
  cases place with
  | checks =>
    simp only [State.next] at hnext
    split at hnext
    · rename_i conn pending hcons
      cases hnext
      refine ⟨_, rfl, fun x => ?_⟩
      simp [State.setCall, hcons, Place.holding, Place.first, Place.completes, List.count_cons]
    · cases hnext
      exact ⟨_, .keeps rfl rfl rfl rfl⟩
  | loads =>
    simp only [State.next] at hnext
    split at hnext
    · cases hnext
      exact ⟨_, .keeps rfl rfl rfl rfl⟩
    · cases hnext
      cases registered with
      | true | false => exact ⟨_, .keeps rfl rfl rfl rfl⟩
  | returns event =>
    simp only [State.next] at hnext
    split at hnext
    · obtain ⟨-, rfl⟩ := State.detach_eq_some.mp hnext
      exact ⟨_, .keeps rfl rfl rfl rfl⟩
    · cases hnext
      exact ⟨_, .keeps rfl rfl rfl rfl⟩
  | detaches =>
    obtain ⟨-, rfl⟩ := State.detach_eq_some.mp hnext
    exact ⟨_, .keeps rfl rfl rfl rfl⟩
  | adds =>
    obtain ⟨-, rfl⟩ := State.underLock_eq_some.mp hnext
    unfold State.addWaiter
    split
    · exact ⟨_, .keeps rfl rfl rfl rfl⟩
    · exact ⟨_, .keeps rfl rfl rfl rfl⟩
  | accepts event first =>
    simp only [State.next] at hnext
    split at hnext
    · cases hnext
      exact ⟨_, .keeps rfl rfl rfl rfl⟩
    · cases hnext
      exact ⟨_, .keeps rfl rfl rfl rfl⟩
  | accepted event first conn =>
    cases first with
    | none =>
      cases hnext
      refine ⟨_, rfl, fun x => ?_⟩
      simp [State.setCall, Place.holding, Place.first, Place.completes]
    | some first =>
      cases hnext
      refine ⟨_, rfl, fun x => ?_⟩
      simp [State.setCall, Place.holding, Place.first, Place.completes]
      omega
  | tries event first =>
    simp only [State.next] at hnext
    split at hnext
    · cases hnext
      exact ⟨_, .keeps rfl rfl rfl rfl⟩
    · cases hnext
      exact ⟨_, .keeps rfl rfl rfl rfl⟩
  | clears event seen first =>
    cases hnext
    exact ⟨_, .keeps rfl rfl rfl rfl⟩
  | finishes event first =>
    cases first with
    | none | some first =>
      cases hnext
      exact ⟨_, .keeps rfl rfl rfl rfl⟩
  | waits | returned | failed | dropped => cases hnext

/-- The move of one call changes the places by what it makes usable. -/
theorem Hands.places {s t : State} (h : Hands s t i c c') (hc : s.calls[i]? = some c) (conn : ℕ) :
    t.places conn = s.places conn + c.place.completes.count conn := by
  have htotal := total_set (fun c : Call => c.place.holding.count conn) hc c'
  have hholds := h.holds conn
  rw [State.places, State.places, h.calls]
  omega

/-- A call goes on to `c'`, with `pending` as it was. -/
theorem places_setCall {s : State} (hc : s.calls[i]? = some c) (c' : Call) (conn : ℕ) :
    (s.setCall i c').places conn + c.place.holding.count conn =
      s.places conn + c'.place.holding.count conn := by
  have htotal := total_set (fun c : Call => c.place.holding.count conn) hc c'
  simp only [State.places, State.setCall]
  omega

theorem fail_eq_some {listener t : State} (h : listener.step (.fail i) = some t) :
    ∃ c, listener.calls[i]? = some c ∧ c.place.holding = c.place.first.toList ∧
      t = listener.setCall i { c with place := .failed } := by
  obtain ⟨⟨place, registered⟩, hc, hfail⟩ := Option.bind_eq_some_iff.mp h
  refine ⟨_, hc, ?_⟩
  cases place with
  | accepts event first | accepted event first conn => exact ⟨rfl, (Option.some.inj hfail).symm⟩
  | _ => cases hfail

theorem places_step {l : Label} {listener : State} (hstep : s.listener.step l = some listener)
    (spares : s.Spares l) (conn : ℕ) :
    listener.places conn = s.listener.places conn + (s.completes l).count conn := by
  cases l with
  | accept =>
    obtain rfl := Option.some.inj hstep
    simp [State.places, completes, Place.holding, Place.first]
  | poll i =>
    obtain ⟨c, hc, hpoll⟩ := Option.bind_eq_some_iff.mp hstep
    obtain ⟨hwaits, htaken⟩ := Option.ite_none_right_eq_some.mp hpoll
    obtain rfl := Option.some.inj htaken
    have hset := places_setCall hc { c with place := .loads } conn
    rw [hwaits] at hset
    exact hset
  | next i =>
    obtain ⟨c, hc, hnext⟩ := Option.bind_eq_some_iff.mp hstep
    obtain ⟨c', hhands⟩ := next_hands hnext
    rw [completes, hc, Option.map_some, Option.getD_some]
    exact hhands.places hc conn
  | fail i =>
    obtain ⟨c, hc, hholding, rfl⟩ := fail_eq_some hstep
    have hnone : c.place.first = none := by
      simpa [Spares, hc] using spares
    have hset := places_setCall hc { c with place := .failed } conn
    rw [hholding, hnone] at hset
    exact hset
  | drop i =>
    obtain ⟨⟨place, registered⟩, hc, hdrop⟩ := Option.bind_eq_some_iff.mp hstep
    cases place with
    | checks =>
      obtain rfl := Option.some.inj hdrop
      exact places_setCall hc ⟨.dropped, registered⟩ conn
    | waits =>
      obtain ⟨-, rfl⟩ := State.detach_eq_some.mp hdrop
      exact places_setCall (s := { s.listener with waiters := s.listener.waiters.erase i }) hc
        ⟨.dropped, false⟩ conn
    | _ => cases hdrop
  | arrive conn' =>
    obtain rfl := Option.some.inj hstep
    rfl
  | event ready =>
    obtain ⟨-, htaken⟩ := Option.ite_none_right_eq_some.mp hstep
    obtain rfl := Option.some.inj htaken
    rfl
  | lock =>
    simp only [State.step] at hstep
    split at hstep
    · obtain rfl := Option.some.inj hstep
      rfl
    · cases hstep
  | report =>
    obtain ⟨⟨loaded, ready⟩, -, rfl⟩ := Option.map_eq_some_iff.mp hstep
    rfl

theorem kept_init (gen : UInt32) : (init gen).Kept := fun _ => rfl

theorem Kept.step {l : Label} (h : s.Kept) (spares : s.Spares l) (hs : s.step l = some t) :
    t.Kept := by
  obtain ⟨listener, hstep, rfl⟩ := Option.map_eq_some_iff.mp hs
  intro conn
  rw [places_step hstep spares conn, ← h conn]
  exact List.count_append

/-- A failing call loses the connection that it holds for itself. -/
theorem Kept.not_kept {l : Label} (h : s.Kept) (hspares : ¬ s.Spares l) (hs : s.step l = some t) :
    ¬ t.Kept := by
  cases l with
  | fail i =>
    obtain ⟨listener, hstep, rfl⟩ := Option.map_eq_some_iff.mp hs
    obtain ⟨c, hc, hholding, rfl⟩ := fail_eq_some hstep
    obtain ⟨conn, hfirst⟩ : ∃ conn, c.place.first = some conn := by
      apply Option.ne_none_iff_exists'.mp
      simpa [Spares, hc] using hspares
    intro hkept
    have hset := places_setCall hc { c with place := .failed } conn
    have hbefore := h conn
    have hafter := hkept conn
    rw [hholding, hfirst] at hset
    simp [completes, Place.holding, Place.first] at hset hafter
    omega
  | _ => exact absurd trivial hspares

/-- As long as no call that holds a connection for itself fails, each connection whose own steps
succeeded is returned by one call, or held by one that runs, or queued; and the step of a call that
does fail so breaks this. -/
theorem accept_keeps_connections (gen : UInt32) (s : Session)
    (h : Reachable step Spares (init gen) s) :
    s.Kept ∧ ∀ l t, s.step l = some t → (t.Kept ↔ s.Spares l) := by
  have hkept : s.Kept := h.invariant (kept_init gen) fun _ _ _ hk spares hs => hk.step spares hs
  refine ⟨hkept, fun l t hs => ⟨fun ht => ?_, fun spares => hkept.step spares hs⟩⟩
  by_contra hspares
  exact hkept.not_kept hspares hs ht

/-- The first connection cannot be used; the next call returns the second. -/
theorem accept_keeps_connections_after_error :
    ∃ s, Reachable step Spares (init 1) s ∧ s.usable = [11] ∧
      s.listener.calls.map Call.place = [.failed, .returned 11] ∧ s.Kept ∧
      ∀ l t, s.step l = some t → (t.Kept ↔ s.Spares l) := by
  have hrun : (run (guarded step Spares) (init 1)
      [.arrive 10, .arrive 11, .event .READABLE, .lock, .report, .accept, .next 0, .next 0, .next 0,
        .next 0, .fail 0, .accept, .next 1, .next 1, .next 1, .next 1, .next 1, .next 1, .next 1,
        .next 1, .next 1]).any (fun s => decide (s.usable = [11] ∧
          s.listener.calls.map Call.place = [.failed, .returned 11])) = true := by
    decide +kernel
  obtain ⟨s, hreach, hs⟩ := exists_reachable_of_run hrun
  obtain ⟨husable, hcalls⟩ := of_decide_eq_true hs
  obtain ⟨hkept, hexact⟩ := accept_keeps_connections 1 s hreach
  exact ⟨s, hreach, husable, hcalls, hkept, hexact⟩

/-- A call has accepted one connection when the next one cannot be used. -/
theorem accept_discards_first :
    ∃ s, Reachable step anyStep (init 1) s ∧ s.usable = [10] ∧ s.listener.pending = [] ∧
      s.listener.calls.map Call.place = [.failed] ∧ ¬ s.Kept := by
  have hrun : (run (guarded step anyStep) (init 1)
      [.arrive 10, .arrive 11, .event .READABLE, .lock, .report, .accept, .next 0, .next 0, .next 0,
        .next 0, .next 0, .next 0, .fail 0]).any (fun s => decide (s.usable = [10] ∧
          s.listener.pending = [] ∧ s.listener.calls.map Call.place = [.failed] ∧
          s.usable.count 10 ≠ s.listener.places 10)) = true := by
    decide +kernel
  obtain ⟨s, hreach, hs⟩ := exists_reachable_of_run hrun
  obtain ⟨husable, hpending, hcalls, hlost⟩ := of_decide_eq_true hs
  exact ⟨s, hreach, husable, hpending, hcalls, fun hkept => hlost (hkept 10)⟩

end Session

end Eddy.TcpListener
