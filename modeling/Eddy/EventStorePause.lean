import Eddy.ProjectionAgreement

/-!
# Pausing the browser's store

The actions of `useEventStore`. While the store is live each event updates the projection; when it
resumes, the projection is made anew of the events it kept.
-/

namespace Eddy.ConsoleUi

def maxHistory : ℕ := 2000

inductive ConnectionStatus where
  | connecting
  | connected
  | disconnected
  | error
  deriving DecidableEq

structure EventStore extends Projection where
  events : List RuntimeEvent
  status : ConnectionStatus
  error : Option String
  paused : Bool
  lastEventAt : Option ℤ

inductive Action where
  /-- At the time `now`. -/
  | ingest (event : RuntimeEvent) (now : ℤ)
  | setStatus (status : ConnectionStatus) (error : Option String)
  | setPaused (paused : Bool)

namespace EventStore

def initial : EventStore :=
  { initialProjection with
    events := []
    status := .disconnected
    error := none
    paused := false
    lastEventAt := none }

def ingest (state : EventStore) (event : RuntimeEvent) (now : ℤ) : EventStore :=
  let events := appendBounded state.events event maxHistory
  if state.paused then { state with events, lastEventAt := some now }
  else
    { applyEvent state.toProjection event (add state.sequence 1) with
      events
      status := state.status
      error := state.error
      paused := state.paused
      lastEventAt := some now }

def setPaused (state : EventStore) (paused : Bool) : EventStore :=
  if paused then { state with paused }
  else { state with toProjection := projectEvents state.events, paused }

def act (state : EventStore) : Action → EventStore
  | .ingest event now => state.ingest event now
  | .setStatus status error => { state with status, error }
  | .setPaused paused => state.setPaused paused

def run (actions : List Action) : EventStore := actions.foldl act initial

end EventStore

/-- The events that the actions ingest. -/
def ingested (actions : List Action) : List RuntimeEvent :=
  actions.filterMap fun
    | .ingest event _ => some event
    | .setStatus _ _ | .setPaused _ => none

/-- The actions of a store that is never paused. -/
def unpaused (actions : List Action) : List Action :=
  actions.filter fun
    | .ingest _ _ | .setStatus _ _ => true
    | .setPaused _ => false

/-- Rounding does not take a large number below a small one. -/
theorem le_toDouble {m : ℕ} {n : ℤ} (hm : m ≤ 2 ^ 52) (h : m ≤ n) : m ≤ toDouble n := by
  by_cases hexact : n.natAbs < exactBound
  · rwa [toDouble_eq_self hexact]
  · have hlarge : 2 ^ 53 ≤ n.natAbs := by
      simpa [exactBound] using hexact
    have hpos : 0 < n := by omega
    have hlog : 53 ≤ n.natAbs.log2 := (Nat.le_log2 (by omega)).mpr hlarge
    have hunit : 1 ≤ 2 ^ (n.natAbs.log2 - 52) := Nat.one_le_two_pow
    have hquotient : 2 ^ 52 ≤ n.natAbs / 2 ^ (n.natAbs.log2 - 52) := by
      rw [Nat.le_div_iff_mul_le (by omega), ← Nat.pow_add, Nat.add_sub_cancel' (by omega)]
      exact Nat.log2_self_le (by omega)
    have hscaled : ∀ q, 2 ^ 52 ≤ q → m ≤ q * 2 ^ (n.natAbs.log2 - 52) := fun q hq =>
      (hm.trans hq).trans (Nat.le_mul_of_pos_right _ hunit)
    simp only [toDouble, Int.sign_eq_one_of_pos hpos, one_mul]
    split
    · exact_mod_cast hscaled _ hquotient
    · exact_mod_cast hscaled _ (Nat.le_succ_of_le hquotient)

theorem sequence_foldl_ensureTask (ids : List ℤ) (next : Projection) :
    (ids.foldl Projection.ensureTask next).sequence = next.sequence := by
  induction ids generalizing next with
  | nil => rfl
  | cons id ids ih => exact ih (next.ensureTask id)

theorem sequence_applyEvent (projection : Projection) (event : RuntimeEvent) (sequence : ℤ) :
    (applyEvent projection event sequence).sequence = sequence := by
  cases event with
  | taskWoken id source =>
    cases source with
    | _ => rfl
  | ioReady fd readiness woke =>
    exact sequence_foldl_ensureTask woke { projection with sequence }
  | _ => rfl

theorem sequence_projectEvents (events : List RuntimeEvent) :
    (projectEvents events).sequence = events.length := by
  induction events using List.reverseRecOn with
  | nil => rfl
  | append_singleton events event =>
    rw [projectEvents_append, sequence_applyEvent]
    simp

theorem appendBounded_of_lt {T : Type} {items : List T} {limit : ℕ} (h : items.length < limit)
    (item : T) : appendBounded items item limit = items ++ [item] := by
  rw [appendBounded, if_neg (by omega), if_neg (by omega)]

theorem length_appendBounded {T : Type} {items : List T} {limit : ℕ} (h : items.length ≤ limit)
    (item : T) : (appendBounded items item limit).length = min (items.length + 1) limit := by
  unfold appendBounded
  split
  · rw [List.length_nil]
    omega
  · dsimp only
    split
    · rw [List.length_append, List.length_drop, List.length_singleton]
      omega
    · rw [List.length_append, List.length_singleton]
      omega

namespace EventStore

theorem run_append (actions : List Action) (action : Action) :
    run (actions ++ [action]) = (run actions).act action := by
  rw [run, List.foldl_append]
  rfl

/-- A store that ingested `events`: it keeps the last of them, and as long as it keeps them all, its
projection is theirs unless it is paused. -/
structure Tracks (s : EventStore) (events : List RuntimeEvent) : Prop where
  length : s.events.length = min events.length maxHistory
  kept : events.length ≤ maxHistory → s.events = events
  live : events.length ≤ maxHistory → s.paused = false → s.toProjection = projectEvents events

variable {s : EventStore} {events : List RuntimeEvent}

theorem Tracks.initial : Tracks initial [] where
  length := rfl
  kept _ := rfl
  live _ _ := rfl

theorem Tracks.ingest (h : s.Tracks events) (event : RuntimeEvent) (now : ℤ) :
    (s.ingest event now).Tracks (events ++ [event]) := by
  have hevents : (s.ingest event now).events = appendBounded s.events event maxHistory := by
    unfold EventStore.ingest
    split
    · rfl
    · rfl
  refine ⟨?_, fun hlength => ?_, fun hlength hlive => ?_⟩
  · rw [hevents, length_appendBounded (by rw [h.length]; exact Nat.min_le_right _ _), h.length,
      List.length_append, List.length_singleton]
    omega
  · rw [List.length_append, List.length_singleton] at hlength
    have hkept := h.kept (by omega)
    rw [hevents, appendBounded_of_lt (by rw [hkept]; omega), hkept]
  · rw [List.length_append, List.length_singleton] at hlength
    unfold EventStore.ingest at hlive ⊢
    split at hlive
    · rename_i hpaused
      exact absurd (hpaused.symm.trans hlive) (by decide)
    · rename_i hpaused
      have hprojection := h.live (by omega) (by simpa using hpaused)
      have hsequence : add s.sequence 1 = events.length + 1 := by
        rw [add, hprojection, sequence_projectEvents]
        apply toDouble_eq_self
        simp only [maxHistory, exactBound] at hlength ⊢
        omega
      rw [if_neg hpaused, projectEvents_append, hprojection, ← hprojection, hsequence]

theorem Tracks.setPaused (h : s.Tracks events) (paused : Bool) :
    (s.setPaused paused).Tracks events := by
  cases paused with
  | true => exact ⟨h.length, h.kept, fun _ hlive => (nomatch hlive)⟩
  | false => exact ⟨h.length, h.kept, fun hlength _ => congrArg projectEvents (h.kept hlength)⟩

theorem tracks_run (actions : List Action) : (run actions).Tracks (ingested actions) := by
  induction actions using List.reverseRecOn with
  | nil => exact .initial
  | append_singleton actions action ih =>
    rw [run_append, ingested, List.filterMap_append]
    cases action with
    | ingest event now => exact ih.ingest event now
    | setStatus status error =>
      rw [List.filterMap_cons, List.filterMap_nil, List.append_nil]
      exact ⟨ih.length, ih.kept, ih.live⟩
    | setPaused paused =>
      rw [List.filterMap_cons, List.filterMap_nil, List.append_nil]
      exact ih.setPaused paused

/-- A store that is never paused has counted `count` events, or at least one more than it keeps. -/
structure Counts (s : EventStore) (count : ℕ) : Prop where
  unpaused : s.paused = false
  sequence : (min count (maxHistory + 1) : ℕ) ≤ s.sequence

theorem Counts.ingest {count : ℕ} (h : s.Counts count) (event : RuntimeEvent) (now : ℤ) :
    (s.ingest event now).Counts (count + 1) := by
  have hsequence := h.sequence
  unfold EventStore.ingest
  rw [if_neg (by simp [h.unpaused])]
  refine ⟨h.unpaused, ?_⟩
  rw [sequence_applyEvent]
  apply le_toDouble
  · simp only [maxHistory]
    omega
  · omega

theorem counts_run_unpaused (actions : List Action) :
    (run (ConsoleUi.unpaused actions)).Counts (ingested actions).length := by
  induction actions using List.reverseRecOn with
  | nil => exact ⟨rfl, le_rfl⟩
  | append_singleton actions action ih =>
    rw [ingested, ConsoleUi.unpaused, List.filterMap_append, List.filter_append]
    cases action with
    | ingest event now =>
      rw [List.filter_cons_of_pos rfl, List.filter_nil, run_append, List.filterMap_cons,
        List.filterMap_nil, List.length_append]
      exact ih.ingest event now
    | setStatus status error =>
      rw [List.filter_cons_of_pos rfl, List.filter_nil, run_append, List.filterMap_cons,
        List.filterMap_nil, List.append_nil]
      exact ⟨ih.unpaused, ih.sequence⟩
    | setPaused paused =>
      rw [List.filter_cons_of_neg (by simp), List.filter_nil, List.append_nil, List.filterMap_cons,
        List.filterMap_nil, List.append_nil]
      exact ih

theorem ingested_unpaused (actions : List Action) :
    ingested (ConsoleUi.unpaused actions) = ingested actions := by
  rw [ingested, ConsoleUi.unpaused, List.filterMap_filter]
  congr
  funext action
  cases action with
  | _ => rfl

/-- A resumed store has counted the events it kept. -/
theorem sequence_resumed (actions : List Action) :
    (run (actions ++ [.setPaused false])).sequence =
      (min (ingested actions).length maxHistory : ℕ) := by
  rw [run_append]
  exact (sequence_projectEvents _).trans (congrArg _ (tracks_run actions).length)

/-- When it resumes, a store projects what a store that was never paused projects, as long as no
more events were ingested than it keeps; and only then. -/
theorem resume_transparent_iff (actions : List Action) :
    (run (actions ++ [.setPaused false])).toProjection =
        (run (ConsoleUi.unpaused actions)).toProjection ↔
      (ingested actions).length ≤ maxHistory := by
  have hcounts := counts_run_unpaused actions
  refine ⟨fun heq => ?_, fun hlength => ?_⟩
  · have hsequence := hcounts.sequence
    rw [← heq, sequence_resumed] at hsequence
    omega
  · have hlive := (tracks_run (ConsoleUi.unpaused actions)).live
    rw [ingested_unpaused] at hlive
    rw [run_append, hlive hlength hcounts.unpaused]
    exact congrArg projectEvents ((tracks_run actions).kept hlength)

/-- One event more than the store keeps, and no pause at all. -/
theorem resume_forgets :
    let actions := List.replicate 2001 (Action.ingest (.timerCancelled 7) 0)
    (run (actions ++ [.setPaused false])).sequence = 2000 ∧
      (run (actions ++ [.setPaused false])).toProjection ≠
        (run (ConsoleUi.unpaused actions)).toProjection := by
  have hlength : (ingested (List.replicate 2001 (Action.ingest (.timerCancelled 7) 0))).length =
      2001 := by
    simp only [ingested, List.filterMap_replicate, List.length_replicate]
  have hresumed := sequence_resumed (List.replicate 2001 (Action.ingest (.timerCancelled 7) 0))
  have hlive := (counts_run_unpaused
    (List.replicate 2001 (Action.ingest (.timerCancelled 7) 0))).sequence
  rw [hlength] at hresumed hlive
  refine ⟨hresumed, fun heq => ?_⟩
  rw [← heq, hresumed] at hlive
  simp [maxHistory] at hlive

end EventStore

end Eddy.ConsoleUi
