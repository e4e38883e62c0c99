import Mathlib.Data.List.Count
import Mathlib.Data.List.Range
import Eddy.Interleaving

/-!
# The set of futures with a ready queue

`FuturesUnordered` of `future/unordered.rs`. A waker pushes the id of its member into the ready
queue and then takes and wakes the outer waker; the lock of the outer waker is held until it was
woken. Ids do not overflow. The methods of the set have it to themselves, wakes come from any
thread at any time.
-/

namespace Eddy.FuturesUnordered
open Interleaving

/-- A `FuturesUnordered` with its `Shared`. The waker in `outer` is known by the call of
`poll_next` that it was passed to. -/
structure Members where
  entries : List ℕ
  nextId : ℕ
  ready : List ℕ
  outer : Option ℕ
  deriving DecidableEq

namespace Members

def new : Members := ⟨[], 0, [], none⟩

def push (s : Members) : Members :=
  { s with
    entries := s.entries ++ [s.nextId]
    nextId := s.nextId + 1
    ready := s.ready ++ [s.nextId] }

def clear (s : Members) : Members := { s with entries := [], ready := [] }

/-- `EntryWake::wake` up to the outer waker. -/
def wake (s : Members) (id : ℕ) : Members := { s with ready := s.ready ++ [id] }

end Members

/-- Where `poll_next_inner` is. -/
inductive Place where
  | idle
  /-- It is about to look at the ready queue. -/
  | draining
  | polling (id : ℕ)
  deriving DecidableEq

/-- What `poll_next` returns. -/
inductive Answer (β : Type) where
  | item (output : β)
  /-- `Ready(None)` -/
  | done
  | pending
  deriving DecidableEq

/-- A call of a member's waker, with the number of polls of the member before it. -/
structure Wake where
  id : ℕ
  polls : ℕ
  deriving DecidableEq

structure State (β : Type) where
  set : Members
  place : Place
  /-- The wakes that have not yet taken the outer waker. -/
  waking : List Wake
  /-- How often `poll_next` was called. -/
  calls : ℕ
  /-- What the last call has returned. -/
  answer : Option (Answer β)
  /-- A member was pushed since the last call. -/
  pushed : Bool
  returned : List (ℕ × β)
  cleared : List ℕ
  /-- The members in the order of their polls. -/
  polled : List ℕ
  /-- The members in the order of their wakes. -/
  fired : List ℕ
  /-- The wakes that are over. -/
  woke : List Wake
  /-- The calls whose waker was woken. -/
  woken : List ℕ
  deriving DecidableEq

variable {β : Type}

def State.new : State β := ⟨.new, .idle, [], 0, none, false, [], [], [], [], [], []⟩

inductive Label (β : Type) where
  | push
  | clear
  | pollNext
  /-- The loop takes an id out of the ready queue, or finds it empty. -/
  | pop
  /-- The poll of the member is ready. -/
  | ready (output : β)
  | pending
  /-- The waker of the member is called; it pushes its id. -/
  | wake (id : ℕ)
  /-- The `k`-th of these calls takes the outer waker and wakes it. -/
  | takeOuter (k : ℕ)

namespace State

/-- The loop finds the ready queue empty. -/
def rest (s : State β) : State β :=
  { s with
    place := .idle
    answer := some (if s.set.entries = [] then .done else .pending) }

/-- The id of a member that is gone is passed over. -/
def take (s : State β) (id : ℕ) (ready : List ℕ) : State β :=
  if id ∈ s.set.entries then
    { s with
      set := { s.set with ready := ready }
      place := .polling id
      polled := s.polled ++ [id] }
  else { s with set := { s.set with ready := ready } }

def complete (s : State β) (id : ℕ) (output : β) : State β :=
  { s with
    set := { s.set with entries := s.set.entries.erase id }
    place := .idle
    answer := some (.item output)
    returned := s.returned ++ [(id, output)] }

def takeOuter (s : State β) (k : ℕ) (w : Wake) : State β :=
  { s with
    set := { s.set with outer := none }
    waking := s.waking.eraseIdx k
    woke := s.woke ++ [w]
    woken := s.woken ++ s.set.outer.toList }

def step (s : State β) : Label β → Option (State β)
  | .push =>
    if s.place = .idle then some { s with set := s.set.push, pushed := true } else none
  | .clear =>
    if s.place = .idle then
      some { s with
        set := s.set.clear
        cleared := s.cleared ++ s.set.entries }
    else none
  | .pollNext =>
    if s.place = .idle then
      some { s with
        set := { s.set with outer := some (s.calls + 1) }
        place := .draining
        calls := s.calls + 1
        answer := none
        pushed := false }
    else none
  | .pop =>
    if s.place = .draining then
      match s.set.ready with
      | [] => some s.rest
      | id :: ready => some (s.take id ready)
    else none
  | .ready output =>
    match s.place with
    | .polling id => some (s.complete id output)
    | .idle | .draining => none
  | .pending =>
    match s.place with
    | .polling _ => some { s with place := .draining }
    | .idle | .draining => none
  | .wake id =>
    -- The waker is first seen by the member's first poll.
    if id ∈ s.polled then
      some { s with
        set := s.set.wake id
        waking := s.waking ++ [⟨id, s.polled.count id⟩]
        fired := s.fired ++ [id] }
    else none
  | .takeOuter k => (s.waking[k]?).map (s.takeOuter k)

inductive Step (s : State β) : Label β → State β → Prop where
  | push (idle : s.place = .idle) : Step s .push { s with set := s.set.push, pushed := true }
  | clear (idle : s.place = .idle) : Step s .clear { s with
      set := s.set.clear
      cleared := s.cleared ++ s.set.entries }
  | pollNext (idle : s.place = .idle) : Step s .pollNext { s with
      set := { s.set with outer := some (s.calls + 1) }
      place := .draining
      calls := s.calls + 1
      answer := none
      pushed := false }
  | rest (draining : s.place = .draining) (empty : s.set.ready = []) : Step s .pop s.rest
  | poll {id ready} (draining : s.place = .draining) (queue : s.set.ready = id :: ready)
      (live : id ∈ s.set.entries) : Step s .pop { s with
      set := { s.set with ready := ready }
      place := .polling id
      polled := s.polled ++ [id] }
  | stale {id ready} (draining : s.place = .draining) (queue : s.set.ready = id :: ready)
      (gone : id ∉ s.set.entries) : Step s .pop { s with set := { s.set with ready := ready } }
  | ready {id} (polling : s.place = .polling id) (output : β) :
      Step s (.ready output) (s.complete id output)
  | pending {id} (polling : s.place = .polling id) : Step s .pending { s with place := .draining }
  | wake {id} (polled : id ∈ s.polled) : Step s (.wake id) { s with
      set := s.set.wake id
      waking := s.waking ++ [⟨id, s.polled.count id⟩]
      fired := s.fired ++ [id] }
  | takeOuter {k w} (waking : s.waking[k]? = some w) : Step s (.takeOuter k) (s.takeOuter k w)

theorem step_cases {s t : State β} {a : Label β} (h : s.step a = some t) : Step s a t := by
  cases a with
  | push =>
    obtain ⟨hidle, ⟨⟩⟩ := Option.ite_none_right_eq_some.mp h
    exact .push hidle
  | clear =>
    obtain ⟨hidle, ⟨⟩⟩ := Option.ite_none_right_eq_some.mp h
    exact .clear hidle
  | pollNext =>
    obtain ⟨hidle, ⟨⟩⟩ := Option.ite_none_right_eq_some.mp h
    exact .pollNext hidle
  | pop =>
    obtain ⟨hdraining, h⟩ := Option.ite_none_right_eq_some.mp h
    cases hready : s.set.ready with
    | nil =>
      rw [hready] at h
      cases h
      exact .rest hdraining hready
    | cons id ready =>
      rw [hready] at h
      cases h
      unfold take
      split_ifs with hlive
      · exact .poll hdraining hready hlive
      · exact .stale hdraining hready hlive
  | ready output =>
    cases hplace : s.place with
    | polling id =>
      simp only [step, hplace, Option.some.injEq] at h
      exact h ▸ .ready hplace output
    | idle | draining => simp [step, hplace] at h
  | pending =>
    cases hplace : s.place with
    | polling id =>
      simp only [step, hplace, Option.some.injEq] at h
      exact h ▸ .pending hplace
    | idle | draining => simp [step, hplace] at h
  | wake id =>
    obtain ⟨hpolled, ⟨⟩⟩ := Option.ite_none_right_eq_some.mp h
    exact .wake hpolled
  | takeOuter k =>
    obtain ⟨w, hw, rfl⟩ := Option.map_eq_some_iff.mp h
    exact .takeOuter hw

end State

end Eddy.FuturesUnordered
