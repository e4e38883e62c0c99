import Eddy.Interleaving
import Eddy.ScheduledIo

/-!
# Concurrent calls of `accept`

`TcpListener::accept` of `io/net.rs` on clones of one listener, with `Readiness` and
`set_readiness_and_wake` of `io/driver.rs`. A call drains the backlog of the kernel: the first
connection is its own, the others go into `pending`. The kernel may report the listener readable
whenever its backlog is not empty. Everybody waits for it to become readable, so the slots and the
list of waiters are one list, of the calls.
-/

namespace Eddy.TcpListener
open Interleaving ScheduledIo

/-- A `ReadyEvent`. -/
structure Event where
  generation : UInt32
  ready : Ready
  deriving DecidableEq

/-- Where a call of `accept` is; `first` is the connection that it will return. -/
inductive Place where
  /-- Before it looks into `pending`. -/
  | checks
  /-- In the poll of `Readiness`, before the load of the word. -/
  | loads
  | returns (event : Event)
  | detaches
  | adds
  /-- The poll was pending. -/
  | waits
  /-- Before the syscall. -/
  | accepts (event : Event) (first : Option ℕ)
  | accepted (event : Event) (first : Option ℕ) (conn : ℕ)
  /-- The syscall would block: `try_io_with` looks at the word, then clears it. -/
  | tries (event : Event) (first : Option ℕ)
  | clears (event seen : Event) (first : Option ℕ)
  /-- Before the `clear_ready` after the drain. -/
  | finishes (event : Event) (first : Option ℕ)
  | returned (conn : ℕ)
  | failed
  | dropped
  deriving DecidableEq

/-- The call has passed its look into `pending` and has no connection. -/
def Place.searching : Place → Bool
  | .loads | .returns _ | .detaches | .adds | .waits => true
  | .accepts _ first | .tries _ first | .clears _ _ first | .finishes _ first => first.isNone
  | .checks | .accepted _ _ _ | .returned _ | .failed | .dropped => false

/-- The next step puts a connection into `pending`. -/
def Place.pushes : Place → Bool
  | .accepted _ first _ => first.isSome
  | _ => false

structure Call where
  place : Place
  /-- The `state` of its `Readiness` is not `Unregistered`. -/
  registered : Bool
  deriving DecidableEq

structure State where
  packed : UInt64
  /-- The report that holds the lock of the waiters, with the word that it has loaded. -/
  holder : Option (UInt64 × Ready)
  /-- The calls whose waiters are linked. -/
  waiters : List ℕ
  /-- Reported by the kernel and not dispatched. -/
  events : List Ready
  backlog : List ℕ
  pending : List ℕ
  calls : List Call

inductive Label where
  | accept
  /-- The task of a waiting call is polled. -/
  | poll (i : ℕ)
  /-- The next step of a call. -/
  | next (i : ℕ)
  /-- The syscall fails, or the connection that it returned cannot be used. -/
  | fail (i : ℕ)
  | drop (i : ℕ)
  | arrive (conn : ℕ)
  | event (ready : Ready)
  /-- The dispatcher takes the next event, locks the waiters and loads the word. -/
  | lock
  /-- It stores the word and takes the waiters off. -/
  | report

namespace State

def init (gen : UInt32) : State := ⟨new gen, none, [], [], [], [], []⟩

def setCall (s : State) (i : ℕ) (c : Call) : State := { s with calls := s.calls.set i c }

def underLock (s s' : State) : Option State :=
  match s.holder with
  | none => some s'
  | some _ => none

/-- The event of `ScheduledIo::readiness`. -/
def readable (s : State) : Option Event :=
  (readiness s.packed .READABLE).map fun (generation, ready) => ⟨generation, ready⟩

def clearReady (s : State) (event : Event) : State :=
  { s with
    packed := (ScheduledIo.clearReady s.packed event.generation event.ready).getD s.packed }

/-- `detach` of a registered future. -/
def detach (s : State) (i : ℕ) (place : Place) : Option State :=
  s.underLock ({ s with waiters := s.waiters.erase i }.setCall i ⟨place, false⟩)

/-- `add_waiter` at the end of a poll. -/
def addWaiter (s : State) (i : ℕ) : State :=
  if s.readable.isSome then
    s.setCall i ⟨.accepts ⟨generation s.packed, ready s.packed⟩ none, false⟩
  else { s with waiters := s.waiters ++ [i] }.setCall i ⟨.waits, true⟩

def next (s : State) (i : ℕ) (c : Call) : Option State :=
  match c.place with
  | .checks =>
    match s.pending with
    | conn :: pending => some ({ s with pending }.setCall i { c with place := .returned conn })
    | [] => some (s.setCall i { c with place := .loads })
  | .loads =>
    match s.readable with
    | some event => some (s.setCall i { c with place := .returns event })
    | none => some (s.setCall i { c with place := if c.registered then .detaches else .adds })
  | .returns event =>
    if c.registered then s.detach i (.accepts event none)
    else some (s.setCall i { c with place := .accepts event none })
  | .detaches => s.detach i .adds
  | .adds => s.underLock (s.addWaiter i)
  | .accepts event first =>
    match s.backlog with
    | conn :: backlog =>
      some ({ s with backlog }.setCall i { c with place := .accepted event first conn })
    | [] => some (s.setCall i { c with place := .tries event first })
  | .accepted event none conn => some (s.setCall i { c with place := .accepts event (some conn) })
  | .accepted event (some first) conn =>
    some ({ s with pending := s.pending ++ [conn] }.setCall i
      { c with place := .accepts event (some first) })
  | .tries event first =>
    match s.readable with
    | some seen => some (s.setCall i { c with place := .clears event seen first })
    | none => some (s.setCall i { c with place := .finishes event first })
  | .clears event seen first =>
    some ((s.clearReady seen).setCall i { c with place := .finishes event first })
  | .finishes event (some first) =>
    some ((s.clearReady event).setCall i { c with place := .returned first })
  | .finishes event none => some ((s.clearReady event).setCall i { c with place := .loads })
  | .waits | .returned _ | .failed | .dropped => none

/-- `set_readiness_and_wake` from the store on. -/
def report (s : State) (loaded : UInt64) (ready : Ready) : State :=
  { s with
    packed := setReadiness loaded ready
    holder := none
    waiters := if interestSatisfied .READABLE ready then [] else s.waiters }

def step (s : State) : Label → Option State
  | .accept => some { s with calls := s.calls ++ [⟨.checks, false⟩] }
  | .poll i => s.calls[i]?.bind fun c =>
    if c.place = .waits then some (s.setCall i { c with place := .loads }) else none
  | .next i => s.calls[i]?.bind fun c => s.next i c
  | .fail i => s.calls[i]?.bind fun c =>
    match c.place with
    | .accepts _ _ | .accepted _ _ _ => some (s.setCall i { c with place := .failed })
    | _ => none
  | .drop i => s.calls[i]?.bind fun c =>
    match c.place with
    | .checks => some (s.setCall i { c with place := .dropped })
    | .waits => s.detach i .dropped
    | _ => none
  | .arrive conn => some { s with backlog := s.backlog ++ [conn] }
  | .event ready =>
    if s.backlog ≠ [] ∨ ready.bits &&& Ready.READABLE.bits = 0 then
      some { s with events := s.events ++ [ready] }
    else none
  | .lock =>
    match s.holder, s.events with
    | none, ready :: events => some { s with holder := some (s.packed, ready), events }
    | _, _ => none
  | .report => s.holder.map fun (loaded, ready) => s.report loaded ready

/-- The poll of the call was pending, and its waiter is linked. -/
def Parked (s : State) (i : ℕ) : Prop :=
  i ∈ s.waiters ∧ ∃ c, s.calls[i]? = some c ∧ c.place = .waits

/-- A call is parked beside a queued connection, and no readiness will come for it. -/
def Stranded (s : State) : Prop := s.pending ≠ [] ∧ s.backlog = [] ∧ ∃ i, s.Parked i

/-- A call puts a connection into `pending` only when no call searches. -/
def Alone (s : State) : Label → Prop
  | .next i =>
    s.calls[i]?.any (·.place.pushes) = true → ∀ c ∈ s.calls, c.place.searching = false
  | _ => True

instance (s : State) : (l : Label) → Decidable (s.Alone l)
  | .next i => inferInstanceAs (Decidable
      (s.calls[i]?.any (·.place.pushes) = true → ∀ c ∈ s.calls, c.place.searching = false))
  | .accept | .poll _ | .fail _ | .drop _ | .arrive _ | .event _ | .lock | .report =>
    .isTrue trivial

end State

end Eddy.TcpListener
