import Eddy.Interleaving
import Eddy.ScheduledIo
import Mathlib.Data.List.Nodup
import Mathlib.Data.List.Count

/-!
# The waiters of a registered descriptor

`set_readiness_and_wake`, `add_waiter`, `remove_slot_waiter` and `remove_list_waiter` of
`io/driver.rs`, with the polls and drops of any number of `Readiness` futures. A step is a section
under the lock of the waiters, a load of the word outside of it, or one wake of a report that has
released the lock; a report loads and stores the word in two steps. A waiter is named by the order
in which waiters are made; a waker is a number.

The history records the references leaked (`into_raw`) and reclaimed (`from_raw`), and what each
report has taken, woken and is still to wake.
-/

namespace Eddy.IoWaiters
open Interleaving ScheduledIo
open Function (update)

structure Waiter where
  waker : ℕ
  interests : Interest

inductive Slot where
  | reader
  | writer
  deriving DecidableEq

structure Waiters where
  reader : Option ℕ
  writer : Option ℕ
  list : List ℕ
  /-- `is_linked` of each waiter. -/
  linked : ℕ → Bool
  leaked : List ℕ
  reclaimed : List ℕ

namespace Waiters

def new : Waiters := ⟨none, none, [], fun _ => false, [], []⟩

def slot (ws : Waiters) : Slot → Option ℕ
  | .reader => ws.reader
  | .writer => ws.writer

def setSlot (ws : Waiters) (slot : Slot) (w : Option ℕ) : Waiters :=
  match slot with
  | .reader => { ws with reader := w }
  | .writer => { ws with writer := w }

def intoRaw (ws : Waiters) (w : ℕ) : Waiters := { ws with leaked := ws.leaked ++ [w] }

def fromRaw (ws : Waiters) (w : ℕ) : Waiters := { ws with reclaimed := ws.reclaimed ++ [w] }

def pushBack (ws : Waiters) (w : ℕ) : Waiters :=
  { ws with list := ws.list ++ [w], linked := update ws.linked w true }

def popFront (ws : Waiters) : Option (ℕ × Waiters) :=
  match ws.list with
  | [] => none
  | w :: rest => some (w, { ws with list := rest, linked := update ws.linked w false })

def remove (ws : Waiters) (w : ℕ) : Waiters :=
  { ws with list := ws.list.erase w, linked := update ws.linked w false }

/-- The waiters that are linked, slots first. -/
def ids (ws : Waiters) : List ℕ := ws.reader.toList ++ ws.writer.toList ++ ws.list

/-- `take_matching`. -/
def takeMatching (ws : Waiters) (sat : ℕ → Bool) (slot : Slot) : Waiters × List ℕ :=
  match ws.slot slot with
  | none => (ws, [])
  | some w => if sat w then ((ws.fromRaw w).setSlot slot none, [w]) else (ws, [])

/-- The loop of `set_readiness_and_wake` over the list, `n` rounds of it. -/
def sweep (sat : ℕ → Bool) : ℕ → Waiters → List ℕ → Waiters × List ℕ
  | 0, ws, popped => (ws, popped)
  | n + 1, ws, popped =>
      match ws.popFront with
      -- the `unwrap`: the list holds at least as many waiters as there are rounds to go
      | none => (ws, popped)
      | some (w, ws) =>
          if sat w then sweep sat n (ws.fromRaw w) (popped ++ [w])
          else sweep sat n (((ws.fromRaw w).intoRaw w).pushBack w) popped

/-- What `set_readiness_and_wake` takes off, in the order in which it wakes. -/
def takeAll (ws : Waiters) (sat : ℕ → Bool) : Waiters × List ℕ :=
  let (ws, readers) := ws.takeMatching sat .reader
  let (ws, writers) := ws.takeMatching sat .writer
  sweep sat ws.list.length ws (readers ++ writers)

end Waiters

inductive WaiterState where
  | unregistered
  | inSlot (slot : Slot) (w : ℕ)
  | inList (w : ℕ)
  deriving DecidableEq

def WaiterState.waiter? : WaiterState → Option ℕ
  | .unregistered => none
  | .inSlot _ w | .inList w => some w

structure ReadyEvent where
  generation : UInt32
  ready : Ready
  deriving DecidableEq

inductive Poll where
  | ready (event : ReadyEvent)
  /-- With the waker that the future was polled with. -/
  | pending (waker : ℕ)
  deriving DecidableEq

/-- Where a future is in `poll`. -/
inductive Place where
  | idle
  /-- Before the load of the word. -/
  | loads (waker : ℕ)
  /-- The interest is satisfied: before it detaches and returns. -/
  | returns (event : ReadyEvent)
  | detaches (waker : ℕ)
  | adds (waker : ℕ)
  | dropped
  deriving DecidableEq

structure Readiness where
  interests : Interest
  state : WaiterState
  place : Place
  /-- The result of the last poll. -/
  result : Option Poll
  deriving DecidableEq

/-- A `set_readiness_and_wake` that has released the lock. -/
structure Report where
  taken : List ℕ
  woke : List ℕ
  rest : List ℕ
  deriving DecidableEq

structure State where
  packed : UInt64
  /-- The report that holds the lock, with the word that it has loaded. -/
  holder : Option (UInt64 × Ready)
  waiters : Waiters
  nodes : List Waiter
  futures : List Readiness
  reports : List Report

inductive Label where
  | readiness (interests : Interest)
  | poll (f : ℕ) (waker : ℕ)
  /-- The next step of the poll of a future. -/
  | future (f : ℕ)
  | drop (f : ℕ)
  /-- A report takes the lock and loads the word. -/
  | lock (ready : Ready)
  /-- The report stores the word, takes the waiters and releases the lock. -/
  | report
  /-- The next wake of a report. -/
  | wake (r : ℕ)
  | clearReady (gen : UInt32) (seen : Ready)

/-- `detach` on the waiters. -/
def Waiters.detach (ws : Waiters) : WaiterState → Waiters
  | .unregistered => ws
  | .inSlot slot w => if ws.slot slot = some w then (ws.fromRaw w).setSlot slot none else ws
  | .inList w => if ws.linked w then (ws.remove w).fromRaw w else ws

/-- Where `add_waiter` puts a new waiter. -/
def Waiters.add (ws : Waiters) (interests : Interest) (w : ℕ) : Waiters × WaiterState :=
  if interests.isReadable && ws.reader.isNone then
    ((ws.intoRaw w).setSlot .reader (some w), .inSlot .reader w)
  else if interests.isWritable && ws.writer.isNone then
    ((ws.intoRaw w).setSlot .writer (some w), .inSlot .writer w)
  else ((ws.intoRaw w).pushBack w, .inList w)

namespace State

def init (gen : UInt32) : State := ⟨ScheduledIo.new gen, none, .new, [], [], []⟩

def satisfied (s : State) (ready : Ready) (w : ℕ) : Bool :=
  s.nodes[w]?.any fun node => interestSatisfied node.interests ready

def setFuture (s : State) (f : ℕ) (fut : Readiness) : State :=
  { s with futures := s.futures.set f fut }

/-- `Readiness::detach`. -/
def detach (s : State) (f : ℕ) (fut : Readiness) (place : Place) (result : Option Poll) : State :=
  { s with waiters := s.waiters.detach fut.state }.setFuture f
    { fut with state := .unregistered, place, result }

/-- `add_waiter` at the end of a poll. -/
def addWaiter (s : State) (f : ℕ) (fut : Readiness) (waker : ℕ) : State :=
  if (ScheduledIo.readiness s.packed fut.interests).isSome then
    s.setFuture f { fut with
      place := .idle
      result := some (.ready ⟨generation s.packed, ScheduledIo.ready s.packed⟩) }
  else
    let (waiters, state) := s.waiters.add fut.interests s.nodes.length
    let node : Waiter := ⟨waker, fut.interests⟩
    { s with waiters, nodes := s.nodes ++ [node] }.setFuture f
      { fut with state, place := .idle, result := some (.pending waker) }

def underLock (s s' : State) : Option State :=
  match s.holder with
  | none => some s'
  | some _ => none

/-- The next step of a poll. A changed waker is detached and added like an unchanged one. -/
def pollStep (s : State) (f : ℕ) (fut : Readiness) : Option State :=
  match fut.place with
  | .idle | .dropped => none
  | .loads waker =>
      match ScheduledIo.readiness s.packed fut.interests with
      | some (gen, ready) => some (s.setFuture f { fut with place := .returns ⟨gen, ready⟩ })
      | none =>
          some (s.setFuture f { fut with
            place := if fut.state = .unregistered then .adds waker else .detaches waker })
  | .returns event => s.underLock (s.detach f fut .idle (some (.ready event)))
  | .detaches waker => s.underLock (s.detach f fut (.adds waker) fut.result)
  | .adds waker => s.underLock (s.addWaiter f fut waker)

/-- `set_readiness_and_wake` from the store to the release of the lock. -/
def report (s : State) (packed : UInt64) (ready : Ready) : State :=
  let (waiters, taken) := s.waiters.takeAll (s.satisfied ready)
  { s with
    packed := setReadiness packed ready
    holder := none
    waiters
    reports := s.reports ++ [⟨taken, [], taken⟩] }

def step (s : State) : Label → Option State
  | .readiness interests =>
      let fut : Readiness := ⟨interests, .unregistered, .idle, none⟩
      some { s with futures := s.futures ++ [fut] }
  | .poll f waker => s.futures[f]?.bind fun fut =>
      match fut.place with
      | .idle => some (s.setFuture f { fut with place := .loads waker })
      | _ => none
  | .future f => s.futures[f]?.bind fun fut => s.pollStep f fut
  | .drop f => s.futures[f]?.bind fun fut =>
      match fut.place with
      | .idle => s.underLock (s.detach f fut .dropped fut.result)
      | _ => none
  | .lock ready => s.underLock { s with holder := some (s.packed, ready) }
  | .report => s.holder.map fun (packed, ready) => s.report packed ready
  | .wake r => s.reports[r]?.bind fun report =>
      match report.rest with
      | [] => none
      | w :: rest => some { s with
          reports := s.reports.set r { report with woke := report.woke ++ [w], rest } }
  | .clearReady gen seen =>
      some { s with packed := (ScheduledIo.clearReady s.packed gen seen).getD s.packed }

end State

namespace Waiters

/-- Every waiter is linked at most once, the flag says whether it is in the list, and exactly the
linked waiters have a leaked reference. -/
structure Linked (ws : Waiters) : Prop where
  once : ∀ w, ws.ids.count w ≤ 1
  flag : ∀ w, ws.linked w = true ↔ w ∈ ws.list
  balance : ∀ w, ws.leaked.count w = ws.reclaimed.count w + ws.ids.count w

variable {ws ws' : Waiters} {w : ℕ}

theorem linked_new : new.Linked := ⟨by simp [new, ids], by simp [new], by simp [new, ids]⟩

theorem Linked.takeOff (h : ws.Linked)
    (hids : ∀ x, ws'.ids.count x + [w].count x = ws.ids.count x)
    (hflag : ∀ x, ws'.linked x = true ↔ x ∈ ws'.list) (hleaked : ws'.leaked = ws.leaked)
    (hreclaimed : ws'.reclaimed = ws.reclaimed ++ [w]) : ws'.Linked where
  once x := by
    have := h.once x
    have := hids x
    omega
  flag := hflag
  balance x := by
    have := h.balance x
    have := hids x
    rw [hleaked, hreclaimed, List.count_append]
    omega

theorem Linked.putOn (h : ws.Linked) (hw : w ∉ ws.ids)
    (hids : ∀ x, ws'.ids.count x = ws.ids.count x + [w].count x)
    (hflag : ∀ x, ws'.linked x = true ↔ x ∈ ws'.list) (hleaked : ws'.leaked = ws.leaked ++ [w])
    (hreclaimed : ws'.reclaimed = ws.reclaimed) : ws'.Linked where
  once x := by
    have hone := h.once x
    have hcount := hids x
    by_cases hx : x = w
    · subst hx
      have := List.count_eq_zero_of_not_mem hw
      have : [x].count x = 1 := List.count_singleton_self
      omega
    · have : [w].count x = 0 := List.count_eq_zero_of_not_mem (by simpa using hx)
      omega
  flag := hflag
  balance x := by
    have := h.balance x
    have := hids x
    rw [hleaked, hreclaimed, List.count_append]
    omega

variable {slot : Slot}

theorem count_setSlot_none (hslot : ws.slot slot = some w) (x : ℕ) :
    (ws.setSlot slot none).ids.count x + [w].count x = ws.ids.count x := by
  cases slot <;> simp only [Waiters.slot] at hslot <;>
    simp only [ids, setSlot, hslot, List.count_append, Option.toList_none, Option.toList_some,
      List.count_nil] <;> omega

theorem count_setSlot_some (hslot : ws.slot slot = none) (w x : ℕ) :
    (ws.setSlot slot (some w)).ids.count x = ws.ids.count x + [w].count x := by
  cases slot <;> simp only [Waiters.slot] at hslot <;>
    simp only [ids, setSlot, hslot, List.count_append, Option.toList_none, Option.toList_some,
      List.count_nil] <;> omega

theorem setSlot_list (ws : Waiters) (slot : Slot) (w : Option ℕ) :
    (ws.setSlot slot w).list = ws.list ∧ (ws.setSlot slot w).linked = ws.linked ∧
      (ws.setSlot slot w).leaked = ws.leaked ∧ (ws.setSlot slot w).reclaimed = ws.reclaimed := by
  cases slot <;> exact ⟨rfl, rfl, rfl, rfl⟩

theorem Linked.clearSlot (h : ws.Linked) (hslot : ws.slot slot = some w) :
    ((ws.fromRaw w).setSlot slot none).Linked := by
  obtain ⟨hlist, hlinked, hleaked, hreclaimed⟩ := (ws.fromRaw w).setSlot_list slot none
  refine h.takeOff (count_setSlot_none hslot) ?_ hleaked hreclaimed
  rw [hlist, hlinked]
  exact h.flag

theorem Linked.fillSlot (h : ws.Linked) (hslot : ws.slot slot = none)
    (hw : w ∉ ws.ids) : ((ws.intoRaw w).setSlot slot (some w)).Linked := by
  obtain ⟨hlist, hlinked, hleaked, hreclaimed⟩ := (ws.intoRaw w).setSlot_list slot (some w)
  have hfree : (ws.intoRaw w).slot slot = none := by cases slot <;> exact hslot
  refine h.putOn hw (fun x => ?_) ?_ hleaked hreclaimed
  · exact count_setSlot_some hfree w x
  rw [hlist, hlinked]
  exact h.flag

theorem Linked.not_mem_of_cons (h : ws.Linked) {rest : List ℕ} (hlist : ws.list = w :: rest) :
    w ∉ rest := by
  have := h.once w
  simp only [ids, hlist, List.count_append, List.count_cons_self] at this
  exact List.count_eq_zero.mp (by omega)

/-- The first of the list is popped. -/
theorem Linked.pop (h : ws.Linked) {rest : List ℕ} (hlist : ws.list = w :: rest) :
    Linked { ws with
      list := rest, linked := update ws.linked w false
      reclaimed := ws.reclaimed ++ [w] } := by
  refine h.takeOff (fun x => ?_) (fun x => ?_) rfl rfl
  · simp only [ids, hlist, List.count_append, List.count_cons, List.count_nil]
    omega
  · have hflag := h.flag x
    have hrest := h.not_mem_of_cons hlist
    rw [hlist] at hflag
    by_cases hx : x = w
    · subst hx
      simp [hrest]
    · simpa [Function.update_of_ne hx, hx] using hflag

theorem Linked.push (h : ws.Linked) (hw : w ∉ ws.ids) : ((ws.intoRaw w).pushBack w).Linked := by
  refine h.putOn hw (fun x => ?_) (fun x => ?_) rfl rfl
  · simp only [ids, pushBack, intoRaw, List.count_append]
    omega
  · have hflag := h.flag x
    by_cases hx : x = w
    · subst hx
      simp [pushBack]
    · simpa [pushBack, intoRaw, Function.update_of_ne hx, hx] using hflag

theorem Linked.remove (h : ws.Linked) (hw : w ∈ ws.list) :
    ((ws.remove w).fromRaw w).Linked := by
  have honce := h.once w
  have hcount : ws.list.count w = 1 := by
    have := List.count_pos_iff.mpr hw
    simp only [ids, List.count_append] at honce
    omega
  refine h.takeOff (fun x => ?_) (fun x => ?_) rfl rfl
  · by_cases hx : x = w
    · subst hx
      simp only [ids, Waiters.remove, fromRaw, List.count_append, List.count_erase_self,
        List.count_singleton_self]
      omega
    · have hsingle : [w].count x = 0 := List.count_eq_zero_of_not_mem (by simpa using hx)
      simp only [ids, Waiters.remove, fromRaw, List.count_append, List.count_erase_of_ne hx,
        hsingle]
      omega
  · have hflag := h.flag x
    by_cases hx : x = w
    · subst hx
      have : x ∉ ws.list.erase x := by
        rw [← List.count_eq_zero, List.count_erase_self]
        omega
      simp [Waiters.remove, fromRaw, this]
    · simpa [Waiters.remove, fromRaw, Function.update_of_ne hx, List.mem_erase_of_ne hx]
        using hflag

theorem slot_mem_ids (hslot : ws.slot slot = some w) : w ∈ ws.ids := by
  cases slot <;> simp_all [Waiters.slot, ids]

theorem linked_detach (h : ws.Linked) (state : WaiterState) : (ws.detach state).Linked := by
  unfold Waiters.detach
  split
  · exact h
  · split_ifs with hslot
    · exact h.clearSlot hslot
    · exact h
  · split_ifs with hlinked
    · exact h.remove ((h.flag _).mp hlinked)
    · exact h

theorem linked_add (h : ws.Linked) (interests : Interest) (hw : w ∉ ws.ids) :
    (ws.add interests w).1.Linked := by
  unfold Waiters.add
  split_ifs with hreader hwriter
  · have hfree : ws.slot .reader = none := by simp_all [Waiters.slot]
    exact h.fillSlot hfree hw
  · have hfree : ws.slot .writer = none := by simp_all [Waiters.slot]
    exact h.fillSlot hfree hw
  · exact h.push hw

/-- One `take_matching`: the waiters that stay are those that do not match. -/
theorem takeMatching_eq (h : ws.Linked) (sat : ℕ → Bool) (slot : Slot) :
    (ws.takeMatching sat slot).1.Linked ∧
      (ws.takeMatching sat slot).2 = (ws.slot slot).toList.filter sat ∧
      (∀ slot', (ws.takeMatching sat slot).1.slot slot' =
        if slot' = slot then (ws.slot slot).filter fun w => !sat w else ws.slot slot') ∧
      (ws.takeMatching sat slot).1.list = ws.list := by
  unfold takeMatching
  cases hslot : ws.slot slot with
  | none =>
    refine ⟨h, rfl, fun slot' => ?_, rfl⟩
    split_ifs with heq
    · rw [heq, hslot]
      rfl
    · rfl
  | some w =>
    cases hsat : sat w with
    | true =>
      simp only [hsat, if_true, Option.toList_some, List.filter_cons_of_pos, List.filter_nil]
      refine ⟨h.clearSlot hslot, trivial, fun slot' => ?_, ?_⟩
      · cases slot <;> cases slot' <;> simp [setSlot, fromRaw, Waiters.slot, Option.filter, hsat]
      · exact ((ws.fromRaw w).setSlot_list slot none).1
    | false =>
      refine ⟨by simpa [hsat] using h, by simp [hsat], fun slot' => ?_, by simp [hsat]⟩
      split_ifs with heq
      · simp [heq, hslot, Option.filter, hsat]
      · simp [hsat]

/-- The loop takes the matching waiters out of the front part of the list and moves the others
behind the rest, in their order. -/
theorem sweep_eq (sat : ℕ → Bool) (h : ws.Linked) (front back popped : List ℕ)
    (hlist : ws.list = front ++ back) :
    (sweep sat front.length ws popped).1.Linked ∧
      (sweep sat front.length ws popped).2 = popped ++ front.filter sat ∧
      (sweep sat front.length ws popped).1.list = back ++ front.filter (fun w => !sat w) ∧
      (sweep sat front.length ws popped).1.reader = ws.reader ∧
      (sweep sat front.length ws popped).1.writer = ws.writer := by
  induction front generalizing ws back popped with
  | nil => exact ⟨h, by simp [sweep], by simpa [sweep] using hlist, rfl, rfl⟩
  | cons w front ih =>
    have hpop : ws.popFront = some (w, { ws with
        list := front ++ back, linked := update ws.linked w false }) := by
      rw [popFront, hlist]
      rfl
    have hpopped := h.pop hlist
    have hnot : w ∉ ws.reader.toList ++ ws.writer.toList ++ (front ++ back) := by
      have := h.once w
      simp only [ids, hlist, List.cons_append, List.count_append, List.count_cons_self] at this
      rw [← List.count_eq_zero]
      simp only [List.count_append]
      omega
    simp only [List.length_cons, sweep, hpop]
    cases hsat : sat w with
    | true =>
      obtain ⟨hlinked, htaken, hrest, hreader, hwriter⟩ :=
        ih hpopped back (popped ++ [w]) rfl
      simp only [if_true, List.filter_cons, hsat, Bool.not_true, Bool.false_eq_true, if_false]
      exact ⟨hlinked, htaken.trans (by simp), hrest, hreader, hwriter⟩
    | false =>
      have hpushed := hpopped.push (w := w) hnot
      obtain ⟨hlinked, htaken, hrest, hreader, hwriter⟩ :=
        ih hpushed (back ++ [w]) popped (by simp [pushBack, intoRaw])
      simp only [Bool.false_eq_true, if_false, List.filter_cons, hsat, Bool.not_false, if_true]
      exact ⟨hlinked, htaken, hrest.trans (by simp), hreader, hwriter⟩

/-- A report takes exactly the linked waiters that match. -/
theorem takeAll_eq (h : ws.Linked) (sat : ℕ → Bool) :
    (ws.takeAll sat).1.Linked ∧ (ws.takeAll sat).2 = ws.ids.filter sat ∧
      (ws.takeAll sat).1.reader = ws.reader.filter (fun w => !sat w) ∧
      (ws.takeAll sat).1.writer = ws.writer.filter (fun w => !sat w) ∧
      (ws.takeAll sat).1.list = ws.list.filter (fun w => !sat w) := by
  obtain ⟨hlinked₁, htaken₁, hslots₁, hlist₁⟩ := takeMatching_eq h sat .reader
  obtain ⟨hlinked₂, htaken₂, hslots₂, hlist₂⟩ := takeMatching_eq hlinked₁ sat .writer
  obtain ⟨hlinked, htaken, hlist, hreader, hwriter⟩ := sweep_eq sat hlinked₂ _ []
    ((ws.takeMatching sat .reader).2 ++
      ((ws.takeMatching sat .reader).1.takeMatching sat .writer).2) (List.append_nil _).symm
  have hr₁ := hslots₁ .reader
  have hw₁ := hslots₁ .writer
  have hr₂ := hslots₂ .reader
  have hw₂ := hslots₂ .writer
  simp only [if_true, reduceCtorEq, if_false, Waiters.slot] at hr₁ hw₁ hr₂ hw₂
  refine ⟨hlinked, htaken.trans ?_, hreader.trans (hr₂.trans hr₁), hwriter.trans ?_,
    hlist.trans ?_⟩
  · rw [htaken₁, htaken₂, hlist₂, hlist₁,
      show (ws.takeMatching sat .reader).1.slot .writer = ws.writer from hw₁]
    simp only [ids, List.filter_append]
    rfl
  · rw [hw₂, hw₁]
  · rw [hlist₂, hlist₁, List.nil_append]

end Waiters

end Eddy.IoWaiters
