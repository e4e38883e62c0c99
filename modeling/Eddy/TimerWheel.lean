import Mathlib.Algebra.Ring.Nat
import Mathlib.Data.List.Basic
import Mathlib.Logic.Function.Basic

/-!
# The hierarchical timing wheel

`Wheel` of `time/wheel.rs`: six levels of 64 slots, each slot an intrusive list of timer
nodes, with a bit of `occupied` for each slot that is not empty. A node is named by its
identity; `entries` is what the nodes contain. Times are `u64` milliseconds.
-/

namespace Eddy.TimerWheel
open Function (update)

def levelCount : ℕ := 6
def slotCount : ℕ := 64
def slotMask : ℕ := slotCount - 1
def pendingLevel : ℕ := levelCount
def unlinkedLevel : ℕ := 255

/-- `u64::MAX`. -/
def u64Max : ℕ := 2 ^ 64 - 1

def saturatingAdd (a b : ℕ) : ℕ := min (a + b) u64Max

/-- `u64::checked_shl`, which fails for a large shift only. -/
def checkedShl (a shift : ℕ) : Option ℕ :=
  if shift < 64 then some ((a <<< shift) % 2 ^ 64) else none

structure TimerEntry where
  deadline : ℕ := 0
  fired : Bool := false
  level : ℕ := unlinkedLevel
  slot : ℕ := 0
  waker : Option ℕ := none
  /-- `links.is_linked()`. -/
  linked : Bool := false

structure Level where
  occupied : BitVec 64
  slots : ℕ → List ℕ

structure Wheel where
  elapsed : ℕ
  levels : ℕ → Level
  pending : List ℕ
  entries : ℕ → TimerEntry

def TimerEntry.unlink (entry : TimerEntry) : TimerEntry :=
  { entry with level := unlinkedLevel, linked := false }

namespace Level

def new : Level where
  occupied := 0#64
  slots := fun _ => []

def pushBack (level : Level) (slot id : ℕ) : Level where
  occupied := level.occupied ||| (1#64 <<< slot)
  slots := update level.slots slot (level.slots slot ++ [id])

def clear (level : Level) (slot : ℕ) : Level where
  occupied := level.occupied &&& ~~~(1#64 <<< slot)
  slots := update level.slots slot []

def remove (level : Level) (slot id : ℕ) : Level where
  occupied :=
    if ((level.slots slot).erase id).isEmpty then level.occupied &&& ~~~(1#64 <<< slot)
    else level.occupied
  slots := update level.slots slot ((level.slots slot).erase id)

end Level

def slotAt (level time : ℕ) : ℕ := (time >>> (level * 6)) &&& slotMask

namespace Wheel

def new : Wheel where
  elapsed := 0
  levels := fun _ => .new
  pending := []
  entries := fun _ => {}

def deadline (w : Wheel) (id : ℕ) : ℕ := (w.entries id).deadline

def levelFor (w : Wheel) (time : ℕ) : ℕ :=
  let masked := (BitVec.ofNat 64 time ^^^ BitVec.ofNat 64 w.elapsed) ||| BitVec.ofNat 64 slotMask
  let significant := 63 - masked.clz.toNat
  min (significant / 6) (levelCount - 1)

def pushPending (w : Wheel) (id : ℕ) : Wheel :=
  { w with
    pending := w.pending ++ [id]
    entries := update w.entries id
      { w.entries id with level := pendingLevel, linked := true } }

def link (w : Wheel) (id level slot : ℕ) : Wheel :=
  { w with
    levels := update w.levels level ((w.levels level).pushBack slot id)
    entries := update w.entries id
      { w.entries id with level := level, slot := slot, linked := true } }

def insert (w : Wheel) (id : ℕ) : Wheel :=
  let deadline := w.deadline id
  if deadline ≤ w.elapsed then w.pushPending id
  else
    let level := w.levelFor deadline
    w.link id level (slotAt level deadline)

def remove (w : Wheel) (id : ℕ) : Bool × Wheel :=
  let entry := w.entries id
  let entries := update w.entries id entry.unlink
  if !entry.linked then (false, w)
  else if entry.level = pendingLevel then
    (true, { w with pending := w.pending.erase id, entries := entries })
  else if entry.level < levelCount && entry.slot < slotCount then
    let level := (w.levels entry.level).remove entry.slot id
    (true, { w with levels := update w.levels entry.level level, entries := entries })
  else (false, w)

def unlinkAll (w : Wheel) (ids : List ℕ) : ℕ → TimerEntry := fun id =>
  if id ∈ ids then (w.entries id).unlink else w.entries id

def takeSlot (w : Wheel) (level slot : ℕ) : List ℕ × Wheel :=
  let ids := (w.levels level).slots slot
  (ids, { w with
    levels := update w.levels level ((w.levels level).clear slot)
    entries := w.unlinkAll ids })

def takePending (w : Wheel) : List ℕ × Wheel :=
  (w.pending, { w with pending := [], entries := w.unlinkAll w.pending })

/-- How many slots ahead of `current` the next occupied slot is. -/
def nextDelta (occupied : BitVec 64) (current : ℕ) : ℕ :=
  if current < slotCount - 1 then
    let after := occupied >>> (current + 1)
    if after ≠ 0#64 then after.ctz.toNat + 1
    else
      let lower := occupied &&& ((1#64 <<< current) - 1#64)
      if lower ≠ 0#64 then slotCount - current + lower.ctz.toNat
      else slotCount
  else occupied.ctz.toNat + 1

def levelEventAt (w : Wheel) (level : ℕ) : Option ℕ :=
  let occupied := (w.levels level).occupied
  if occupied = 0#64 then none
  else
    let shift := level * 6
    let bucket := saturatingAdd (w.elapsed >>> shift) (nextDelta occupied (slotAt level w.elapsed))
    some ((checkedShl bucket shift).getD u64Max)

def nextEventAt (w : Wheel) : Option ℕ :=
  if !w.pending.isEmpty then some w.elapsed
  else (List.range levelCount).foldl (fun next level =>
    match w.levelEventAt level with
    | none => next
    | some time => some (next.elim time (min · time))) none

/-- Whether the slot of `elapsed` at a level is occupied. -/
def currentOccupied (w : Wheel) (level : ℕ) : Bool :=
  (w.levels level).occupied &&& (1#64 <<< slotAt level w.elapsed) != 0#64

/-- The loop over the levels 1 to 5 in `advance_to`. -/
def cascade (w : Wheel) (level : ℕ) : Wheel :=
  if w.currentOccupied level then
    let (ids, w) := w.takeSlot level (slotAt level w.elapsed)
    ids.foldl insert w
  else w

/-- Level 0 in `advance_to`. -/
def expire (now : ℕ) (w : Wheel) : Wheel :=
  if w.currentOccupied 0 then
    let (ids, w) := w.takeSlot 0 (slotAt 0 w.elapsed)
    ids.foldl (fun w id => if w.deadline id ≤ now then w.pushPending id else w.insert id) w
  else w

def process (now next : ℕ) (w : Wheel) : Wheel :=
  expire now ([5, 4, 3, 2, 1].foldl cascade { w with elapsed := next })

/-- The loop of `advance_to`, which may make `fuel` iterations. -/
def advanceLoop (now : ℕ) : ℕ → Wheel → Option Wheel
  | 0, _ => none
  | fuel + 1, w =>
    match w.nextEventAt with
    | none => some { w with elapsed := now }
    | some next =>
      if next > now then some { w with elapsed := now }
      else
        let w := w.process now next
        if !w.pending.isEmpty then some w
        else if w.nextEventAt.isNone then some { w with elapsed := now }
        else advanceLoop now fuel w

def advanceTo (w : Wheel) (now : ℕ) : Option Wheel :=
  if now ≤ w.elapsed then some w else advanceLoop now (now - w.elapsed + 1) w

end Wheel

end Eddy.TimerWheel
