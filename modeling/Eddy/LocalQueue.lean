import Eddy.Interleaving
import Eddy.WrappingIndex
import Mathlib.Logic.Function.Basic
import Mathlib.Data.List.Count

/-!
# The work-stealing local queue, one atomic access at a time

`scheduler/multi_thread/queue.rs`. The owner pushes and pops at the tail, thieves reserve
ranges from the head with a compare-and-swap on the packed word
`[steal_head : 32][real_head : 32]`, copy the reserved slots and commit in order. Every
load, store, slot access and compare-and-swap is one step, and any number of thieves run
`steal_into` while the owner runs one operation at a time. A compare-and-swap that fails
has no effect besides the retry its caller makes, and yielding has none at all.

No step reads the history of what was accepted, popped, claimed and copied out.
-/

namespace Eddy.LocalQueue
open WrappingIndex

/-- `LOCAL_QUEUE_CAPACITY`, 256 slots. -/
def localQueueCapacity : Capacity := ⟨8, by decide⟩

def pack (stealHead realHead : UInt32) : UInt64 :=
  (stealHead.toUInt64 <<< 32) ||| realHead.toUInt64

def unpack (value : UInt64) : UInt32 × UInt32 :=
  ((value >>> 32).toUInt32, value.toUInt32)

theorem pack_toNat (a b : UInt32) : (pack a b).toNat = a.toNat * 4294967296 + b.toNat := by
  have ha := a.toNat_lt
  have hb := b.toNat_lt
  have hs : (a.toUInt64 <<< 32).toNat = a.toNat <<< 32 := by
    rw [UInt64.toNat_shiftLeft]
    simp only [UInt32.toNat_toUInt64, Nat.shiftLeft_eq]
    exact Nat.mod_eq_of_lt (by simp; omega)
  rw [pack, UInt64.toNat_or, hs, UInt32.toNat_toUInt64,
    ← Nat.shiftLeft_add_eq_or_of_lt (by simpa using hb), Nat.shiftLeft_eq]

@[simp] theorem unpack_pack (a b : UInt32) : unpack (pack a b) = (a, b) := by
  have hp := pack_toNat a b
  have ha := a.toNat_lt
  have hb := b.toNat_lt
  refine Prod.ext ?_ ?_ <;> rw [← UInt32.toNat_inj]
  · simp only [unpack, UInt64.toNat_toUInt32, UInt64.toNat_shiftRight, hp, Nat.shiftRight_eq_div_pow]
    simp
    omega
  · simp only [unpack, UInt64.toNat_toUInt32, hp]
    omega

theorem pack_inj {a b c d : UInt32} : pack a b = pack c d ↔ a = c ∧ b = d := by
  constructor
  · intro h
    have := congrArg unpack h
    simpa using this
  · rintro ⟨rfl, rfl⟩
    rfl

/-- A reservation of `count` slots from `start` on, in the hands of a thief, or of the
owner itself (`none`) while `push_overflow` moves items out. -/
structure Claim where
  holder : Option ℕ
  start : UInt32
  count : ℕ
  deriving DecidableEq

/-- `Inner`: the two atomic words and the slots, followed by the history. -/
structure Queue (T : Type) where
  head : UInt64
  tail : UInt32
  buffer : ℕ → Option T
  claims : List Claim
  advanced : ℕ
  accepted : List T
  popped : List T
  stolen : List T

variable {T : Type}

namespace Queue

/-- `Local::new`. -/
def new : Queue T :=
  { head := pack 0 0, tail := 0, buffer := fun _ => none, claims := [], advanced := 0,
    accepted := [], popped := [], stolen := [] }

def stealHead (q : Queue T) : UInt32 := (unpack q.head).1

def realHead (q : Queue T) : UInt32 := (unpack q.head).2

end Queue

def readSlot (cap : Capacity) (buffer : ℕ → Option T) (i : UInt32) : Option T :=
  buffer (cap.slot i)

/-- The next access of a thief inside `steal_into`. `seen` is the history's value of
`advanced` when the thief loaded the head. -/
inductive StealPc where
  | loadHead
  | loadTail (snapshot : UInt64) (seen : ℕ)
  | measure (snapshot : UInt64) (seen : ℕ) (tail : UInt32)
  | claim (snapshot : UInt64) (seen : ℕ) (count : ℕ)
  | copy (start : UInt32) (count offset : ℕ)
  | commitLoad (start : UInt32) (count : ℕ)
  | commit (start : UInt32) (count : ℕ) (stealHead : UInt32)
  | finished
  /-- The destination rejected an item, or a slot was read before it was ever written. -/
  | panicked

/-- A call of `steal_into`: the free space of its own destination queue, the item it will
return, and the items it has pushed to the destination. -/
structure Thief (T : Type) where
  pc : StealPc
  room : ℕ
  first : Option T
  dst : List T

def Thief.start (room : ℕ) : Thief T := ⟨.loadHead, room, none, []⟩

/-- How many items to reserve: at most half of those available, at least one. -/
def stealCount (available room : ℕ) : ℕ :=
  max (min (min available room) (max available 1 / 2)) 1

/-- The thief keeps the first item for its caller and pushes the others to its
destination, which nobody else fills. -/
def Thief.take (th : Thief T) (start : UInt32) (count offset : ℕ) (value : T) : Thief T :=
  match th.first, th.room with
  | none, _ => { th with pc := .copy start count (offset + 1), first := some value }
  | some _, 0 => { th with pc := .panicked }
  | some _, room + 1 =>
      { th with pc := .copy start count (offset + 1), room := room, dst := th.dst ++ [value] }

/-- One atomic access of `steal_into` and of the `commit_real_head` it ends with. -/
def stealStep (cap : Capacity) (holder : Option ℕ) (q : Queue T) (th : Thief T) :
    Option (Queue T × Thief T) :=
  match th.pc with
  | .loadHead => some (q, { th with pc := .loadTail q.head q.advanced })
  | .loadTail snapshot seen => some (q, { th with pc := .measure snapshot seen q.tail })
  | .measure snapshot seen tail =>
      let available := (tail - (unpack snapshot).1).toNat
      if available = 0 ∨ available > cap.size then some (q, { th with pc := .finished })
      else if th.room = 0 then some (q, { th with pc := .finished })
      else some (q, { th with pc := .claim snapshot seen (stealCount available th.room) })
  | .claim snapshot _ count =>
      let (stealHead, realHead) := unpack snapshot
      if q.head = snapshot then
        some ({ q with
            head := pack (stealHead + UInt32.ofNat count) realHead
            claims := q.claims ++ [⟨holder, stealHead, count⟩]
            advanced := q.advanced + count },
          { th with pc := .copy stealHead count 0 })
      else some (q, { th with pc := .loadHead })
  | .copy start count offset =>
      if offset < count then
        match readSlot cap q.buffer (start + UInt32.ofNat offset) with
        | none => some (q, { th with pc := .panicked })
        | some value =>
            some ({ q with stolen := q.stolen ++ [value] }, th.take start count offset value)
      else some (q, { th with pc := .commitLoad start count })
  | .commitLoad start count =>
      let (stealHead, realHead) := unpack q.head
      if realHead = start + UInt32.ofNat count then some (q, { th with pc := .finished })
      else some (q, { th with pc := .commit start count stealHead })
  | .commit start count stealHead =>
      if q.head = pack stealHead start then
        some ({ q with
            head := pack stealHead (start + UInt32.ofNat count)
            claims := q.claims.filter fun c => c.holder ≠ holder },
          { th with pc := .finished })
      else some (q, { th with pc := .commitLoad start count })
  | .finished | .panicked => none

/-- The next access of the owner. `spill` tells a `push_back` made by `push_overflow`
from one the scheduler made. -/
inductive OwnerPc (T : Type) where
  | idle
  | pushTail (value : T) (spill : Bool)
  | pushHead (value : T) (spill : Bool) (tail : UInt32)
  | pushWrite (value : T) (spill : Bool) (tail : UInt32)
  | pushStore (value : T) (spill : Bool) (tail : UInt32)
  /-- The `steal_into` by which `push_overflow` moves older items to its staging queue. -/
  | spilling (value : T) (staging : Thief T)
  | popTail
  | popHead (tail : UInt32)
  | popWithdraw (tail : UInt32)
  | popSnapshot (tail : UInt32)
  | popRestore (tail : UInt32)
  | popClaim (tail : UInt32) (snapshot : UInt64)
  | popKeep (tail : UInt32)
  | popRead (index : UInt32)
  /-- A slot was read before it was ever written, or the staging queue overflowed. -/
  | panicked

structure State (T : Type) where
  queue : Queue T
  owner : OwnerPc T
  thieves : List (Thief T)
  /-- The vector that `push_overflow` fills. -/
  overflow : List T

def State.init : State T := ⟨.new, .idle, [], []⟩

/-- A fresh, empty staging queue for `push_overflow`. -/
def staging : Thief T := Thief.start localQueueCapacity.size

def ownerStep (cap : Capacity) (s : State T) : Option (State T) :=
  let q := s.queue
  match s.owner with
  | .idle | .panicked => none
  | .pushTail value spill => some { s with owner := .pushHead value spill q.tail }
  | .pushHead value spill tail =>
      if (tail - q.realHead).toNat ≥ cap.size then
        some { s with owner := if spill then .spilling value staging else .idle }
      else some { s with owner := .pushWrite value spill tail }
  | .pushWrite value spill tail =>
      some { s with
        queue := { q with buffer := Function.update q.buffer (cap.slot tail) (some value) }
        owner := .pushStore value spill tail }
  | .pushStore value _ tail =>
      some { s with
        queue := { q with tail := tail + 1, accepted := q.accepted ++ [value] }
        owner := .idle }
  | .spilling value th =>
      match th.pc with
      | .finished =>
          -- the staging queue is private to the owner, so it is drained in one step
          some { s with
            owner := .pushTail value true
            overflow := s.overflow ++ th.first.toList ++ th.dst.reverse }
      | .panicked => some { s with owner := .panicked }
      | _ => (stealStep cap none q th).map fun (q', th') =>
          { s with queue := q', owner := .spilling value th' }
  | .popTail => some { s with owner := .popHead q.tail }
  | .popHead tail =>
      if tail = q.stealHead then some { s with owner := .idle }
      else some { s with owner := .popWithdraw tail }
  | .popWithdraw tail =>
      some { s with queue := { q with tail := tail - 1 }, owner := .popSnapshot tail }
  | .popSnapshot tail =>
      let available := (tail - q.stealHead).toNat
      if available = 0 ∨ q.realHead ≠ q.stealHead then some { s with owner := .popRestore tail }
      else if available = 1 then some { s with owner := .popClaim tail q.head }
      else some { s with owner := .popRead (tail - 1) }
  | .popRestore tail => some { s with queue := { q with tail := tail }, owner := .idle }
  | .popClaim tail snapshot =>
      let (stealHead, realHead) := unpack snapshot
      if q.head = snapshot then
        some { s with
          queue := { q with
            head := pack (stealHead + 1) (realHead + 1), advanced := q.advanced + 1 }
          owner := .popKeep tail }
      else some { s with owner := .popRestore tail }
  | .popKeep tail => some { s with queue := { q with tail := tail }, owner := .popRead (tail - 1) }
  | .popRead index =>
      match readSlot cap q.buffer index with
      | none => some { s with owner := .panicked }
      | some value =>
          some { s with queue := { q with popped := q.popped ++ [value] }, owner := .idle }

inductive Action (T : Type) where
  | push (value : T)
  | pushOverflow (value : T)
  | pop
  | owner
  | steal (room : ℕ)
  | thief (i : ℕ)
  /-- Other workers empty part of the destination queue of thief `i`. -/
  | drain (i freed : ℕ)

def step (cap : Capacity) (s : State T) : Action T → Option (State T)
  | .push value =>
      match s.owner with
      | .idle => some { s with owner := .pushTail value false }
      | _ => none
  | .pushOverflow value =>
      match s.owner with
      | .idle => some { s with owner := .pushTail value true }
      | _ => none
  | .pop =>
      match s.owner with
      | .idle => some { s with owner := .popTail }
      | _ => none
  | .owner => ownerStep cap s
  | .steal room => some { s with thieves := s.thieves ++ [Thief.start room] }
  | .thief i =>
      s.thieves[i]?.bind fun th =>
        (stealStep cap (some i) s.queue th).map fun (q', th') =>
          { s with queue := q', thieves := s.thieves.set i th' }
  | .drain i freed =>
      s.thieves[i]?.map fun th =>
        { s with thieves := s.thieves.set i { th with room := th.room + freed } }

/-- `push_back` from the first to the last access. -/
def pushSteps (value : T) : List (Action T) := .push value :: List.replicate 4 .owner

end Eddy.LocalQueue
