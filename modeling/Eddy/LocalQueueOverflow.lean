import Mathlib.Data.List.Induction
import Eddy.LocalQueue

/-!
# Overflow of the local queue

The calls of `scheduler/multi_thread/queue.rs` from the first to the last access, on a queue that
nobody else touches: every compare-and-swap succeeds at once. `push_overflow` steals the older half
of the queue into a staging queue of its own, drains that queue from its newer end and tries again.
-/

namespace Eddy.LocalQueue
open WrappingIndex

variable {T : Type}

/-- `Inner` -/
structure Local (T : Type) where
  head : UInt64
  tail : UInt32
  buffer : ℕ → Option T

namespace Local

/-- `Local::new` -/
def new : Local T := ⟨pack 0 0, 0, fun _ => none⟩

def stealHead (q : Local T) : UInt32 := (unpack q.head).1

def realHead (q : Local T) : UInt32 := (unpack q.head).2

def len (q : Local T) : ℕ := (q.tail - q.realHead).toNat

def availableSpace (cap : Capacity) (q : Local T) : ℕ := cap.size - q.len

/-- `push_back`, which hands the value back when the queue is full. -/
def pushBack (cap : Capacity) (q : Local T) (value : T) : Option (Local T) :=
  if (q.tail - q.realHead).toNat ≥ cap.size then none
  else
    some { q with
      buffer := Function.update q.buffer (cap.slot q.tail) (some value)
      tail := q.tail + 1 }

/-- `pop`; undefined where it would read a slot that was never written. -/
def pop (cap : Capacity) (q : Local T) : Option (Option T × Local T) :=
  if q.tail = q.stealHead then some (none, q)
  else
    let available := (q.tail - q.stealHead).toNat
    if available = 0 ∨ q.realHead ≠ q.stealHead then some (none, q)
    else
      (readSlot cap q.buffer (q.tail - 1)).map fun value =>
        if available = 1 then
          (some value, { q with head := pack (q.stealHead + 1) (q.realHead + 1) })
        else (some value, { q with tail := q.tail - 1 })

/-- The loop over the claimed slots in `steal_into`, with `n` of them left; undefined where the
destination is full. -/
def copySlots (cap dstCap : Capacity) (buffer : ℕ → Option T) (start : UInt32) :
    ℕ → ℕ → Option T → Local T → Option (Option T × Local T)
  | _, 0, first, dst => some (first, dst)
  | offset, n + 1, first, dst =>
    (readSlot cap buffer (start + UInt32.ofNat offset)).bind fun value =>
      match first with
      | none => copySlots cap dstCap buffer start (offset + 1) n (some value) dst
      | some first =>
        (dst.pushBack dstCap value).bind fun dst =>
          copySlots cap dstCap buffer start (offset + 1) n (some first) dst

/-- `commit_real_head`, which waits for earlier claims; undefined where there is one. -/
def commitRealHead (q : Local T) (claimStart claimedEnd : UInt32) : Option (Local T) :=
  if q.realHead = claimedEnd then some q
  else if q.head = pack q.stealHead claimStart then
    some { q with head := pack q.stealHead claimedEnd }
  else none

/-- `steal_into`, with the queue and the destination after it. -/
def stealInto (cap dstCap : Capacity) (q dst : Local T) : Option (Option T × Local T × Local T) :=
  let available := (q.tail - q.stealHead).toNat
  if available = 0 ∨ available > cap.size then some (none, q, dst)
  else
    let room := dst.availableSpace dstCap
    if room = 0 then some (none, q, dst)
    else
      let count := stealCount available room
      let claimedEnd := q.stealHead + UInt32.ofNat count
      (copySlots cap dstCap q.buffer q.stealHead 0 count none dst).bind fun (first, dst) =>
        ({ q with head := pack claimedEnd q.realHead }.commitRealHead q.stealHead claimedEnd).map
          fun q => (first, q, dst)

/-- The loop that empties the staging queue into `overflow`; undefined when it runs out of fuel. -/
def drain (cap : Capacity) : ℕ → Local T → List T → Option (Local T × List T)
  | 0, _, _ => none
  | fuel + 1, staging, overflow =>
    (staging.pop cap).bind fun
      | (none, staging) => some (staging, overflow)
      | (some item, staging) => drain cap fuel staging (overflow ++ [item])

/-- The loop of `push_overflow`, which may make `fuel` rounds. -/
def overflowLoop (value : T) : ℕ → Local T → Local T → List T → Option (Local T × List T)
  | 0, _, _, _ => none
  | fuel + 1, q, staging, overflow =>
    match q.pushBack localQueueCapacity value with
    | some q => some (q, overflow)
    | none =>
      (q.stealInto localQueueCapacity localQueueCapacity staging).bind fun
        | (none, q, staging) => overflowLoop value fuel q staging overflow
        | (some first, q, staging) =>
          (drain localQueueCapacity (localQueueCapacity.size + 1) staging
            (overflow ++ [first])).bind fun (staging, overflow) =>
              overflowLoop value fuel q staging overflow

def pushOverflow (fuel : ℕ) (q : Local T) (value : T) (overflow : List T) :
    Option (Local T × List T) :=
  overflowLoop value fuel q new overflow

/-- The queue holds the items in this order from the head index on, and no claim is open. -/
structure Holds (cap : Capacity) (q : Local T) (start : UInt32) (items : List T) : Prop where
  head : q.head = pack start start
  tail : q.tail = start + UInt32.ofNat items.length
  length : items.length ≤ cap.size
  slots : ∀ i item, items[i]? = some item →
    readSlot cap q.buffer (start + UInt32.ofNat i) = some item

variable {cap dstCap : Capacity} {q dst : Local T} {start base : UInt32} {items others : List T}
  {value : T}

theorem index_toNat_self (start : UInt32) : index start.toNat = start := UInt32.ofNat_toNat

theorem add_ofNat (start : UInt32) (n : ℕ) : start + UInt32.ofNat n = index (start.toNat + n) := by
  rw [← index_add, index_toNat_self]
  rfl

theorem add_ofNat_succ (start : UInt32) (n : ℕ) :
    start + UInt32.ofNat n + 1 = start + UInt32.ofNat (n + 1) := by
  rw [add_ofNat, add_ofNat, index_add_one, Nat.add_assoc]

theorem add_ofNat_add (start : UInt32) (m n : ℕ) :
    start + UInt32.ofNat m + UInt32.ofNat n = start + UInt32.ofNat (m + n) := by
  rw [add_ofNat start m, add_ofNat start, show UInt32.ofNat n = index n from rfl, index_add,
    Nat.add_assoc]

theorem add_ofNat_sub (start : UInt32) {n : ℕ} (h : n < 4294967296) :
    (start + UInt32.ofNat n - start).toNat = n := by
  have hsub := sub_toNat (Nat.le_add_right start.toNat n) (by omega)
  rw [add_ofNat]
  rw [index_toNat_self, Nat.add_sub_cancel_left] at hsub
  exact hsub

theorem slot_add_ne (start : UInt32) {i j : ℕ} (hij : i < j) (hspan : j < cap.size) :
    cap.slot (start + UInt32.ofNat j) ≠ cap.slot (start + UInt32.ofNat i) := by
  rw [add_ofNat, add_ofNat, cap.slot_index, cap.slot_index]
  exact (cap.slot_ne (Nat.add_lt_add_left hij _) (by omega)).symm

namespace Holds

theorem realHead (h : q.Holds cap start items) : q.realHead = start := by
  rw [Local.realHead, h.head, unpack_pack]

theorem stealHead (h : q.Holds cap start items) : q.stealHead = start := by
  rw [Local.stealHead, h.head, unpack_pack]

theorem available (h : q.Holds cap start items) : (q.tail - start).toNat = items.length := by
  rw [h.tail]
  exact add_ofNat_sub start (h.length.trans_lt cap.size_lt)

theorem availableSpace (h : q.Holds cap start items) :
    q.availableSpace cap = cap.size - items.length := by
  rw [Local.availableSpace, len, h.realHead, h.available]

protected theorem new : (Local.new : Local T).Holds cap 0 [] :=
  ⟨rfl, rfl, Nat.zero_le _, nofun⟩

theorem pushBack_full (h : q.Holds cap start items) (hfull : items.length = cap.size) :
    q.pushBack cap value = none := by
  rw [pushBack, h.realHead, h.available, if_pos hfull.ge]

theorem pushBack (h : q.Holds cap start items) (hroom : items.length < cap.size) (value : T) :
    ∃ q', q.pushBack cap value = some q' ∧ q'.Holds cap start (items ++ [value]) := by
  refine ⟨{ q with
    buffer := Function.update q.buffer (cap.slot q.tail) (some value)
    tail := q.tail + 1 }, ?_, h.head, ?_, ?_, fun i item hi => ?_⟩
  · rw [Local.pushBack, h.realHead, h.available, if_neg (Nat.not_le.mpr hroom)]
  · show q.tail + 1 = _
    rw [h.tail, add_ofNat_succ, List.length_append, List.length_singleton]
  · rw [List.length_append, List.length_singleton]
    exact hroom
  · show Function.update q.buffer (cap.slot q.tail) (some value) (cap.slot _) = _
    rw [h.tail]
    rcases Nat.lt_or_ge i items.length with hlt | hge
    · rw [List.getElem?_append_left hlt] at hi
      rw [Function.update_of_ne (slot_add_ne start hlt hroom).symm]
      exact h.slots i item hi
    · rw [List.getElem?_append_right hge] at hi
      obtain rfl : i = items.length := by
        have := (List.getElem?_eq_some_iff.mp hi).1
        simp only [List.length_singleton] at this
        omega
      rw [Nat.sub_self, List.getElem?_cons_zero] at hi
      rw [Function.update_self, hi]

theorem pop_nil (h : q.Holds cap start []) : q.pop cap = some (none, q) := by
  rw [pop, h.stealHead, if_pos (by simpa using h.tail)]

/-- The newest item is popped; when it is the last one, the head moves instead of the tail. -/
theorem pop (h : q.Holds cap start (items ++ [value])) :
    ∃ q' start', q.pop cap = some (some value, q') ∧ q'.Holds cap start' items := by
  have hlength : (items ++ [value]).length = items.length + 1 := by simp
  have havailable := h.available
  have hslot := h.slots items.length value (by simp)
  have htail : q.tail - 1 = start + UInt32.ofNat items.length := by
    rw [h.tail, hlength, ← add_ofNat_succ, UInt32.add_sub_cancel]
  have hne : q.tail ≠ start := by
    intro heq
    rw [heq, UInt32.sub_self, hlength] at havailable
    cases havailable
  rw [hlength] at havailable
  have hbefore : ∀ i item, items[i]? = some item →
      readSlot cap q.buffer (start + UInt32.ofNat i) = some item := by
    intro i item hi
    refine h.slots i item ?_
    rw [List.getElem?_append_left (List.getElem?_eq_some_iff.mp hi).1]
    exact hi
  have hle : items.length ≤ cap.size := by
    have := h.length
    omega
  rw [Local.pop, h.stealHead, h.realHead, if_neg hne, havailable,
    if_neg (by simp), htail, hslot, Option.map_some]
  by_cases hlast : items.length + 1 = 1
  · obtain rfl : items = [] := List.length_eq_zero_iff.mp (by omega)
    rw [if_pos hlast]
    refine ⟨_, start + 1, rfl, rfl, ?_, hle, nofun⟩
    show q.tail = _
    rw [h.tail]
    simp
  · rw [if_neg hlast]
    exact ⟨_, start, rfl, h.head, rfl, hle, hbefore⟩

/-- The claimed items reach the destination in their order. -/
theorem copySlots (hslots : ∀ i item, items[i]? = some item →
      readSlot cap q.buffer (start + UInt32.ofNat i) = some item) (first : T) (n : ℕ) :
    ∀ (offset : ℕ) {dst : Local T} {others : List T}, dst.Holds dstCap base others →
      offset + n ≤ items.length → others.length + n ≤ dstCap.size →
      ∃ dst', Local.copySlots cap dstCap q.buffer start offset n (some first) dst =
          some (some first, dst') ∧
        dst'.Holds dstCap base (others ++ (items.drop offset).take n) := by
  induction n with
  | zero =>
    intro offset dst others hdst _ _
    exact ⟨dst, rfl, by simpa using hdst⟩
  | succ n ih =>
    intro offset dst others hdst hitems hroom
    have hlt : offset < items.length := by omega
    obtain ⟨dst', hpush, hdst'⟩ := hdst.pushBack (by omega) items[offset]
    obtain ⟨dst'', hcopy, hdst''⟩ := ih (offset + 1) hdst' (by omega)
      (by simp only [List.length_append, List.length_singleton]; omega)
    refine ⟨dst'', ?_, ?_⟩
    · rw [Local.copySlots, hslots offset _ (List.getElem?_eq_getElem hlt), Option.bind_some]
      simp only
      rw [hpush, Option.bind_some, hcopy]
    · rw [List.drop_eq_getElem_cons hlt, List.take_succ_cons]
      simpa using hdst''

/-- A steal returns the oldest item and moves the rest of its claim. -/
theorem stealInto (h : q.Holds cap start (value :: items)) (hdst : dst.Holds dstCap base [])
    {n : ℕ} (hcount : stealCount (items.length + 1) dstCap.size = n + 1) (hn : n ≤ items.length) :
    ∃ q' dst', q.stealInto cap dstCap dst = some (some value, q', dst') ∧
      q'.Holds cap (start + UInt32.ofNat (n + 1)) (items.drop n) ∧
      dst'.Holds dstCap base (items.take n) := by
  have havailable := h.available
  have hlength := h.length
  rw [List.length_cons] at havailable hlength
  have hroom : dst.availableSpace dstCap = dstCap.size := by simpa using hdst.availableSpace
  have hpos := dstCap.size_pos
  have hsize := cap.size_lt
  have hnroom : n ≤ dstCap.size := by
    simp only [stealCount] at hcount
    omega
  obtain ⟨dst', hcopy, hdst'⟩ := copySlots h.slots value n 1 hdst
    (by rw [List.length_cons]; omega) (by simpa using hnroom)
  have hcommit : ({ q with head := pack (start + UInt32.ofNat (n + 1)) start } :
      Local T).commitRealHead start (start + UInt32.ofNat (n + 1)) =
      some { q with head := pack (start + UInt32.ofNat (n + 1)) (start + UInt32.ofNat (n + 1)) } := by
    have hne : start ≠ start + UInt32.ofNat (n + 1) := by
      intro heq
      have := add_ofNat_sub start (show n + 1 < 4294967296 by omega)
      rw [← heq, UInt32.sub_self] at this
      cases this
    rw [commitRealHead, Local.realHead, Local.stealHead, unpack_pack, if_neg hne, if_pos rfl]
  refine ⟨{ q with head := pack (start + UInt32.ofNat (n + 1)) (start + UInt32.ofNat (n + 1)) },
    dst', ?_, ⟨rfl, ?_, ?_, fun i item hi => ?_⟩, ?_⟩
  · rw [Local.stealInto, h.stealHead, h.realHead, havailable, hroom,
      if_neg (by omega), if_neg hpos.ne', hcount]
    simp only [Local.copySlots, h.slots 0 value rfl, Option.bind_some]
    rw [hcopy, Option.bind_some, hcommit, Option.map_some]
  · show q.tail = _
    rw [h.tail, add_ofNat_add, List.length_cons, List.length_drop]
    congr 2
    omega
  · rw [List.length_drop]
    omega
  · rw [add_ofNat_add]
    refine h.slots (n + 1 + i) item ?_
    rw [List.getElem?_drop] at hi
    rw [show n + 1 + i = n + i + 1 by omega, List.getElem?_cons_succ, hi]
  · simpa using hdst'

theorem drain {staging : Local T} (h : staging.Holds cap base items) (fuel : ℕ)
    (hfuel : items.length < fuel) (overflow : List T) :
    ∃ staging' base', Local.drain cap fuel staging overflow =
        some (staging', overflow ++ items.reverse) ∧ staging'.Holds cap base' [] := by
  obtain ⟨fuel, rfl⟩ : ∃ n, fuel = n + 1 := Nat.exists_eq_succ_of_ne_zero (by omega)
  induction items using List.reverseRecOn generalizing fuel staging base overflow with
  | nil =>
    refine ⟨staging, base, ?_, h⟩
    rw [Local.drain, h.pop_nil]
    simp
  | append_singleton items item ih =>
    rw [List.length_append, List.length_singleton] at hfuel
    obtain ⟨staging₁, base₁, hpop, h₁⟩ := h.pop
    obtain ⟨fuel, rfl⟩ : ∃ n, fuel = n + 1 := Nat.exists_eq_succ_of_ne_zero (by omega)
    obtain ⟨staging', base', hdrain, h'⟩ := ih h₁ (overflow ++ [item]) fuel (by omega)
    refine ⟨staging', base', ?_, h'⟩
    rw [Local.drain, hpop, Option.bind_some]
    simp only
    rw [hdrain]
    simp

end Holds

theorem localQueueCapacity_size : localQueueCapacity.size = 256 := rfl

theorem Holds.pushOverflow_full {oldest : T}
    (h : q.Holds localQueueCapacity start (oldest :: items))
    (hlength : items.length = 255) (value : T) (overflow : List T) {fuel : ℕ} (hfuel : 2 ≤ fuel) :
    ∃ q', q.pushOverflow fuel value overflow =
        some (q', overflow ++ oldest :: (items.take 127).reverse) ∧
      q'.Holds localQueueCapacity (start + 128) (items.drop 127 ++ [value]) := by
  obtain ⟨fuel, rfl⟩ := Nat.exists_eq_add_of_le' hfuel
  have hempty : (Local.new : Local T).Holds localQueueCapacity 0 [] := Holds.new
  obtain ⟨q₁, staging₁, hsteal, hq₁, hstaging₁⟩ := h.stealInto hempty (n := 127)
    (by rw [hlength]; rfl) (by omega)
  obtain ⟨staging₂, base₂, hdrain, -⟩ := hstaging₁.drain (localQueueCapacity.size + 1)
    (by rw [List.length_take, localQueueCapacity_size]; omega) (overflow ++ [oldest])
  obtain ⟨q', hpush, hq'⟩ := hq₁.pushBack
    (by rw [List.length_drop, localQueueCapacity_size]; omega) value
  have hfull : (oldest :: items).length = 256 := congrArg (· + 1) hlength
  refine ⟨q', ?_, hq'⟩
  rw [pushOverflow, overflowLoop, h.pushBack_full hfull]
  simp only
  rw [hsteal, Option.bind_some]
  simp only
  rw [hdrain, Option.bind_some]
  simp only
  rw [overflowLoop, hpush]
  simp

theorem push_overflow_moves_older_half (h : q.Holds localQueueCapacity start items)
    (hfull : items.length = 256) (value : T) (overflow : List T) {fuel : ℕ} (hfuel : 2 ≤ fuel) :
    ∃ q' moved, q.pushOverflow fuel value overflow = some (q', overflow ++ moved) ∧
      moved.Perm (items.take 128) ∧ moved.head? = items.head? ∧
      q'.Holds localQueueCapacity (start + 128) (items.drop 128 ++ [value]) ∧
      ∃ q'', q'.pop localQueueCapacity = some (some value, q'') := by
  obtain ⟨oldest, items, rfl⟩ := List.exists_cons_of_ne_nil
    (List.ne_nil_of_length_pos (by omega : 0 < items.length))
  obtain ⟨q', hpush, hq'⟩ :=
    h.pushOverflow_full (by simpa using hfull) value overflow hfuel
  obtain ⟨q'', start'', hpop, -⟩ := hq'.pop
  refine ⟨q', oldest :: (items.take 127).reverse, hpush, ?_, rfl, hq', q'', hpop⟩
  exact (List.reverse_perm _).cons oldest

/-- A full queue whose indices wrap around in its middle. -/
def wrapping : Local ℕ :=
  ⟨pack 4294967168 4294967168, 128, fun slot => some ((slot + 128) % 256)⟩

theorem wrapping_holds : wrapping.Holds localQueueCapacity 4294967168 (List.range 256) where
  head := rfl
  tail := by
    rw [List.length_range]
    rfl
  length := by rw [List.length_range, localQueueCapacity_size]
  slots := by
    intro i item hi
    obtain ⟨hlt, rfl⟩ := List.getElem?_eq_some_iff.mp hi
    rw [List.length_range] at hlt
    rw [List.getElem_range, readSlot, add_ofNat, localQueueCapacity.slot_index]
    show some (((4294967168 + i) % 256 + 128) % 256) = some i
    congr 1
    omega

theorem push_overflow_moves_older_half_wrapping :
    ∃ q' moved, wrapping.pushOverflow 2 256 [] = some (q', [] ++ moved) ∧
      moved.Perm ((List.range 256).take 128) ∧ moved.head? = (List.range 256).head? ∧
      q'.Holds localQueueCapacity (4294967168 + 128) ((List.range 256).drop 128 ++ [256]) ∧
      ∃ q'', q'.pop localQueueCapacity = some (some 256, q'') :=
  push_overflow_moves_older_half wrapping_holds List.length_range 256 [] (le_refl 2)

end Local
end Eddy.LocalQueue
