import Eddy.LocalQueue
import Mathlib.Data.List.Nodup

/-!
# The reservation protocol of the local queue

The invariant relates the wrapped words to unbounded positions `real ≤ steal ≤ tail`. The
outstanding claims tile `[real, steal)`, each in the hands of the call that made it, and
`[steal, tail)` is what the queue still offers, with the tail that the owner will restore. Every
step keeps it except a claim that reaches past the tail, which `ClaimFits` excludes.
-/

namespace Eddy.LocalQueue
open WrappingIndex Interleaving
open Function (update)

variable {T : Type}

/-- Occurrences of `x` in the `n` slots from index `start` on. -/
def occurrences [DecidableEq T] (cap : Capacity) (buffer : ℕ → Option T) (x : T)
    (start : UInt32) (n : ℕ) : ℕ :=
  (List.range n).countP fun j => readSlot cap buffer (start + UInt32.ofNat j) = some x

/-- Occurrences of `x` in the slots a thief has reserved but not copied yet. -/
def Thief.uncopied [DecidableEq T] (cap : Capacity) (buffer : ℕ → Option T) (x : T)
    (th : Thief T) : ℕ :=
  match th.pc with
  | .copy start count offset =>
      occurrences cap buffer x (start + UInt32.ofNat offset) (count - offset)
  | _ => 0

/-- Occurrences of `x` in the slots the owner has taken but not read yet. -/
def OwnerPc.unread [DecidableEq T] (cap : Capacity) (buffer : ℕ → Option T) (x : T) :
    OwnerPc T → ℕ
  | .spilling _ th => th.uncopied cap buffer x
  | .popKeep tail => occurrences cap buffer x (tail - 1) 1
  | .popRead index => occurrences cap buffer x index 1
  | _ => 0

/-- The tail up to which items are live: the tail word, or the value it is restored to
when the owner has withdrawn it provisionally. -/
def State.liveTail (s : State T) : UInt32 :=
  match s.owner with
  | .popSnapshot tail | .popRestore tail | .popClaim tail _ | .popKeep tail => tail
  | _ => s.queue.tail

/-- The number of items on offer between `steal_head` and the tail. As in `steal_into`, a
distance above the capacity stands for an empty range. -/
def State.offered (cap : Capacity) (s : State T) : ℕ :=
  if (s.liveTail - s.queue.stealHead).toNat ≤ cap.size then
    (s.liveTail - s.queue.stealHead).toNat
  else 0

/-- Live occurrences of `x` in the queue: those on offer, those reserved and not copied
yet, and the one the owner is about to read. -/
def State.live [DecidableEq T] (cap : Capacity) (s : State T) (x : T) : ℕ :=
  occurrences cap s.queue.buffer x s.queue.stealHead (s.offered cap) +
    total (Thief.uncopied cap s.queue.buffer x) s.thieves + s.owner.unread cap s.queue.buffer x

/-- The compare-and-swap by which a thief is about to claim: its snapshot of the head, the
history's `advanced` at that snapshot, and the number of slots. -/
def Thief.pendingClaim (th : Thief T) : Option (UInt64 × ℕ × ℕ) :=
  match th.pc with
  | .claim snapshot seen count => some (snapshot, seen, count)
  | _ => none

def State.pendingClaim (s : State T) : Action T → Option (UInt64 × ℕ × ℕ)
  | .thief i => s.thieves[i]?.bind Thief.pendingClaim
  | _ => none

/-- If this step is a claim and its compare-and-swap succeeds, the claimed range ends at
or before the tail. -/
def ClaimFits (cap : Capacity) (s : State T) (a : Action T) : Prop :=
  ∀ c ∈ s.pendingClaim a, s.queue.head = c.1 → c.2.2 ≤ s.offered cap

instance (cap : Capacity) (s : State T) (a : Action T) : Decidable (ClaimFits cap s a) := by
  unfold ClaimFits; infer_instance

section Occurrences
variable [DecidableEq T] (cap : Capacity) (buffer : ℕ → Option T) (x : T)

@[simp] theorem occurrences_zero (start : UInt32) : occurrences cap buffer x start 0 = 0 := rfl

theorem occurrences_add (start : UInt32) (m n : ℕ) :
    occurrences cap buffer x start (m + n) =
      occurrences cap buffer x start m + occurrences cap buffer x (start + UInt32.ofNat m) n := by
  simp only [occurrences, List.range_add, List.countP_append, List.countP_map]
  congr 1
  refine List.countP_congr fun j _ => ?_
  simp only [Function.comp_apply, UInt32.ofNat_add, UInt32.add_assoc]

theorem occurrences_one (start : UInt32) :
    occurrences cap buffer x start 1 = if readSlot cap buffer start = some x then 1 else 0 := by
  simp [occurrences, List.countP_cons]

/-- Only the contents of the slots in the range matter. -/
theorem occurrences_congr {buffer' : ℕ → Option T} {start : UInt32} {n : ℕ}
    (h : ∀ j < n, readSlot cap buffer' (start + UInt32.ofNat j) =
      readSlot cap buffer (start + UInt32.ofNat j)) :
    occurrences cap buffer' x start n = occurrences cap buffer x start n := by
  refine List.countP_congr fun j hj => ?_
  rw [h j (List.mem_range.mp hj)]

end Occurrences

/-- The unbounded positions behind `real_head`, `steal_head` and the tail. -/
structure Positions where
  real : ℕ
  steal : ℕ
  tail : ℕ

/-- Consecutive claims cover exactly the positions from `a` to `b`. -/
def Tiles : ℕ → List Claim → ℕ → Prop
  | a, [], b => a = b
  | a, c :: cs, b => c.start = index a ∧ 0 < c.count ∧ Tiles (a + c.count) cs b

namespace Tiles

variable {b a : ℕ} {cs : List Claim}

theorem le (h : Tiles a cs b) : a ≤ b := by
  induction cs generalizing a with
  | nil => exact Nat.le_of_eq h
  | cons c cs ih => exact (Nat.le_add_right _ _).trans (ih h.2.2)

theorem snoc {c : Claim} (h : Tiles a cs b)
    (hs : c.start = index b) (hc : 0 < c.count) : Tiles a (cs ++ [c]) (b + c.count) := by
  induction cs generalizing a with
  | nil =>
    obtain rfl : a = b := h
    exact ⟨hs, hc, rfl⟩
  | cons d ds ih => exact ⟨h.1, h.2.1, ih h.2.2⟩

theorem mem {c : Claim} (h : Tiles a cs b) (hc : c ∈ cs) :
    ∃ p, c.start = index p ∧ 0 < c.count ∧ a ≤ p ∧ p + c.count ≤ b := by
  induction cs generalizing a with
  | nil => cases hc
  | cons d ds ih =>
    rcases List.mem_cons.mp hc with rfl | hc
    · exact ⟨a, h.1, h.2.1, le_rfl, h.2.2.le⟩
    · obtain ⟨p, hp, hpos, hle, hend⟩ := ih h.2.2 hc
      exact ⟨p, hp, hpos, by omega, hend⟩

end Tiles

/-- The range a call of `steal_into` holds between its claim and its commit. -/
def Thief.claimed (th : Thief T) : Option (UInt32 × ℕ) :=
  match th.pc with
  | .copy start count _ | .commitLoad start count | .commit start count _ => some (start, count)
  | _ => none

/-- What a call of `steal_into` knows about its own locals: the destination has room for
everything it claims, and it has not failed. -/
def Thief.Ok (th : Thief T) : Prop :=
  match th.pc with
  | .loadHead | .loadTail _ _ | .measure _ _ _ => th.first = none
  | .claim _ _ count => th.first = none ∧ 0 < count ∧ count ≤ th.room
  | .copy _ count offset =>
      offset ≤ count ∧ (th.first = none ↔ offset = 0) ∧ count ≤ th.room + max offset 1
  | .commitLoad _ _ | .commit _ _ _ | .finished => True
  | .panicked => False

/-- The protocol between the head word, the claims and the calls of `steal_into`, given by
the function from a holder to its call. -/
structure Protocol (cap : Capacity) (q : Queue T) (calls : Option ℕ → Option (Thief T))
    (p : Positions) : Prop where
  head : q.head = pack (index p.steal) (index p.real)
  advanced : q.advanced = p.steal
  steal_le : p.steal ≤ p.tail
  span : p.tail ≤ p.real + cap.size
  tiles : Tiles p.real q.claims p.steal
  holders : (q.claims.map Claim.holder).Nodup
  claims_iff : ∀ h start count, ⟨h, start, count⟩ ∈ q.claims ↔
    ∃ th, calls h = some th ∧ th.claimed = some (start, count)
  ok : ∀ h th, calls h = some th → th.Ok
  written : ∀ pos < p.tail, (q.buffer (pos % cap.size)).isSome

section Stealing
variable {cap : Capacity} {q q' : Queue T} {calls : Option ℕ → Option (Thief T)} {p : Positions}
  {h : Option ℕ} {th th' : Thief T}

theorem Protocol.real_le (inv : Protocol cap q calls p) : p.real ≤ p.steal := inv.tiles.le

theorem Protocol.stealHead_eq (inv : Protocol cap q calls p) : q.stealHead = index p.steal := by
  simp [Queue.stealHead, inv.head]

theorem Protocol.realHead_eq (inv : Protocol cap q calls p) : q.realHead = index p.real := by
  simp [Queue.realHead, inv.head]

variable {count : ℕ} {start : UInt32}

/-- The range a call holds lies among the claimed positions. -/
theorem Protocol.claimed_bounds (inv : Protocol cap q calls p) (hc : calls h = some th)
    (hcl : th.claimed = some (start, count)) :
    ∃ pos, start = index pos ∧ 0 < count ∧ p.real ≤ pos ∧ pos + count ≤ p.steal :=
  inv.tiles.mem ((inv.claims_iff h start count).mpr ⟨th, hc, hcl⟩)

theorem Protocol.ok_update (inv : Protocol cap q calls p) (hok : th'.Ok) :
    ∀ h' t, update calls h (some th') h' = some t → t.Ok := by
  intro h' t ht
  by_cases e : h' = h
  · subst h'
    obtain rfl : th' = t := by simpa using ht
    exact hok
  · exact inv.ok h' t (by rwa [Function.update_of_ne e] at ht)

/-- The protocol depends on the calls only through the ranges they hold. -/
theorem Protocol.recall {calls' : Option ℕ → Option (Thief T)} (inv : Protocol cap q calls p)
    (hclaimed : ∀ h, (calls' h).bind Thief.claimed = (calls h).bind Thief.claimed)
    (hok : ∀ h th, calls' h = some th → th.Ok) : Protocol cap q calls' p where
  head := inv.head
  advanced := inv.advanced
  steal_le := inv.steal_le
  span := inv.span
  tiles := inv.tiles
  holders := inv.holders
  claims_iff := by
    intro h start count
    rw [inv.claims_iff, ← Option.bind_eq_some_iff, ← hclaimed, Option.bind_eq_some_iff]
  ok := hok
  written := inv.written

/-- The protocol does not look at the tail word nor at the items' history. -/
theorem Protocol.congr (inv : Protocol cap q calls p) (hhead : q'.head = q.head)
    (hadv : q'.advanced = q.advanced) (hclaims : q'.claims = q.claims)
    (hbuffer : q'.buffer = q.buffer) : Protocol cap q' calls p where
  head := hhead.trans inv.head
  advanced := hadv.trans inv.advanced
  steal_le := inv.steal_le
  span := inv.span
  tiles := hclaims ▸ inv.tiles
  holders := hclaims ▸ inv.holders
  claims_iff := hclaims ▸ inv.claims_iff
  ok := inv.ok
  written := hbuffer ▸ inv.written

theorem Protocol.quiet (inv : Protocol cap q calls p) (hc : calls h = some th)
    (hclaimed : th'.claimed = th.claimed) (hok : th'.Ok) :
    Protocol cap q (update calls h (some th')) p := by
  refine inv.recall (fun h' => ?_) (inv.ok_update hok)
  by_cases e : h' = h
  · subst h'
    simp [hc, hclaimed]
  · rw [Function.update_of_ne e]

/-- A successful claim appends the claimed range to the tiling. -/
theorem Protocol.claim (inv : Protocol cap q calls p) (hc : calls h = some th)
    (hnone : th.claimed = none) (hpos : 0 < count)
    (hfit : p.steal + count ≤ p.tail)
    (hhead : q'.head = pack (index (p.steal + count)) (index p.real))
    (hadv : q'.advanced = q.advanced + count)
    (hclaims : q'.claims = q.claims ++ [⟨h, index p.steal, count⟩])
    (hbuffer : q'.buffer = q.buffer) (hclaimed : th'.claimed = some (index p.steal, count))
    (hok : th'.Ok) :
    Protocol cap q' (update calls h (some th')) ⟨p.real, p.steal + count, p.tail⟩ where
  head := hhead
  advanced := by rw [hadv, inv.advanced]
  steal_le := hfit
  span := inv.span
  tiles := hclaims ▸ inv.tiles.snoc rfl hpos
  holders := by
    have hfresh : h ∉ q.claims.map Claim.holder := by
      intro hm
      obtain ⟨⟨h', start, n⟩, hmem, rfl⟩ := List.mem_map.mp hm
      obtain ⟨t, ht, hcl⟩ := (inv.claims_iff _ _ _).mp hmem
      obtain rfl : th = t := by simpa [hc] using ht
      simp [hnone] at hcl
    rw [hclaims, List.map_append]
    exact List.Nodup.append inv.holders (List.nodup_singleton h) (by simpa using hfresh)
  claims_iff := by
    intro h' start n
    rw [hclaims, List.mem_append, inv.claims_iff, List.mem_singleton]
    by_cases e : h' = h
    · subst h'
      simp [hc, hnone, hclaimed, eq_comm]
    · rw [Function.update_of_ne e]
      simp [e]
  ok := inv.ok_update hok
  written := hbuffer ▸ inv.written

/-- A claim whose start is `real_head` is the first of the tiling. -/
theorem Protocol.claims_eq_cons (inv : Protocol cap q calls p) {c : Claim}
    (hc : c ∈ q.claims) (hstart : c.start = index p.real) :
    ∃ cs, q.claims = c :: cs ∧ Tiles (p.real + c.count) cs p.steal := by
  have htiles := inv.tiles
  cases hcs : q.claims with
  | nil => simp [hcs] at hc
  | cons d ds =>
    rw [hcs] at hc htiles
    rcases List.mem_cons.mp hc with rfl | hc
    · exact ⟨ds, rfl, htiles.2.2⟩
    · obtain ⟨pos, hpos, hcount, hle, hend⟩ := htiles.2.2.mem hc
      have hsize := cap.size_lt
      have hspan := inv.span
      have hsteal := inv.steal_le
      have hd := htiles.2.1
      have := index_inj (by omega) (by omega) (hstart.symm.trans hpos)
      omega

/-- A successful commit removes the first claim of the tiling. -/
theorem Protocol.commit (inv : Protocol cap q calls p) (hc : calls h = some th)
    (hold : th.claimed = some (start, count))
    (hreal : start = index p.real)
    (hhead : q'.head = pack (index p.steal) (index (p.real + count)))
    (hadv : q'.advanced = q.advanced)
    (hclaims : q'.claims = q.claims.filter fun c => c.holder ≠ h)
    (hbuffer : q'.buffer = q.buffer) (hclaimed : th'.claimed = none) (hok : th'.Ok) :
    Protocol cap q' (update calls h (some th')) ⟨p.real + count, p.steal, p.tail⟩ := by
  have hmem : ⟨h, start, count⟩ ∈ q.claims := (inv.claims_iff _ _ _).mpr ⟨th, hc, hold⟩
  obtain ⟨cs, hcs, htiles⟩ := inv.claims_eq_cons hmem hreal
  have hnodup := inv.holders
  rw [hcs, List.map_cons, List.nodup_cons] at hnodup
  have hother : ∀ c ∈ cs, c.holder ≠ h := fun c hcm e =>
    hnodup.1 (List.mem_map.mpr ⟨c, hcm, e⟩)
  have hrest : q'.claims = cs := by
    rw [hclaims, hcs, List.filter_cons_of_neg (by simp), List.filter_eq_self]
    simpa using hother
  refine ⟨hhead, hadv.trans inv.advanced, inv.steal_le, ?_, hrest ▸ htiles, hrest ▸ hnodup.2,
    ?_, inv.ok_update hok, hbuffer ▸ inv.written⟩
  · have := inv.span
    simp only
    omega
  · intro h' start' n
    by_cases e : h' = h
    · subst h'
      have hnot : ⟨h, start', n⟩ ∉ cs := fun hm => hother _ hm rfl
      simp [hrest, hnot, hclaimed]
    · rw [hrest, Function.update_of_ne e, ← inv.claims_iff, hcs, List.mem_cons]
      simp [e]

/-- What one access of a thief keeps: the tail, the slots, the protocol, and the number of
times each item is on offer, reserved or copied out. -/
structure StealKeeps [DecidableEq T] (cap : Capacity) (calls : Option ℕ → Option (Thief T))
    (h : Option ℕ) (q : Queue T) (th : Thief T) (p : Positions)
    (q' : Queue T) (th' : Thief T) (p' : Positions) : Prop where
  tail : q'.tail = q.tail
  buffer : q'.buffer = q.buffer
  accepted : q'.accepted = q.accepted
  popped : q'.popped = q.popped
  position : p'.tail = p.tail
  real_le : p.real ≤ p'.real
  steal_le : p.steal ≤ p'.steal
  protocol : Protocol cap q' (update calls h (some th')) p'
  balance : ∀ x, q'.stolen.count x + th'.uncopied cap q'.buffer x +
      occurrences cap q'.buffer x (index p'.steal) (p'.tail - p'.steal) =
    q.stolen.count x + th.uncopied cap q.buffer x +
      occurrences cap q.buffer x (index p.steal) (p.tail - p.steal)

theorem uncopied_copy [DecidableEq T] (x : T) {offset : ℕ}
    (hpc : th.pc = .copy start count offset) :
    th.uncopied cap q.buffer x =
      occurrences cap q.buffer x (start + UInt32.ofNat offset) (count - offset) := by
  simp only [Thief.uncopied, hpc]

theorem uncopied_of_pc [DecidableEq T] (x : T) (hpc : ∀ start count offset,
    th.pc ≠ .copy start count offset) : th.uncopied cap q.buffer x = 0 := by
  unfold Thief.uncopied
  split
  · rename_i e
    exact absurd e (hpc _ _ _)
  · rfl

/-- An access that only moves the program counter of a call outside the copy loop. -/
theorem Protocol.keeps_quiet [DecidableEq T] (inv : Protocol cap q calls p)
    (hc : calls h = some th) {pc : StealPc}
    (hclaimed : ({ th with pc := pc } : Thief T).claimed = th.claimed)
    (hok : ({ th with pc := pc } : Thief T).Ok)
    (hcopy : ∀ x, ({ th with pc := pc } : Thief T).uncopied cap q.buffer x = th.uncopied cap q.buffer x) :
    StealKeeps cap calls h q th p q { th with pc := pc } p where
  tail := rfl
  buffer := rfl
  accepted := rfl
  popped := rfl
  position := rfl
  real_le := le_rfl
  steal_le := le_rfl
  protocol := inv.quiet hc hclaimed hok
  balance x := by rw [hcopy]

theorem stealCount_pos (available room : ℕ) : 0 < stealCount available room := by
  unfold stealCount
  omega

theorem stealCount_le_room {available room : ℕ} (h : room ≠ 0) :
    stealCount available room ≤ room := by
  unfold stealCount
  omega

theorem stealCount_le_available {available : ℕ} (room : ℕ) (h : available ≠ 0) :
    stealCount available room ≤ available := by
  unfold stealCount
  omega

theorem Protocol.keeps_claim [DecidableEq T] (inv : Protocol cap q calls p)
    (hc : calls h = some th) {seen : ℕ} (hpc : th.pc = .claim q.head seen count)
    (hfit : p.steal + count ≤ p.tail) :
    StealKeeps cap calls h q th p
      { q with
        head := pack (q.stealHead + UInt32.ofNat count) q.realHead
        claims := q.claims ++ [⟨h, q.stealHead, count⟩]
        advanced := q.advanced + count }
      { th with pc := .copy q.stealHead count 0 } ⟨p.real, p.steal + count, p.tail⟩ := by
  have hok := inv.ok h th hc
  simp only [Thief.Ok, hpc] at hok
  obtain ⟨hfirst, hpos, hroom⟩ := hok
  refine ⟨rfl, rfl, rfl, rfl, rfl, le_rfl, Nat.le_add_right _ _, ?_, ?_⟩
  · rw [inv.stealHead_eq, inv.realHead_eq]
    refine inv.claim hc (by simp [Thief.claimed, hpc]) hpos hfit ?_ rfl rfl rfl rfl ?_
    · exact congrArg (pack · _) (index_add p.steal count)
    · exact ⟨Nat.zero_le _, by simpa using hfirst, by simp only; omega⟩
  · intro x
    have hsplit := occurrences_add cap q.buffer x (index p.steal) count (p.tail - (p.steal + count))
    rw [show count + (p.tail - (p.steal + count)) = p.tail - p.steal by omega] at hsplit
    have hnone : th.uncopied cap q.buffer x = 0 := uncopied_of_pc x (by simp [hpc])
    rw [show index p.steal + UInt32.ofNat count = index (p.steal + count) from
      index_add p.steal count] at hsplit
    rw [uncopied_copy x rfl, hnone, hsplit, inv.stealHead_eq,
      show index p.steal + UInt32.ofNat 0 = index p.steal from index_add p.steal 0]
    simp only [Nat.sub_zero]
    omega

theorem Protocol.keeps_copy [DecidableEq T] (inv : Protocol cap q calls p)
    (hc : calls h = some th) {offset : ℕ}
    (hpc : th.pc = .copy start count offset) (hlt : offset < count) :
    ∃ value, readSlot cap q.buffer (start + UInt32.ofNat offset) = some value ∧
      StealKeeps cap calls h q th p { q with stolen := q.stolen ++ [value] }
        (th.take start count offset value) p := by
  have hclaimed : th.claimed = some (start, count) := by simp [Thief.claimed, hpc]
  obtain ⟨pos, rfl, -, hreal, hend⟩ := inv.claimed_bounds hc hclaimed
  have hok := inv.ok h th hc
  simp only [Thief.Ok, hpc] at hok
  obtain ⟨hle, hfirst, hroom⟩ := hok
  have hslot : index pos + UInt32.ofNat offset = index (pos + offset) := index_add pos offset
  have hwritten := inv.written (pos + offset) (by have := inv.steal_le; omega)
  rw [← cap.slot_index, ← hslot] at hwritten
  obtain ⟨value, hvalue⟩ := Option.isSome_iff_exists.mp hwritten
  have htake : (th.take (index pos) count offset value).pc = .copy (index pos) count (offset + 1) ∧
      (th.take (index pos) count offset value).Ok := by
    cases hf : th.first with
    | none =>
      have h0 : offset = 0 := hfirst.mp hf
      simp only [Thief.take, hf, Thief.Ok]
      refine ⟨trivial, by omega, by simp, ?_⟩
      omega
    | some v =>
      have h0 : offset ≠ 0 := fun e => by simp [hfirst.mpr e] at hf
      cases hr : th.room with
      | zero => omega
      | succ room =>
        simp only [Thief.take, hf, hr, Thief.Ok]
        refine ⟨trivial, by omega, by simp, ?_⟩
        omega
  refine ⟨value, hvalue, rfl, rfl, rfl, rfl, rfl, le_rfl, le_rfl, ?_, ?_⟩
  · refine (inv.quiet hc ?_ htake.2).congr rfl rfl rfl rfl
    simp [Thief.claimed, htake.1, hpc]
  · intro x
    have hsplit := occurrences_add cap q.buffer x (index pos + UInt32.ofNat offset) 1
      (count - (offset + 1))
    rw [show 1 + (count - (offset + 1)) = count - offset by omega, occurrences_one,
      UInt32.add_assoc, ← UInt32.ofNat_add] at hsplit
    have hv : readSlot cap q.buffer (index pos + UInt32.ofNat offset) = some value := hvalue
    rw [uncopied_copy x htake.1, uncopied_copy x hpc, hsplit, hv]
    simp only [List.count_append, List.count_singleton, Option.some.injEq, beq_iff_eq]
    omega

theorem Protocol.keeps_commit [DecidableEq T] (inv : Protocol cap q calls p)
    (hc : calls h = some th) {stealHead : UInt32}
    (hpc : th.pc = .commit start count stealHead) (hhead : q.head = pack stealHead start) :
    StealKeeps cap calls h q th p
      { q with
        head := pack stealHead (start + UInt32.ofNat count)
        claims := q.claims.filter fun c => c.holder ≠ h }
      { th with pc := .finished } ⟨p.real + count, p.steal, p.tail⟩ := by
  obtain ⟨rfl, rfl⟩ : stealHead = index p.steal ∧ start = index p.real := by
    obtain ⟨e, e'⟩ := pack_inj.mp (hhead.symm.trans inv.head)
    exact ⟨e, e'⟩
  refine ⟨rfl, rfl, rfl, rfl, rfl, Nat.le_add_right _ _, le_rfl, ?_, ?_⟩
  · refine inv.commit hc (by simp only [Thief.claimed, hpc]) rfl ?_ rfl rfl rfl rfl trivial
    exact congrArg (pack _) (index_add p.real count)
  · intro x
    rw [uncopied_of_pc x (by simp), uncopied_of_pc x (by simp [hpc])]

/-- Every access of `steal_into` keeps the protocol and the balance, provided that a claim
it makes ends at or before the tail. -/
theorem Protocol.stealStep [DecidableEq T] (inv : Protocol cap q calls p)
    (hc : calls h = some th)
    (fits : ∀ c ∈ th.pendingClaim, q.head = c.1 → p.steal + c.2.2 ≤ p.tail)
    (hs : LocalQueue.stealStep cap h q th = some (q', th')) :
    ∃ p', StealKeeps cap calls h q th p q' th' p' := by
  have hok := inv.ok h th hc
  obtain ⟨pc, room, first, dst⟩ := th
  unfold LocalQueue.stealStep at hs
  cases pc with
  | loadHead | loadTail snapshot seen =>
    cases hs
    exact ⟨p, inv.keeps_quiet hc rfl hok fun _ => rfl⟩
  | measure snapshot seen tail =>
    dsimp only at hs
    split_ifs at hs with hnone hroom <;> cases hs
    · exact ⟨p, inv.keeps_quiet hc rfl trivial fun _ => rfl⟩
    · exact ⟨p, inv.keeps_quiet hc rfl trivial fun _ => rfl⟩
    · exact ⟨p, inv.keeps_quiet hc rfl ⟨hok, stealCount_pos _ _, stealCount_le_room hroom⟩
        fun _ => rfl⟩
  | claim snapshot seen count =>
    dsimp only at hs
    split_ifs at hs with hhead <;> cases hs
    · subst hhead
      exact ⟨_, inv.keeps_claim hc rfl (fits (q.head, seen, count) rfl rfl)⟩
    · exact ⟨p, inv.keeps_quiet hc rfl hok.1 fun _ => rfl⟩
  | copy start count offset =>
    dsimp only at hs
    split_ifs at hs with hlt
    · obtain ⟨value, hvalue, hkeeps⟩ := inv.keeps_copy hc rfl hlt
      simp only [hvalue] at hs
      cases hs
      exact ⟨p, hkeeps⟩
    · cases hs
      refine ⟨p, inv.keeps_quiet hc rfl trivial fun x => ?_⟩
      rw [uncopied_of_pc x (by simp), uncopied_copy x rfl, Nat.sub_eq_zero_of_le (by omega),
        occurrences_zero]
  | commitLoad start count =>
    obtain ⟨pos, rfl, hpos, hreal, hend⟩ := inv.claimed_bounds hc rfl
    have hne : (unpack q.head).2 ≠ index pos + UInt32.ofNat count := by
      intro e
      rw [inv.head, unpack_pack, show index pos + UInt32.ofNat count = index (pos + count) from
        index_add pos count] at e
      have hsize := cap.size_lt
      have hspan := inv.span
      have hsteal := inv.steal_le
      have := index_inj (by omega) (by omega) e
      omega
    simp only [if_neg hne] at hs
    cases hs
    exact ⟨p, inv.keeps_quiet hc rfl trivial fun _ => rfl⟩
  | commit start count stealHead =>
    dsimp only at hs
    split_ifs at hs with hhead <;> cases hs
    · exact ⟨_, inv.keeps_commit hc rfl hhead⟩
    · exact ⟨p, inv.keeps_quiet hc rfl trivial fun _ => rfl⟩
  | finished => cases hs
  | panicked => exact hok.elim

end Stealing

def OwnerPc.staged : OwnerPc T → Option (Thief T)
  | .spilling _ th => some th
  | _ => none

/-- The calls of `steal_into` in progress: the owner's own and those of the thieves. -/
def State.calls (s : State T) : Option ℕ → Option (Thief T)
  | none => s.owner.staged
  | some i => s.thieves[i]?

/-- The tail does not move while the owner itself runs `steal_into`, so its claim fits. -/
def StagingOk (p : Positions) (th : Thief T) : Prop :=
  match th.pc with
  | .loadTail snapshot _ =>
      ∃ pos real, snapshot = pack (index pos) real ∧ pos ≤ p.steal ∧ p.tail - pos < 4294967296
  | .measure snapshot _ tail =>
      ∃ pos real, snapshot = pack (index pos) real ∧ pos ≤ p.steal ∧ p.tail - pos < 4294967296 ∧
        tail = index p.tail
  | .claim snapshot _ count =>
      ∃ pos real, snapshot = pack (index pos) real ∧ pos ≤ p.steal ∧ p.tail - pos < 4294967296 ∧
        pos + count ≤ p.tail
  | _ => True

/-- What the owner knows between two accesses of its current operation. -/
def OwnerOk (cap : Capacity) (q : Queue T) (p : Positions) : OwnerPc T → Prop
  | .idle | .pushTail _ _ | .popTail => q.tail = index p.tail
  | .pushHead _ _ tail | .popHead tail => q.tail = index p.tail ∧ tail = index p.tail
  | .pushWrite _ _ tail =>
      q.tail = index p.tail ∧ tail = index p.tail ∧ p.tail < p.real + cap.size
  | .pushStore value _ tail =>
      q.tail = index p.tail ∧ tail = index p.tail ∧ p.tail < p.real + cap.size ∧
        readSlot cap q.buffer tail = some value
  | .spilling _ th => q.tail = index p.tail ∧ StagingOk p th
  | .popWithdraw tail => q.tail = index p.tail ∧ tail = index p.tail ∧ 0 < p.tail
  | .popSnapshot tail | .popRestore tail =>
      q.tail = index (p.tail - 1) ∧ tail = index p.tail ∧ 0 < p.tail
  | .popClaim tail snapshot =>
      q.tail = index (p.tail - 1) ∧ tail = index p.tail ∧ 0 < p.tail ∧
        snapshot = pack (index (p.tail - 1)) (index (p.tail - 1))
  | .popKeep tail =>
      q.tail = index (p.tail - 1) ∧ tail = index p.tail ∧ 0 < p.tail ∧ p.steal = p.tail
  | .popRead i => q.tail = index p.tail ∧ (readSlot cap q.buffer i).isSome
  | .panicked => False

/-- The invariant of the local queue at the positions `p`. -/
structure Inv [DecidableEq T] (cap : Capacity) (s : State T) (p : Positions) : Prop where
  protocol : Protocol cap s.queue s.calls p
  owner : OwnerOk cap s.queue p s.owner
  accounted : ∀ x, s.queue.popped.count x + s.queue.stolen.count x +
      (occurrences cap s.queue.buffer x (index p.steal) (p.tail - p.steal) +
        total (Thief.uncopied cap s.queue.buffer x) s.thieves +
        s.owner.unread cap s.queue.buffer x) = s.queue.accepted.count x

/-- The owner is inside `pop`. -/
def OwnerPc.popping : OwnerPc T → Bool
  | .popTail | .popHead _ | .popWithdraw _ | .popSnapshot _ | .popRestore _ | .popClaim _ _
  | .popKeep _ | .popRead _ => true
  | _ => false

/-- After a step from `s`, the invariant holds of `t` at positions that have not moved back.
Only `pop` lowers the tail. -/
def Advances [DecidableEq T] (cap : Capacity) (s t : State T) (p : Positions) : Prop :=
  ∃ p', Inv cap t p' ∧ p.steal ≤ p'.steal ∧ (s.owner.popping = false → p.tail ≤ p'.tail)

section Owner
variable [DecidableEq T] {cap : Capacity} {s t : State T} {p : Positions}

theorem Inv.stays (inv : Inv cap t p) : Advances cap s t p :=
  ⟨p, inv, le_rfl, fun _ => le_rfl⟩

theorem Inv.liveTail_eq (inv : Inv cap s p) : s.liveTail = index p.tail := by
  have ho := inv.owner
  unfold State.liveTail
  cases hs : s.owner <;> simp only [hs, OwnerOk] at ho ⊢ <;> first | exact ho | exact ho.1 | exact ho.2.1

theorem Inv.offered_eq (inv : Inv cap s p) : s.offered cap = p.tail - p.steal := by
  have hspan := inv.protocol.span
  have hreal := inv.protocol.real_le
  have hsize := cap.size_lt
  have hd := sub_toNat inv.protocol.steal_le (by omega)
  rw [State.offered, inv.liveTail_eq, inv.protocol.stealHead_eq, hd, if_pos (by omega)]

theorem Inv.live_eq (inv : Inv cap s p) (x : T) :
    s.queue.popped.count x + s.queue.stolen.count x + s.live cap x = s.queue.accepted.count x := by
  rw [State.live, inv.offered_eq, inv.protocol.stealHead_eq]
  exact inv.accounted x

theorem inv_init : Inv cap (State.init : State T) ⟨0, 0, 0⟩ where
  protocol :=
    { head := rfl, advanced := rfl, steal_le := le_rfl, span := Nat.zero_le _, tiles := rfl
      holders := List.nodup_nil
      claims_iff := by
        intro h start count
        cases h <;> simp [State.init, Queue.new, State.calls, OwnerPc.staged]
      ok := by
        intro h th
        cases h <;> simp [State.init, State.calls, OwnerPc.staged]
      written := by simp }
  owner := rfl
  accounted := by simp [State.init, Queue.new, OwnerPc.unread]

variable {value : T} {tail : UInt32} {i : ℕ} {o : OwnerPc T} {p' : Positions}

theorem OwnerOk.of_keeps {calls : Option ℕ → Option (Thief T)} {h : Option ℕ}
    {q q' : Queue T} {th th' : Thief T}
    (ho : OwnerOk cap q p o) (keeps : StealKeeps cap calls h q th p q' th' p') :
    OwnerOk cap q' p' o := by
  have hreal := keeps.real_le
  have hsteal := keeps.steal_le
  have hle := keeps.protocol.steal_le
  have htail := keeps.position
  cases o <;> simp only [OwnerOk, keeps.tail, keeps.buffer, htail] at ho ⊢
  case pushWrite => exact ⟨ho.1, ho.2.1, by omega⟩
  case pushStore => exact ⟨ho.1, ho.2.1, by omega, ho.2.2.2⟩
  case popKeep => exact ⟨ho.1, ho.2.1, ho.2.2.1, by omega⟩
  case spilling v st =>
    refine ⟨ho.1, ?_⟩
    have hst := ho.2
    cases hpc : st.pc <;> simp only [StagingOk, hpc, htail] at hst ⊢
    all_goals
      obtain ⟨pos, real, hsnap, hpos, hrest⟩ := hst
      exact ⟨pos, real, hsnap, by omega, hrest⟩
  all_goals exact ho

omit [DecidableEq T] in
theorem calls_set {th : Thief T} (hi : s.thieves[i]? = some th) (q' : Queue T)
    (th' : Thief T) :
    State.calls { s with queue := q', thieves := s.thieves.set i th' } =
      update s.calls (some i) (some th') := by
  have hlt := (List.getElem?_eq_some_iff.mp hi).1
  funext h
  cases h with
  | none => rfl
  | some j =>
    by_cases e : j = i
    · subst j
      simp [State.calls, hlt]
    · simp [State.calls, e, Ne.symm e]

theorem Inv.thief (inv : Inv cap s p) (hfit : ClaimFits cap s (.thief i))
    (hs : step cap s (.thief i) = some t) : Advances cap s t p := by
  obtain ⟨th, hi, hs⟩ := Option.bind_eq_some_iff.mp hs
  obtain ⟨⟨q', th'⟩, hsteal, rfl⟩ := Option.map_eq_some_iff.mp hs
  have fits : ∀ c ∈ th.pendingClaim, s.queue.head = c.1 → p.steal + c.2.2 ≤ p.tail := by
    intro c hc hhead
    have hle := hfit c (by simpa [State.pendingClaim, hi] using hc) hhead
    rw [inv.offered_eq] at hle
    have := inv.protocol.steal_le
    omega
  obtain ⟨p', keeps⟩ := inv.protocol.stealStep (show s.calls (some i) = some th from hi) fits hsteal
  refine ⟨p', ⟨?_, inv.owner.of_keeps keeps, ?_⟩, keeps.steal_le, fun _ => keeps.position.ge⟩
  · rw [calls_set hi]
    exact keeps.protocol
  · intro x
    have hbal := keeps.balance x
    have hacc := inv.accounted x
    have hset := total_set (Thief.uncopied cap s.queue.buffer x) hi th'
    simp only [keeps.buffer, keeps.accepted, keeps.popped] at hbal ⊢
    omega

/-- A claim of the owner's own `steal_into` always fits. -/
theorem Inv.staging_fits (inv : Inv cap s p) {th : Thief T}
    (ho : s.owner = .spilling value th) :
    ∀ c ∈ th.pendingClaim, s.queue.head = c.1 → p.steal + c.2.2 ≤ p.tail := by
  intro c hc hhead
  have hown := inv.owner
  simp only [ho, OwnerOk] at hown
  cases hpc : th.pc <;> simp only [Thief.pendingClaim, hpc, Option.mem_def, reduceCtorEq] at hc
  case claim snapshot seen count =>
    cases hc
    simp only [StagingOk, hpc] at hown
    obtain ⟨-, pos, real, rfl, hpos, hspan, hend⟩ := hown
    have hle := inv.protocol.steal_le
    rw [inv.protocol.head] at hhead
    obtain rfl := index_inj hpos (by omega) (pack_inj.mp hhead).1.symm
    exact hend

/-- The owner's own `steal_into` goes on knowing that the tail does not move. -/
theorem Inv.staging_ok (inv : Inv cap s p) {th th' : Thief T} {q' : Queue T}
    (ho : s.owner = .spilling value th)
    (hs : stealStep cap none s.queue th = some (q', th')) (htail : p'.tail = p.tail)
    (hsteal : p.steal ≤ p'.steal) : StagingOk p' th' := by
  have hown := inv.owner
  simp only [ho, OwnerOk] at hown
  obtain ⟨hword, hst⟩ := hown
  have hle := inv.protocol.steal_le
  have hspan := inv.protocol.span
  have hreal := inv.protocol.real_le
  have hsize := cap.size_lt
  obtain ⟨pc, room, first, dst⟩ := th
  unfold stealStep at hs
  cases pc with
  | loadHead =>
    cases hs
    exact ⟨p.steal, index p.real, inv.protocol.head, hsteal, by omega⟩
  | loadTail snapshot seen =>
    cases hs
    obtain ⟨pos, real, rfl, hpos, hlt⟩ := hst
    exact ⟨pos, real, rfl, by omega, by omega, by rw [htail]; exact hword⟩
  | measure snapshot seen tail =>
    obtain ⟨pos, real, rfl, hpos, hlt, rfl⟩ := hst
    simp only [unpack_pack] at hs
    split_ifs at hs with hnone hroom <;> cases hs
    · trivial
    · trivial
    · have hcount := stealCount_le_available room (not_or.mp hnone).1
      rw [sub_toNat (by omega) (by omega)] at hcount
      exact ⟨pos, real, rfl, by omega, by omega, by rw [sub_toNat (by omega) (by omega)]; omega⟩
  | copy start count offset =>
    dsimp only at hs
    split_ifs at hs
    · split at hs <;> cases hs
      · trivial
      · unfold Thief.take
        split <;> trivial
    · cases hs
      trivial
  | claim | commitLoad | commit =>
    dsimp only at hs
    split_ifs at hs <;> cases hs <;> trivial
  | finished | panicked => cases hs

omit [DecidableEq T] in
theorem calls_spilling (value : T) (q' : Queue T) (th' : Thief T) :
    State.calls { s with queue := q', owner := .spilling value th' } =
      update s.calls none (some th') := by
  funext h
  cases h with
  | none => simp [State.calls, OwnerPc.staged]
  | some j => simp [State.calls]

theorem Inv.spill (inv : Inv cap s p) {th th' : Thief T} {q' : Queue T}
    (ho : s.owner = .spilling value th) (hs : stealStep cap none s.queue th = some (q', th')) :
    Advances cap s { s with queue := q', owner := .spilling value th' } p := by
  have hcall : s.calls none = some th := by simp [State.calls, ho, OwnerPc.staged]
  obtain ⟨p', keeps⟩ := inv.protocol.stealStep hcall (inv.staging_fits ho) hs
  have hown := inv.owner
  simp only [ho, OwnerOk] at hown
  refine ⟨p', ⟨?_, ⟨?_, inv.staging_ok ho hs keeps.position keeps.steal_le⟩, ?_⟩,
    keeps.steal_le, fun _ => keeps.position.ge⟩
  · rw [calls_spilling]
    exact keeps.protocol
  · rw [keeps.tail, keeps.position]
    exact hown.1
  · intro x
    have hbal := keeps.balance x
    have hacc := inv.accounted x
    simp only [ho, OwnerPc.unread, keeps.buffer, keeps.accepted, keeps.popped] at hbal hacc ⊢
    omega

/-- An access of the owner outside its own `steal_into` leaves the calls as they are. -/
theorem Inv.next (inv : Inv cap s p) (hthieves : t.thieves = s.thieves)
    (hstaged : t.owner.staged = s.owner.staged) (protocol : Protocol cap t.queue s.calls p')
    (owner : OwnerOk cap t.queue p' t.owner)
    (balance : ∀ x, t.queue.popped.count x +
        (occurrences cap t.queue.buffer x (index p'.steal) (p'.tail - p'.steal) +
          total (Thief.uncopied cap t.queue.buffer x) s.thieves +
          t.owner.unread cap t.queue.buffer x) + s.queue.accepted.count x =
      s.queue.popped.count x +
        (occurrences cap s.queue.buffer x (index p.steal) (p.tail - p.steal) +
          total (Thief.uncopied cap s.queue.buffer x) s.thieves +
          s.owner.unread cap s.queue.buffer x) + t.queue.accepted.count x)
    (hstolen : t.queue.stolen = s.queue.stolen) : Inv cap t p' where
  protocol := by
    have hcalls : t.calls = s.calls := by
      funext h
      cases h with
      | none => exact hstaged
      | some i => simp only [State.calls, hthieves]
    rw [hcalls]
    exact protocol
  owner := owner
  accounted x := by
    have hb := balance x
    have hacc := inv.accounted x
    rw [hstolen, hthieves]
    omega

/-- The owner moves on, outside `push_overflow`, and stores at most the tail word. -/
theorem Inv.reown (inv : Inv cap s p) {w : UInt32}
    (hstaged : o.staged = s.owner.staged)
    (hunread : ∀ x, o.unread cap s.queue.buffer x = s.owner.unread cap s.queue.buffer x)
    (hok : OwnerOk cap { s.queue with tail := w } p o) :
    Inv cap { s with queue := { s.queue with tail := w }, owner := o } p :=
  inv.next rfl hstaged (inv.protocol.congr rfl rfl rfl rfl) hok (fun x => by rw [hunread]) rfl

omit [DecidableEq T] in
/-- The slot `push_back` writes is none of those in use. -/
theorem slot_ne_tail (hroom : p.tail < p.real + cap.size) {pos : ℕ}
    (hlo : p.real ≤ pos) (hhi : pos < p.tail) : cap.slot (index pos) ≠ cap.slot (index p.tail) := by
  rw [cap.slot_index, cap.slot_index]
  exact cap.slot_ne hhi (by omega)

theorem Inv.pushWrite (inv : Inv cap s p) {spill : Bool}
    (ho : s.owner = .pushWrite value spill tail) :
    Inv cap { s with
      queue := { s.queue with
        buffer := update s.queue.buffer (cap.slot tail) (some value) }
      owner := .pushStore value spill tail } p := by
  have hown := inv.owner
  simp only [ho, OwnerOk] at hown
  obtain ⟨hword, rfl, hroom⟩ := hown
  have hread : ∀ pos, p.real ≤ pos → pos < p.tail →
      readSlot cap (update s.queue.buffer (cap.slot (index p.tail)) (some value)) (index pos) =
        readSlot cap s.queue.buffer (index pos) := fun pos hlo hhi =>
    Function.update_of_ne (slot_ne_tail hroom hlo hhi) _ _
  have hreal := inv.protocol.real_le
  have hsteal := inv.protocol.steal_le
  refine inv.next rfl (by rw [ho]; rfl) ?_ ⟨hword, rfl, hroom, Function.update_self _ _ _⟩ ?_ rfl
  · refine ⟨inv.protocol.head, inv.protocol.advanced, hsteal, inv.protocol.span,
      inv.protocol.tiles, inv.protocol.holders, inv.protocol.claims_iff, inv.protocol.ok, ?_⟩
    intro pos hpos
    change (update s.queue.buffer (cap.slot (index p.tail)) (some value)
      (pos % cap.size)).isSome
    by_cases e : pos % cap.size = cap.slot (index p.tail)
    · simp [e]
    · rw [Function.update_of_ne e]
      exact inv.protocol.written pos hpos
  · intro x
    have hoffer : occurrences cap
        (update s.queue.buffer (cap.slot (index p.tail)) (some value)) x (index p.steal)
          (p.tail - p.steal) =
        occurrences cap s.queue.buffer x (index p.steal) (p.tail - p.steal) := by
      refine occurrences_congr cap _ x fun j hj => ?_
      rw [show index p.steal + UInt32.ofNat j = index (p.steal + j) from index_add _ _]
      exact hread _ (by omega) (by omega)
    have hreserved : ∀ th ∈ s.thieves, Thief.uncopied cap
        (update s.queue.buffer (cap.slot (index p.tail)) (some value)) x th =
          th.uncopied cap s.queue.buffer x := by
      intro th hth
      obtain ⟨i, hi⟩ := List.mem_iff_getElem?.mp hth
      cases hpc : th.pc <;> simp only [Thief.uncopied, hpc]
      case copy start count offset =>
        obtain ⟨pos, rfl, -, hlo, hhi⟩ := inv.protocol.claimed_bounds
          (show s.calls (some i) = some th from hi)
          (show th.claimed = some (start, count) by simp [Thief.claimed, hpc])
        refine occurrences_congr cap _ x fun j hj => ?_
        rw [show index pos + UInt32.ofNat offset = index (pos + offset) from index_add _ _,
          show index (pos + offset) + UInt32.ofNat j = index (pos + offset + j) from index_add _ _]
        exact hread _ (by omega) (by omega)
    simp only [ho, OwnerPc.unread]
    rw [hoffer, total, List.map_congr_left hreserved]
    rfl

theorem Inv.pushStore (inv : Inv cap s p) {spill : Bool}
    (ho : s.owner = .pushStore value spill tail) :
    Inv cap { s with
      queue := { s.queue with tail := tail + 1, accepted := s.queue.accepted ++ [value] }
      owner := .idle } ⟨p.real, p.steal, p.tail + 1⟩ := by
  have hown := inv.owner
  simp only [ho, OwnerOk] at hown
  obtain ⟨hword, rfl, hroom, hslot⟩ := hown
  have hsteal := inv.protocol.steal_le
  refine inv.next rfl (by rw [ho]; rfl) ?_ (index_add_one p.tail) ?_ rfl
  · refine ⟨inv.protocol.head, inv.protocol.advanced, by simp only; omega, by simp only; omega,
      inv.protocol.tiles, inv.protocol.holders, inv.protocol.claims_iff, inv.protocol.ok, ?_⟩
    intro pos hpos
    rcases Nat.lt_succ_iff_lt_or_eq.mp hpos with hlt | rfl
    · exact inv.protocol.written pos hlt
    · rw [readSlot, cap.slot_index] at hslot
      simp [hslot]
  · intro x
    have hsplit := occurrences_add cap s.queue.buffer x (index p.steal) (p.tail - p.steal) 1
    rw [show index p.steal + UInt32.ofNat (p.tail - p.steal) = index (p.steal + (p.tail - p.steal))
      from index_add _ _, Nat.add_sub_cancel' hsteal, occurrences_one, hslot,
      show p.tail - p.steal + 1 = p.tail + 1 - p.steal by omega] at hsplit
    simp only [ho, OwnerPc.unread, hsplit, List.count_append, List.count_singleton,
      Option.some.injEq, beq_iff_eq]
    omega

/-- `pop` takes the item below the tail without a compare-and-swap when it is not the last. -/
theorem Inv.popTake (inv : Inv cap s p) (ho : s.owner = .popSnapshot tail)
    (hmore : p.steal + 2 ≤ p.tail) :
    Inv cap { s with owner := .popRead (tail - 1) } ⟨p.real, p.steal, p.tail - 1⟩ := by
  have hown := inv.owner
  simp only [ho, OwnerOk] at hown
  obtain ⟨hword, rfl, hpos⟩ := hown
  have hspan := inv.protocol.span
  have hwritten := inv.protocol.written (p.tail - 1) (by omega)
  refine inv.next rfl (by rw [ho]; rfl) ?_ ⟨hword, ?_⟩ ?_ rfl
  · exact ⟨inv.protocol.head, inv.protocol.advanced, by simp only; omega, by simp only; omega,
      inv.protocol.tiles, inv.protocol.holders, inv.protocol.claims_iff, inv.protocol.ok,
      fun pos hlt => inv.protocol.written pos (by simp only at hlt; omega)⟩
  · rw [index_sub_one hpos, readSlot, cap.slot_index]
    exact hwritten
  · intro x
    have hsplit := occurrences_add cap s.queue.buffer x (index p.steal) (p.tail - 1 - p.steal) 1
    rw [show index p.steal + UInt32.ofNat (p.tail - 1 - p.steal) =
      index (p.steal + (p.tail - 1 - p.steal)) from index_add _ _,
      show p.steal + (p.tail - 1 - p.steal) = p.tail - 1 by omega,
      show p.tail - 1 - p.steal + 1 = p.tail - p.steal by omega] at hsplit
    simp only [ho, OwnerPc.unread, index_sub_one hpos, hsplit]
    omega

/-- `pop` claims the last item through the head word. -/
theorem Inv.popClaim (inv : Inv cap s p) {snapshot : UInt64}
    (ho : s.owner = .popClaim tail snapshot) (hhead : s.queue.head = snapshot) :
    Inv cap { s with
      queue := { s.queue with
        head := pack ((unpack snapshot).1 + 1) ((unpack snapshot).2 + 1)
        advanced := s.queue.advanced + 1 }
      owner := .popKeep tail } ⟨p.tail, p.tail, p.tail⟩ := by
  have hown := inv.owner
  simp only [ho, OwnerOk] at hown
  obtain ⟨hword, rfl, hpos, rfl⟩ := hown
  have hspan := inv.protocol.span
  have hsteal := inv.protocol.steal_le
  have hreal := inv.protocol.real_le
  have hsize := cap.size_lt
  obtain ⟨e, e'⟩ := pack_inj.mp (inv.protocol.head.symm.trans hhead)
  rw [index_eq_iff_mod] at e e'
  have hs1 : p.steal = p.tail - 1 := by omega
  have hr1 : p.real = p.tail - 1 := by omega
  have hclaims : s.queue.claims = [] := by
    have htiles := inv.protocol.tiles
    cases hcs : s.queue.claims with
    | nil => rfl
    | cons c cs =>
      rw [hcs] at htiles
      have := htiles.2.2.le
      have := htiles.2.1
      omega
  have hnext : index (p.tail - 1) + 1 = index p.tail := by
    rw [index_add_one, Nat.sub_add_cancel hpos]
  refine inv.next rfl (by rw [ho]; rfl) ?_ ⟨hword, rfl, hpos, rfl⟩ ?_ rfl
  · refine ⟨?_, ?_, le_rfl, Nat.le_add_right _ _, ?_, inv.protocol.holders,
      inv.protocol.claims_iff, inv.protocol.ok, inv.protocol.written⟩
    · simp only [unpack_pack, hnext]
    · have := inv.protocol.advanced
      simp only
      omega
    · rw [hclaims]
      rfl
  · intro x
    simp only [ho, OwnerPc.unread, hs1, index_sub_one hpos, Nat.sub_self, occurrences_zero,
      show p.tail - (p.tail - 1) = 1 by omega]
    omega

/-- `push_overflow` starts or leaves its own `steal_into` without a claim in hand. -/
theorem Inv.restage (inv : Inv cap s p) {overflow : List T}
    (hold : s.owner.staged.bind Thief.claimed = none) (hnew : o.staged.bind Thief.claimed = none)
    (hstaging : ∀ th ∈ o.staged, th.Ok)
    (hunread : ∀ x, o.unread cap s.queue.buffer x = s.owner.unread cap s.queue.buffer x)
    (hok : OwnerOk cap s.queue p o) :
    Inv cap { s with owner := o, overflow := overflow } p where
  protocol := by
    refine inv.protocol.recall (fun h => ?_) fun h th hc => ?_
    · cases h with
      | none => exact hnew.trans hold.symm
      | some i => rfl
    · cases h with
      | none => exact hstaging th hc
      | some i => exact inv.protocol.ok (some i) th hc
  owner := hok
  accounted x := by
    simp only [hunread]
    exact inv.accounted x

theorem Inv.popRead (inv : Inv cap s p) {i : UInt32} (ho : s.owner = .popRead i)
    (hv : readSlot cap s.queue.buffer i = some value) :
    Inv cap { s with
      queue := { s.queue with popped := s.queue.popped ++ [value] }, owner := .idle } p := by
  have hown := inv.owner
  simp only [ho, OwnerOk] at hown
  refine inv.next rfl (by rw [ho]; rfl) (inv.protocol.congr rfl rfl rfl rfl) hown.1 ?_ rfl
  intro x
  simp only [ho, OwnerPc.unread, occurrences_one, hv, List.count_append, List.count_singleton,
    Option.some.injEq, beq_iff_eq]
  omega

/-- Every access of the owner keeps the invariant. -/
theorem Inv.ownerStep (inv : Inv cap s p) (hs : LocalQueue.ownerStep cap s = some t) :
    Advances cap s t p := by
  have hown := inv.owner
  have hspan := inv.protocol.span
  have hsteal := inv.protocol.steal_le
  have hreal := inv.protocol.real_le
  have hsize := cap.size_lt
  obtain ⟨queue, owner, thieves, overflow⟩ := s
  unfold LocalQueue.ownerStep at hs
  cases owner with
  | idle => cases hs
  | panicked => exact hown.elim
  | pushTail value spill | popTail =>
    cases hs
    exact Inv.stays (inv.reown rfl (fun _ => rfl) ⟨hown, hown⟩)
  | pushHead value spill tail =>
    obtain ⟨hword, rfl⟩ := hown
    simp only [inv.protocol.realHead_eq] at hs
    rw [sub_toNat (by omega) (by omega)] at hs
    split_ifs at hs with hfull hspill <;> cases hs
    · exact Inv.stays (inv.restage rfl rfl (by simp [OwnerPc.staged, staging, Thief.start, Thief.Ok])
        (fun _ => rfl) ⟨hword, trivial⟩)
    · exact Inv.stays (inv.reown rfl (fun _ => rfl) hword)
    · exact Inv.stays (inv.reown rfl (fun _ => rfl) ⟨hword, rfl, by omega⟩)
  | pushWrite value spill tail =>
    cases hs
    exact Inv.stays (inv.pushWrite rfl)
  | pushStore value spill tail =>
    cases hs
    exact ⟨_, inv.pushStore rfl, le_rfl, fun _ => Nat.le_succ _⟩
  | spilling value th =>
    dsimp only at hs
    split at hs
    · rename_i hpc
      cases hs
      exact Inv.stays (inv.restage (by simp [OwnerPc.staged, Thief.claimed, hpc]) rfl
        (by simp [OwnerPc.staged]) (fun x => by simp [OwnerPc.unread, Thief.uncopied, hpc])
        hown.1)
    · rename_i hpc
      have := inv.protocol.ok none th rfl
      simp [Thief.Ok, hpc] at this
    · obtain ⟨⟨q', th'⟩, hsteal, rfl⟩ := Option.map_eq_some_iff.mp hs
      exact inv.spill rfl hsteal
  | popHead tail =>
    obtain ⟨hword, rfl⟩ := hown
    simp only [inv.protocol.stealHead_eq] at hs
    split_ifs at hs with hempty <;> cases hs
    · exact Inv.stays (inv.reown rfl (fun _ => rfl) hword)
    · have hne : p.tail ≠ p.steal := fun e => hempty (by rw [e])
      exact Inv.stays (inv.reown rfl (fun _ => rfl) ⟨hword, rfl, by omega⟩)
  | popWithdraw tail =>
    obtain ⟨hword, rfl, hpos⟩ := hown
    cases hs
    exact Inv.stays (inv.reown rfl (fun _ => rfl) ⟨index_sub_one hpos, rfl, hpos⟩)
  | popSnapshot tail =>
    obtain ⟨hword, rfl, hpos⟩ := hown
    simp only [inv.protocol.stealHead_eq, inv.protocol.realHead_eq,
      sub_toNat hsteal (by omega)] at hs
    split_ifs at hs with hgone hlast <;> cases hs
    · exact Inv.stays (inv.reown rfl (fun _ => rfl) ⟨hword, rfl, hpos⟩)
    · have heq := index_inj hreal (by omega) (not_not.mp (not_or.mp hgone).2)
      refine Inv.stays (inv.reown rfl (fun _ => rfl) ⟨hword, rfl, hpos, ?_⟩)
      rw [inv.protocol.head, show p.real = p.tail - 1 by omega, show p.steal = p.tail - 1 by omega]
    · exact ⟨_, inv.popTake rfl (by omega), le_rfl, by simp [OwnerPc.popping]⟩
  | popRestore tail =>
    cases hs
    exact Inv.stays (inv.reown rfl (fun _ => rfl) hown.2.1)
  | popClaim tail snapshot =>
    dsimp only at hs
    split_ifs at hs with hhead <;> cases hs
    · exact ⟨_, inv.popClaim rfl hhead, hsteal, fun _ => le_rfl⟩
    · exact Inv.stays (inv.reown rfl (fun _ => rfl) ⟨hown.1, hown.2.1, hown.2.2.1⟩)
  | popKeep tail =>
    obtain ⟨hword, rfl, hpos, -⟩ := hown
    cases hs
    refine Inv.stays (inv.reown rfl (fun _ => rfl) ⟨rfl, ?_⟩)
    rw [index_sub_one hpos, readSlot, cap.slot_index]
    exact inv.protocol.written _ (by omega)
  | popRead i =>
    obtain ⟨value, hv⟩ := Option.isSome_iff_exists.mp hown.2
    simp only [hv] at hs
    cases hs
    exact Inv.stays (inv.popRead rfl hv)

/-- A new thief holds nothing yet. -/
theorem Inv.steal (inv : Inv cap s p) (room : ℕ) :
    Inv cap { s with thieves := s.thieves ++ [Thief.start room] } p where
  protocol := by
    refine inv.protocol.recall (fun h => ?_) fun h th hc => ?_
    · cases h with
      | none => rfl
      | some i =>
        simp only [State.calls, List.getElem?_append]
        split_ifs with hi
        · rfl
        · rw [List.getElem?_eq_none (by omega : s.thieves.length ≤ i)]
          cases i - s.thieves.length <;> simp [Thief.start, Thief.claimed]
    · cases h with
      | none => exact inv.protocol.ok none th hc
      | some i =>
        simp only [State.calls, List.getElem?_append] at hc
        split_ifs at hc with hi
        · exact inv.protocol.ok (some i) th hc
        · obtain rfl : th = Thief.start room := by
            simpa using List.mem_of_getElem? hc
          simp [Thief.start, Thief.Ok]
  owner := inv.owner
  accounted x := by
    have hacc := inv.accounted x
    have hnew : Thief.uncopied cap s.queue.buffer x (Thief.start room) = 0 :=
      uncopied_of_pc x (by simp [Thief.start])
    simp only [total_append, total_cons, total_nil, hnew]
    omega

/-- A thief that keeps its claim, or keeps having none, may move on without the queue. -/
theorem Inv.setThief (inv : Inv cap s p) {th th' : Thief T}
    (hi : s.thieves[i]? = some th) (hclaimed : th'.claimed = th.claimed)
    (huncopied : ∀ x, th'.uncopied cap s.queue.buffer x = th.uncopied cap s.queue.buffer x)
    (hok : th'.Ok) : Inv cap { s with thieves := s.thieves.set i th' } p where
  protocol := by
    have hcalls := calls_set hi s.queue th'
    rw [hcalls]
    exact inv.protocol.quiet hi hclaimed hok
  owner := inv.owner
  accounted x := by
    have hacc := inv.accounted x
    have hset := total_set (Thief.uncopied cap s.queue.buffer x) hi th'
    have hsame := huncopied x
    simp only
    omega

/-- More room in its destination does not disturb a thief. -/
theorem Inv.drain (inv : Inv cap s p) {freed : ℕ} {th : Thief T}
    (hi : s.thieves[i]? = some th) :
    Inv cap { s with thieves := s.thieves.set i { th with room := th.room + freed } } p := by
  have hok := inv.protocol.ok (some i) th hi
  refine inv.setThief hi rfl (fun _ => rfl) ?_
  cases hpc : th.pc <;> simp only [Thief.Ok, hpc] at hok ⊢
  case claim => exact ⟨hok.1, hok.2.1, by omega⟩
  case copy => exact ⟨hok.1, hok.2.1, by omega⟩
  all_goals exact hok

/-- Every step keeps the invariant, provided that a claim it makes fits. -/
theorem Inv.step (inv : Inv cap s p) {a : Action T} (hfit : ClaimFits cap s a)
    (hs : LocalQueue.step cap s a = some t) : Advances cap s t p := by
  cases a with
  | push value | pushOverflow value | pop =>
    obtain ⟨queue, owner, thieves, overflow⟩ := s
    cases owner with
    | idle =>
      cases hs
      exact Inv.stays (inv.reown rfl (fun _ => rfl) inv.owner)
    | _ => cases hs
  | owner => exact inv.ownerStep hs
  | steal room =>
    cases hs
    exact Inv.stays (inv.steal room)
  | thief i => exact inv.thief hfit hs
  | drain i freed =>
    obtain ⟨th, hi, rfl⟩ := Option.map_eq_some_iff.mp hs
    exact Inv.stays (inv.drain hi)

end Owner

end Eddy.LocalQueue
