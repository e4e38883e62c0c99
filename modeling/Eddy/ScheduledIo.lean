import Eddy.WordDigits

/-!
# The word of a registered descriptor

`ScheduledIo::packed` of `io/driver.rs`. The readiness bits are bits 17 to 32 of the word, the
shutdown flag is bit 16, and the generation is shifted to bit 33, which leaves room for 31 of its
32 bits.
-/

namespace Eddy.ScheduledIo

structure Interest where
  bits : UInt16
  deriving DecidableEq

namespace Interest

def READABLE : Interest := ⟨0b0001⟩
def WRITABLE : Interest := ⟨0b0010⟩
def EDGE_TRIGGERED : Interest := ⟨0b0100⟩

def isReadable (i : Interest) : Bool := i.bits &&& READABLE.bits != 0
def isWritable (i : Interest) : Bool := i.bits &&& WRITABLE.bits != 0
def isEdgeTriggered (i : Interest) : Bool := i.bits &&& EDGE_TRIGGERED.bits != 0

end Interest

structure Ready where
  bits : UInt16
  deriving DecidableEq

namespace Ready

def READABLE : Ready := ⟨0b0000_0001⟩
def WRITABLE : Ready := ⟨0b0000_0010⟩
def READ_CLOSED : Ready := ⟨0b0000_0100⟩
def WRITE_CLOSED : Ready := ⟨0b0000_1000⟩
def ERROR : Ready := ⟨0b0001_0000⟩

def union (a b : Ready) : Ready := ⟨a.bits ||| b.bits⟩

def isReadable (r : Ready) : Bool :=
  r.bits &&& (READABLE.bits ||| READ_CLOSED.bits ||| ERROR.bits) != 0

def isWritable (r : Ready) : Bool :=
  r.bits &&& (WRITABLE.bits ||| WRITE_CLOSED.bits ||| ERROR.bits) != 0

end Ready

def interestSatisfied (interest : Interest) (ready : Ready) : Bool :=
  match interest.isReadable, interest.isWritable with
  | true, false => ready.isReadable
  | false, true => ready.isWritable
  | true, true => ready.isReadable || ready.isWritable
  | false, false => false

def SHUTDOWN_BIT : UInt64 := (1 : UInt64) <<< 16
def READY_MASK : UInt64 := (0xFFFF : UInt64) <<< 17

/-- `packed` of `ScheduledIo::new`. -/
def new (generation : UInt32) : UInt64 := generation.toUInt64 <<< 33

def generation (packed : UInt64) : UInt32 := (packed >>> 33).toUInt32

def ready (packed : UInt64) : Ready := ⟨((packed &&& READY_MASK) >>> 17).toUInt16⟩

/-- The store of `set_readiness_and_wake`. -/
def setReadiness (packed : UInt64) (report : Ready) : UInt64 :=
  (packed &&& ~~~READY_MASK) ||| (((ready packed).bits ||| report.bits).toUInt64 <<< 17)

/-- The value that `clear_ready` tries to swap in, unless it returns. -/
def clearReady (packed : UInt64) (gen : UInt32) (seen : Ready) : Option UInt64 :=
  if generation packed ≠ gen then none
  else if ready packed ≠ seen then none
  else some (packed &&& ~~~(seen.bits.toUInt64 <<< 17))

/-- The event of `readiness`, if the interest is satisfied. -/
def readiness (packed : UInt64) (interest : Interest) : Option (UInt32 × Ready) :=
  if packed &&& SHUTDOWN_BIT ≠ 0 then
    some (generation packed, (Ready.READ_CLOSED.union Ready.WRITE_CLOSED).union Ready.ERROR)
  else if interestSatisfied interest (ready packed) then
    some (generation packed, ready packed)
  else none

theorem getLsbD_READY_MASK (i : ℕ) :
    READY_MASK.toBitVec.getLsbD i = decide (17 ≤ i ∧ i < 33) := by
  by_cases hi : i < 64
  · have : ∀ i < 64, READY_MASK.toBitVec.getLsbD i = decide (17 ≤ i ∧ i < 33) := by decide
    exact this i hi
  · rw [BitVec.getLsbD_of_ge _ _ (by omega)]
    simp
    omega

theorem getLsbD_ready (packed : UInt64) {i : ℕ} (hi : i < 16) :
    (ready packed).bits.toBitVec.getLsbD i = packed.toBitVec.getLsbD (17 + i) := by
  simp [ready, getLsbD_READY_MASK, hi]
  omega

theorem getLsbD_generation (packed : UInt64) {i : ℕ} (hi : i < 32) :
    (generation packed).toBitVec.getLsbD i = packed.toBitVec.getLsbD (33 + i) := by
  simp [generation, hi]

theorem getLsbD_shifted (bits : UInt16) {i : ℕ} (hi : i < 64) :
    (bits.toUInt64 <<< 17).toBitVec.getLsbD i =
      (decide (17 ≤ i) && bits.toBitVec.getLsbD (i - 17)) := by
  have hshift : (bits.toUInt64 <<< 17).toBitVec = (bits.toBitVec.setWidth 64) <<< 17 := by
    simp
  rw [hshift, BitVec.getLsbD_shiftLeft, BitVec.getLsbD_setWidth]
  by_cases hlow : i < 17
  · simp [hlow]
  · have h64 : i - 17 < 64 := by omega
    simp [hi, hlow, h64]
    omega

theorem getLsbD_setReadiness (packed : UInt64) (report : Ready) {i : ℕ} (hi : i < 64) :
    (setReadiness packed report).toBitVec.getLsbD i =
      (packed.toBitVec.getLsbD i ||
        decide (17 ≤ i ∧ i < 33) && report.bits.toBitVec.getLsbD (i - 17)) := by
  have hready := getLsbD_ready packed (i := i - 17)
  rw [setReadiness, UInt64.toBitVec_or, UInt64.toBitVec_and, UInt64.toBitVec_not,
    BitVec.getLsbD_or, BitVec.getLsbD_and, BitVec.getLsbD_not, getLsbD_READY_MASK,
    getLsbD_shifted _ hi, UInt16.toBitVec_or, BitVec.getLsbD_or]
  by_cases hfield : 17 ≤ i ∧ i < 33
  · rw [hready (by omega), show 17 + (i - 17) = i by omega]
    simp [hfield]
  · by_cases hlow : 17 ≤ i
    · have hbits (bits : UInt16) : bits.toBitVec.getLsbD (i - 17) = false :=
        BitVec.getLsbD_of_ge _ _ (by omega)
      simp [hbits, hfield, hi]
    · simp [hi, hlow]

/-- When the readiness is the one seen, `clear_ready` clears all of it and nothing else. -/
theorem getLsbD_clearReady {packed new : UInt64} {gen : UInt32} {seen : Ready}
    (h : clearReady packed gen seen = some new) {i : ℕ} (hi : i < 64) :
    new.toBitVec.getLsbD i = (packed.toBitVec.getLsbD i && !decide (17 ≤ i ∧ i < 33)) := by
  unfold clearReady at h
  split_ifs at h with hgen hseen
  obtain rfl := Option.some.inj h
  rw [not_not] at hseen
  rw [UInt64.toBitVec_and, UInt64.toBitVec_not, BitVec.getLsbD_and, BitVec.getLsbD_not,
    getLsbD_shifted _ hi, ← hseen]
  by_cases hfield : 17 ≤ i ∧ i < 33
  · rw [getLsbD_ready packed (by omega), show 17 + (i - 17) = i by omega]
    cases packed.toBitVec.getLsbD i <;> simp [hfield]
  · by_cases hlow : 17 ≤ i
    · have hbits : (ready packed).bits.toBitVec.getLsbD (i - 17) = false :=
        BitVec.getLsbD_of_ge _ _ (by omega)
      simp [hbits, hfield, hi]
    · simp [hi, hlow]

theorem generation_congr {a b : UInt64}
    (h : ∀ i, 33 ≤ i → i < 64 → a.toBitVec.getLsbD i = b.toBitVec.getLsbD i) :
    generation a = generation b := by
  rw [← UInt32.toBitVec_inj]
  apply BitVec.eq_of_getLsbD_eq
  intro i hi
  rw [getLsbD_generation a hi, getLsbD_generation b hi]
  by_cases hlt : 33 + i < 64
  · exact h _ (by omega) hlt
  · rw [BitVec.getLsbD_of_ge _ _ (by omega), BitVec.getLsbD_of_ge _ _ (by omega)]

@[simp] theorem generation_setReadiness (packed : UInt64) (report : Ready) :
    generation (setReadiness packed report) = generation packed := by
  apply generation_congr
  intro i hlow hi
  have : ¬ (17 ≤ i ∧ i < 33) := by omega
  simp [getLsbD_setReadiness packed report hi, this]

theorem generation_clearReady {packed new : UInt64} {gen : UInt32} {seen : Ready}
    (h : clearReady packed gen seen = some new) : generation new = generation packed := by
  apply generation_congr
  intro i hlow hi
  have : ¬ (17 ≤ i ∧ i < 33) := by omega
  simp [getLsbD_clearReady h hi, this]

@[simp] theorem ready_setReadiness (packed : UInt64) (report : Ready) :
    ready (setReadiness packed report) = (ready packed).union report := by
  rw [Ready.mk.injEq, ← UInt16.toBitVec_inj]
  apply BitVec.eq_of_getLsbD_eq
  intro i hi
  rw [getLsbD_ready _ hi, getLsbD_setReadiness packed report (by omega), Ready.union,
    UInt16.toBitVec_or, BitVec.getLsbD_or, getLsbD_ready packed hi, Nat.add_sub_cancel_left]
  have hfield : 17 ≤ 17 + i ∧ 17 + i < 33 := by omega
  simp only [hfield, and_self, decide_true, Bool.true_and]

/-- The generation keeps its low 31 bits. -/
theorem generation_new (gen : UInt32) : (generation (new gen)).toNat = gen.toNat % 2147483648 := by
  have hlt := gen.toNat_lt
  have hshift : (gen.toUInt64 <<< 33).toNat = gen.toNat * 8589934592 % 18446744073709551616 := by
    rw [UInt64.toNat_shiftLeft, UInt32.toNat_toUInt64, Nat.shiftLeft_eq]
    rfl
  have hback : (gen.toUInt64 <<< 33 >>> 33).toNat = gen.toNat % 2147483648 := by
    rw [UInt64.toNat_shiftRight, hshift, Nat.shiftRight_eq_div_pow]
    have hpow : 2 ^ ((33 : UInt64).toNat % 64) = 8589934592 := by decide
    rw [hpow]
    omega
  rw [generation, new, UInt64.toNat_toUInt32, hback]
  omega

/-- It is the whole generation exactly if the highest bit is not set. -/
theorem generation_new_eq_iff (gen : UInt32) : generation (new gen) = gen ↔ gen < 2147483648 := by
  rw [← UInt32.toNat_inj, generation_new, UInt32.lt_iff_toNat_lt]
  have : (2147483648 : UInt32).toNat = 2147483648 := rfl
  have := gen.toNat_lt
  omega

/-- The readiness and the shutdown flag of a new word are not touched by its generation. -/
theorem new_and_fields (gen : UInt32) : new gen &&& (READY_MASK ||| SHUTDOWN_BIT) = 0 := by
  rw [← UInt64.toBitVec_inj]
  apply BitVec.eq_of_getLsbD_eq
  intro i hi
  have hnew : (new gen).toBitVec = (gen.toBitVec.setWidth 64) <<< 33 := by simp [new]
  have hfields : ∀ i < 64, 33 ≤ i →
      (READY_MASK ||| SHUTDOWN_BIT).toBitVec.getLsbD i = false := by decide
  rw [UInt64.toBitVec_and, BitVec.getLsbD_and, hnew, BitVec.getLsbD_shiftLeft]
  by_cases hlow : i < 33
  · simp [hlow]
  · rw [hfields i hi (by omega), Bool.and_false]
    simp

theorem ready_clearReady {packed new : UInt64} {gen : UInt32} {seen : Ready}
    (h : clearReady packed gen seen = some new) : ready new = ⟨0⟩ := by
  rw [Ready.mk.injEq, ← UInt16.toBitVec_inj]
  apply BitVec.eq_of_getLsbD_eq
  intro i hi
  have hfield : 17 ≤ 17 + i ∧ 17 + i < 33 := by omega
  rw [getLsbD_ready _ hi, getLsbD_clearReady h (by omega)]
  simp [hfield]

theorem and_SHUTDOWN_BIT_congr {a b : UInt64}
    (h : a.toBitVec.getLsbD 16 = b.toBitVec.getLsbD 16) :
    a &&& SHUTDOWN_BIT = b &&& SHUTDOWN_BIT := by
  have hbit : ∀ i < 64, SHUTDOWN_BIT.toBitVec.getLsbD i = decide (i = 16) := by decide
  rw [← UInt64.toBitVec_inj]
  apply BitVec.eq_of_getLsbD_eq
  intro i hi
  rw [UInt64.toBitVec_and, UInt64.toBitVec_and, BitVec.getLsbD_and, BitVec.getLsbD_and, hbit i hi]
  by_cases h16 : i = 16
  · rw [h16, h]
  · simp [h16]

theorem setReadiness_and_SHUTDOWN_BIT (packed : UInt64) (report : Ready) :
    setReadiness packed report &&& SHUTDOWN_BIT = packed &&& SHUTDOWN_BIT := by
  apply and_SHUTDOWN_BIT_congr
  rw [getLsbD_setReadiness _ _ (by omega)]
  simp

theorem clearReady_and_SHUTDOWN_BIT {packed new : UInt64} {gen : UInt32} {seen : Ready}
    (h : clearReady packed gen seen = some new) :
    new &&& SHUTDOWN_BIT = packed &&& SHUTDOWN_BIT := by
  apply and_SHUTDOWN_BIT_congr
  rw [getLsbD_clearReady h (by omega)]
  simp

theorem new_and_SHUTDOWN_BIT (gen : UInt32) : new gen &&& SHUTDOWN_BIT = 0 := by
  have hfields : (READY_MASK ||| SHUTDOWN_BIT) &&& SHUTDOWN_BIT = SHUTDOWN_BIT := by decide
  rw [← hfields, ← UInt64.and_assoc, new_and_fields, UInt64.zero_and]

end Eddy.ScheduledIo
