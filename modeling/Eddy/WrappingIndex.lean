import Mathlib.Data.Nat.ModEq
import Mathlib.Data.Nat.Bitwise

/-!
# Wrapping 32-bit indices into a ring

A position of an unbounded sequence is stored as a 32-bit index, and its slot in a ring of `2 ^ k`
cells is the index masked with `2 ^ k - 1`. While the positions in use span less than `2 ^ 32`, the
wrapping difference of two indices is the distance of their positions; while they span less than the
ring, different positions have different slots.
-/

namespace Eddy.WrappingIndex

def index (p : ℕ) : UInt32 := UInt32.ofNat p

theorem index_toNat (p : ℕ) : (index p).toNat = p % 4294967296 := rfl

theorem index_eq_iff_mod {p q : ℕ} : index p = index q ↔ p % 4294967296 = q % 4294967296 := by
  rw [← UInt32.toNat_inj, index_toNat, index_toNat]

/-- Two positions less than `2 ^ 32` apart have the same index only when they are equal. -/
theorem index_inj {p q : ℕ} (hpq : p ≤ q) (hspan : q - p < 4294967296) (h : index p = index q) :
    p = q := by
  rw [index_eq_iff_mod] at h
  omega

theorem index_add (p n : ℕ) : index p + index n = index (p + n) := by
  rw [← UInt32.toNat_inj, UInt32.toNat_add]
  simp only [index_toNat]
  omega

theorem index_add_one (p : ℕ) : index p + 1 = index (p + 1) := index_add p 1

theorem index_sub_one {p : ℕ} (h : 0 < p) : index p - 1 = index (p - 1) := by
  have : p = (p - 1) + 1 := by omega
  rw [this, ← index_add_one, UInt32.add_sub_cancel, Nat.add_sub_cancel]

theorem sub_toNat_mod {p q : ℕ} (h : p ≤ q) :
    (index q - index p).toNat = (q - p) % 4294967296 := by
  rw [UInt32.toNat_sub]
  simp only [index_toNat]
  omega

/-- The wrapping difference of two indices is the distance of their positions. -/
theorem sub_toNat {p q : ℕ} (h : p ≤ q) (hspan : q - p < 4294967296) :
    (index q - index p).toNat = q - p := by
  rw [sub_toNat_mod h, Nat.mod_eq_of_lt hspan]

/-- A ring size that the mask `size - 1` can address: a power of two that fits 32 bits. -/
structure Capacity where
  log : ℕ
  log_lt : log < 32

namespace Capacity

/-- The number of slots. -/
def size (cap : Capacity) : ℕ := 2 ^ cap.log

variable (cap : Capacity)

theorem size_pos : 0 < cap.size := Nat.two_pow_pos _

theorem size_lt : cap.size < 4294967296 := Nat.pow_lt_pow_right (by omega) cap.log_lt

theorem size_dvd : cap.size ∣ 4294967296 :=
  pow_dvd_pow 2 (show cap.log ≤ 32 from cap.log_lt.le)

/-- The slot of an index: the index masked with `size - 1`. -/
def slot (i : UInt32) : ℕ := (i &&& (UInt32.ofNat cap.size - 1)).toNat

theorem slot_eq_mod (i : UInt32) : cap.slot i = i.toNat % cap.size := by
  have hmask : (UInt32.ofNat cap.size - 1).toNat = cap.size - 1 := by
    have hs := cap.size_lt
    have hp := cap.size_pos
    rw [UInt32.toNat_sub_of_le]
    · simp [Nat.mod_eq_of_lt hs]
    · rw [UInt32.le_iff_toNat_le]
      simp only [UInt32.toNat_ofNat', UInt32.toNat_one]
      omega
  rw [slot, UInt32.toNat_and, hmask, size, Nat.and_two_pow_sub_one_eq_mod]

@[simp] theorem slot_index (p : ℕ) : cap.slot (index p) = p % cap.size := by
  rw [slot_eq_mod, index_toNat, Nat.mod_mod_of_dvd p cap.size_dvd]

/-- Different positions that span less than the ring have different slots. -/
theorem slot_ne {p q : ℕ} (hpq : p < q) (hspan : q - p < cap.size) :
    p % cap.size ≠ q % cap.size := by
  intro h
  have hd : cap.size ∣ q - p := (Nat.modEq_iff_dvd' hpq.le).mp h
  exact absurd (Nat.le_of_dvd (by omega) hd) (by omega)

end Capacity

end Eddy.WrappingIndex
