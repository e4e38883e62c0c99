import Mathlib.Data.Nat.Bitwise

/-!
# A word of flags with a counter above them

A 64-bit word whose low 16 bits are flags and whose high 48 bits count. Setting and
clearing flags with masks and counting with additions of `2 ^ 16` do not disturb each
other, as long as the count stays in range.
-/

namespace Eddy.PackedWord

/-- The mask of flag `k`. -/
def mask (k : Fin 16) : UInt64 := UInt64.ofNat (2 ^ (k : ℕ))

def flag (k : Fin 16) (w : UInt64) : Bool := w &&& mask k != 0

/-- The unit of the counter. -/
def one : UInt64 := 65536

def count (w : UInt64) : ℕ := ((w &&& ~~~(one - 1)) >>> 16).toNat

theorem mask_toNat (k : Fin 16) : (mask k).toNat = 2 ^ (k : ℕ) := by
  have hk : 2 ^ (k : ℕ) < 2 ^ 64 := Nat.pow_lt_pow_right (by omega) (by omega)
  rw [mask, UInt64.toNat_ofNat', Nat.mod_eq_of_lt hk]

theorem flag_eq_testBit (k : Fin 16) (w : UInt64) : flag k w = w.toNat.testBit k := by
  have hand : (w &&& mask k).toNat = w.toNat &&& 2 ^ (k : ℕ) := by
    rw [UInt64.toNat_and, mask_toNat]
  cases hb : w.toNat.testBit k with
  | false =>
    have hz : w.toNat &&& 2 ^ (k : ℕ) = 0 := by rw [Nat.and_two_pow, hb]; simp
    have : w &&& mask k = 0 := by
      rw [← UInt64.toNat_inj, hand, hz]
      rfl
    simp [flag, this]
  | true =>
    have hz : w.toNat &&& 2 ^ (k : ℕ) = 2 ^ (k : ℕ) := by rw [Nat.and_two_pow, hb]; simp
    have : w &&& mask k ≠ 0 := by
      intro h
      have hnat := congrArg UInt64.toNat h
      rw [hand, hz] at hnat
      exact absurd hnat (Nat.two_pow_pos _).ne'
    simp [flag, this]

theorem count_eq_div (w : UInt64) : count w = w.toNat / 65536 := by
  have hw := w.toNat_lt
  have hmask : (~~~(one - 1)).toNat = 2 ^ 64 - 2 ^ 16 := by decide
  have hand : (w.toNat &&& (2 ^ 64 - 2 ^ 16)) / 65536 = w.toNat / 65536 := by
    apply Nat.eq_of_testBit_eq
    intro i
    have hdiv : ∀ n, n / 65536 = n >>> 16 := fun n => by rw [Nat.shiftRight_eq_div_pow]
    have hones : (2 ^ 64 - 2 ^ 16) >>> 16 = 2 ^ 48 - 1 := by decide
    rw [hdiv, hdiv, Nat.shiftRight_and_distrib, hones, Nat.and_two_pow_sub_one_eq_mod,
      Nat.mod_eq_of_lt]
    rw [Nat.shiftRight_eq_div_pow]
    omega
  rw [count, UInt64.toNat_shiftRight, UInt64.toNat_and, hmask]
  rw [← hand, Nat.shiftRight_eq_div_pow]
  rfl

section Flags
variable (j k : Fin 16) (w : UInt64)

@[simp] theorem flag_or_self : flag k (w ||| mask k) = true := by
  rw [flag_eq_testBit, UInt64.toNat_or, mask_toNat]
  simp

theorem flag_or_ne (h : j ≠ k) : flag j (w ||| mask k) = flag j w := by
  have hne : (k : ℕ) ≠ j := fun e => h (Fin.ext e.symm)
  rw [flag_eq_testBit, flag_eq_testBit, UInt64.toNat_or, mask_toNat, Nat.testBit_or,
    Nat.testBit_two_pow_of_ne hne, Bool.or_false]

theorem toNat_not_mask : (~~~(mask k)).toNat = 2 ^ 64 - 1 - 2 ^ (k : ℕ) := by
  rw [UInt64.toNat_not, mask_toNat]
  rfl

theorem testBit_not_mask {i : ℕ} (hi : i < 64) :
    (~~~(mask k)).toNat.testBit i = decide (i ≠ k) := by
  have hk : 2 ^ (k : ℕ) < 2 ^ 64 := Nat.pow_lt_pow_right (by omega) (by omega)
  rw [toNat_not_mask, show 2 ^ 64 - 1 - 2 ^ (k : ℕ) = 2 ^ 64 - (2 ^ (k : ℕ) + 1) by omega,
    Nat.testBit_two_pow_sub_succ hk, Nat.testBit_two_pow]
  simp [hi, eq_comm]

@[simp] theorem flag_and_not_self : flag k (w &&& ~~~(mask k)) = false := by
  rw [flag_eq_testBit, UInt64.toNat_and, Nat.testBit_and, testBit_not_mask k (by omega)]
  simp

theorem flag_and_not_ne (h : j ≠ k) : flag j (w &&& ~~~(mask k)) = flag j w := by
  have hne : (j : ℕ) ≠ k := fun e => h (Fin.ext e)
  rw [flag_eq_testBit, flag_eq_testBit, UInt64.toNat_and, Nat.testBit_and,
    testBit_not_mask k (by omega)]
  simp [hne]

@[simp] theorem count_or : count (w ||| mask k) = count w := by
  have hk : 2 ^ (k : ℕ) >>> 16 = 0 := by
    rw [Nat.shiftRight_eq_div_pow]
    exact Nat.div_eq_of_lt (Nat.pow_lt_pow_right (by omega) k.isLt)
  rw [count_eq_div, count_eq_div, UInt64.toNat_or, mask_toNat,
    show ∀ n, n / 65536 = n >>> 16 from fun n => by rw [Nat.shiftRight_eq_div_pow],
    Nat.shiftRight_or_distrib, hk, Nat.or_zero, Nat.shiftRight_eq_div_pow]

@[simp] theorem count_and_not : count (w &&& ~~~(mask k)) = count w := by
  have hw := w.toNat_lt
  rw [count_eq_div, count_eq_div, UInt64.toNat_and]
  apply Nat.eq_of_testBit_eq
  intro i
  have hdiv : ∀ n, n / 65536 = n >>> 16 := fun n => by rw [Nat.shiftRight_eq_div_pow]
  rw [hdiv, hdiv, Nat.testBit_shiftRight, Nat.testBit_shiftRight, Nat.testBit_and]
  by_cases hi : 16 + i < 64
  · have hne : 16 + i ≠ (k : ℕ) := by omega
    rw [testBit_not_mask k hi]
    simp [hne]
  · have hbig : w.toNat < 2 ^ (16 + i) :=
      hw.trans_le (Nat.pow_le_pow_right (by omega) (by omega))
    rw [Nat.testBit_lt_two_pow hbig]
    simp

end Flags

section Counting
variable (k : Fin 16) {w : UInt64}

theorem flag_congr_mod {v w : UInt64} (h : v.toNat % 65536 = w.toNat % 65536) :
    flag k v = flag k w := by
  have hbit : ∀ u : UInt64, u.toNat.testBit k = (u.toNat % 2 ^ 16).testBit k := fun u => by
    rw [Nat.testBit_mod_two_pow]
    simp
  rw [flag_eq_testBit, flag_eq_testBit, hbit v, hbit w]
  exact congrArg (Nat.testBit · k) h

theorem add_one_toNat (h : count w < 2 ^ 48 - 1) : (w + one).toNat = w.toNat + 65536 := by
  rw [count_eq_div] at h
  rw [UInt64.toNat_add, show one.toNat = 65536 from rfl]
  omega

theorem sub_one_toNat (h : 0 < count w) : (w - one).toNat = w.toNat - 65536 := by
  rw [count_eq_div] at h
  rw [UInt64.toNat_sub_of_le]
  · rfl
  · rw [UInt64.le_iff_toNat_le, show one.toNat = 65536 from rfl]
    omega

theorem count_add_one (h : count w < 2 ^ 48 - 1) : count (w + one) = count w + 1 := by
  rw [count_eq_div, count_eq_div, add_one_toNat h]
  omega

theorem count_sub_one (h : 0 < count w) : count (w - one) = count w - 1 := by
  have h' := h
  rw [count_eq_div] at h'
  rw [count_eq_div, count_eq_div, sub_one_toNat h]
  omega

theorem flag_add_one (h : count w < 2 ^ 48 - 1) : flag k (w + one) = flag k w := by
  apply flag_congr_mod
  rw [add_one_toNat h]
  omega

theorem flag_sub_one (h : 0 < count w) : flag k (w - one) = flag k w := by
  have h' := h
  rw [count_eq_div] at h'
  apply flag_congr_mod
  rw [sub_one_toNat h]
  omega

end Counting

end Eddy.PackedWord
