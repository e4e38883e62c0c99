import Mathlib.Data.Nat.Bitwise

/-!
# Digits of words

Two numbers agree above a bit exactly if their exclusive or is below that bit, so the
position of the highest differing bit says down to which digit they agree. Counting zeros
from either end of a word finds its highest and its lowest set bit.
-/

namespace Eddy.WordDigits

theorem xor_lt_two_pow_iff {x y n : ℕ} : x ^^^ y < 2 ^ n ↔ x / 2 ^ n = y / 2 ^ n := by
  rw [← Nat.div_eq_zero_iff_lt (Nat.two_pow_pos n), Nat.xor_div_two_pow, Nat.xor_eq_zero_iff]

/-- What lies between two numbers with the same quotient has that quotient. -/
theorem div_eq_of_between {a x b n : ℕ} (h : b / n = a / n) (hax : a ≤ x) (hxb : x ≤ b) :
    x / n = a / n :=
  le_antisymm (h ▸ Nat.div_le_div_right hxb) (Nat.div_le_div_right hax)

section
variable {w : ℕ} {x : BitVec w}

/-- The highest set bit of a word that is not zero. -/
theorem clz_bounds (hw : 0 < w) (hx : x ≠ 0#w) :
    2 ^ (w - 1 - x.clz.toNat) ≤ x.toNat ∧ x.toNat < 2 ^ (w - 1 - x.clz.toNat + 1) := by
  refine ⟨BitVec.two_pow_sub_clz_le_toNat_of_ne_zero hw hx, ?_⟩
  refine lt_of_lt_of_le BitVec.toNat_lt_two_pow_sub_clz ?_
  exact Nat.pow_le_pow_right (by decide) (by omega)

/-- No set bit is below the trailing zeros. -/
theorem ctz_le {i : ℕ} (h : x.getLsbD i = true) : x.ctz.toNat ≤ i := by
  by_contra hlt
  rw [BitVec.getLsbD_false_of_lt_ctz (by omega)] at h
  cases h

theorem exists_getLsbD (hx : x ≠ 0#w) : ∃ i < w, x.getLsbD i = true := by
  have hbit := BitVec.getLsbD_true_ctz_of_ne_zero hx
  exact ⟨_, BitVec.lt_of_getLsbD hbit, hbit⟩

theorem eq_zero_iff_getLsbD : x = 0#w ↔ ∀ i < w, x.getLsbD i = false := by
  constructor
  · rintro rfl i -
    simp
  · intro h
    exact BitVec.eq_of_getLsbD_eq fun i hi => by simp [h i hi]

end

section
variable {w i j : ℕ} {x : BitVec w}

theorem getLsbD_one_shiftLeft (hi : i < w) : (1#w <<< j).getLsbD i = decide (i = j) := by
  rw [BitVec.getLsbD_shiftLeft]
  by_cases hij : i = j
  · subst hij
    simp [hi]
    omega
  · by_cases hlt : i < j
    · simp [hlt, hij]
    · have : i - j ≠ 0 := by omega
      simp [hij, this]

theorem getLsbD_or_bit (hi : i < w) :
    (x ||| (1#w <<< j)).getLsbD i = (x.getLsbD i || decide (i = j)) := by
  rw [BitVec.getLsbD_or, getLsbD_one_shiftLeft hi]

theorem getLsbD_and_not_bit (hi : i < w) :
    (x &&& ~~~(1#w <<< j)).getLsbD i = (x.getLsbD i && !decide (i = j)) := by
  rw [BitVec.getLsbD_and, BitVec.getLsbD_not, getLsbD_one_shiftLeft hi]
  simp [hi]

theorem and_bit_ne_zero (hj : j < w) : (x &&& (1#w <<< j) != 0#w) = x.getLsbD j := by
  cases hbit : x.getLsbD j with
  | false =>
    rw [bne_eq_false_iff_eq, eq_zero_iff_getLsbD]
    intro i hi
    rw [BitVec.getLsbD_and, getLsbD_one_shiftLeft hi]
    by_cases hij : i = j <;> simp [hij, hbit]
  | true =>
    rw [bne_iff_ne]
    intro hzero
    have hj' := eq_zero_iff_getLsbD.mp hzero j hj
    rw [BitVec.getLsbD_and, getLsbD_one_shiftLeft hj, hbit] at hj'
    simp at hj'

/-- The bits below a position. -/
theorem getLsbD_and_low (hi : i < w) (hj : j < w) :
    (x &&& ((1#w <<< j) - 1#w)).getLsbD i = (x.getLsbD i && decide (i < j)) := by
  have hlow : (1#w <<< j) - 1#w = BitVec.ofNat w (2 ^ j - 1) := by
    apply BitVec.eq_of_toNat_eq
    have hpos := Nat.two_pow_pos j
    have hlt : 2 ^ j < 2 ^ w := Nat.pow_lt_pow_right (by decide) hj
    have hone : 1 < 2 ^ w := lt_of_le_of_lt hpos hlt
    rw [BitVec.toNat_sub, BitVec.toNat_shiftLeft, BitVec.toNat_ofNat, BitVec.toNat_ofNat,
      Nat.mod_eq_of_lt hone, Nat.shiftLeft_eq, one_mul, Nat.mod_eq_of_lt hlt,
      Nat.mod_eq_of_lt (show 2 ^ j - 1 < 2 ^ w by omega),
      show 2 ^ w - 1 + 2 ^ j = 2 ^ j - 1 + 2 ^ w by omega, Nat.add_mod_right,
      Nat.mod_eq_of_lt (by omega)]
  rw [BitVec.getLsbD_and, hlow, BitVec.getLsbD_ofNat, Nat.testBit_two_pow_sub_one]
  simp [hi]

end

end Eddy.WordDigits
