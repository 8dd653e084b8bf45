import Mathlib

/-!
# Low masks of machine words

What `x & (2^k - 1)`, `x & ~(2^k - 1)` and `x | (2^k - 1)` are as numbers: the rest, the
largest multiple of `2^k` below, and the last number before the next multiple.  Stated of
the numbers, so that what remains of an argument about blocks of `2^k` is linear
arithmetic.
-/

namespace BapNative.Mask

variable {w k : ℕ}

lemma toNat_lowMask (h : k ≤ w) : (BitVec.ofNat w (2 ^ k - 1)).toNat = 2 ^ k - 1 := by
  have hk : 0 < 2 ^ k := Nat.two_pow_pos k
  have hw : 2 ^ k ≤ 2 ^ w := Nat.pow_le_pow_right (by omega) h
  rw [BitVec.toNat_ofNat, Nat.mod_eq_of_lt (by omega)]

/-- `x & (2^k - 1)`. -/
lemma toNat_and_lowMask (h : k ≤ w) (x : BitVec w) :
    (x &&& BitVec.ofNat w (2 ^ k - 1)).toNat = x.toNat % 2 ^ k := by
  rw [BitVec.toNat_and, toNat_lowMask h, Nat.and_two_pow_sub_one_eq_mod]

/-- A number is its part above a mask and its part below it. -/
lemma div_mul_add_or (x : ℕ) {y : ℕ} (hy : y < 2 ^ k) :
    x / 2 ^ k * 2 ^ k ||| y = x / 2 ^ k * 2 ^ k + y := by
  rw [Nat.mul_comm, ← Nat.two_pow_add_eq_or_of_lt hy]

/-- `x & ~(2^k - 1)`. -/
lemma toNat_and_not_lowMask (h : k ≤ w) (x : BitVec w) :
    (x &&& ~~~(BitVec.ofNat w (2 ^ k - 1))).toNat = x.toNat / 2 ^ k * 2 ^ k := by
  apply Nat.eq_of_testBit_eq
  intro i
  rw [BitVec.testBit_toNat, BitVec.getLsbD_and, BitVec.getLsbD_not, ← BitVec.testBit_toNat,
    ← BitVec.testBit_toNat, toNat_lowMask h, Nat.testBit_two_pow_sub_one,
    ← Nat.shiftRight_eq_div_pow, ← Nat.shiftLeft_eq, Nat.testBit_shiftLeft, Nat.testBit_shiftRight]
  by_cases hi : i < k
  · simp [hi]
  · have hki : k ≤ i := by omega
    by_cases hw : i < w
    · simp [hi, hw, hki]
    · have hx : x.toNat.testBit i = false :=
        Nat.testBit_lt_two_pow
          (lt_of_lt_of_le x.isLt (Nat.pow_le_pow_right (by omega) (by omega)))
      simp [hw, hki, hx]

/-- `x | (2^k - 1)`. -/
lemma toNat_or_lowMask (h : k ≤ w) (x : BitVec w) :
    (x ||| BitVec.ofNat w (2 ^ k - 1)).toNat = x.toNat / 2 ^ k * 2 ^ k + (2 ^ k - 1) := by
  have hk : 0 < 2 ^ k := Nat.two_pow_pos k
  rw [BitVec.toNat_or, toNat_lowMask h, ← div_mul_add_or _ (by omega)]
  apply Nat.eq_of_testBit_eq
  intro i
  rw [Nat.testBit_or, Nat.testBit_or, Nat.testBit_two_pow_sub_one, ← Nat.shiftRight_eq_div_pow,
    ← Nat.shiftLeft_eq, Nat.testBit_shiftLeft, Nat.testBit_shiftRight]
  by_cases hi : i < k
  · simp [hi]
  · simp [hi, show k ≤ i by omega]

end BapNative.Mask
