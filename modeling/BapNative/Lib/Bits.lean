import Mathlib

/-!
# The bits of a word

The bits that are set in a word, the lowest first, as a loop finds them that takes the
lowest with a count of trailing zeros and clears it with `x & (x - 1)`; and how many there
are.
-/

namespace BapNative.Bits

variable {w : ℕ}

/-! ## The lowest bit -/

/-- Up to its lowest bit, a word is that bit. -/
lemma toNat_mod_lowest {x : BitVec w} (hx : x ≠ 0#w) :
    x.toNat % 2 ^ (x.ctz.toNat + 1) = 2 ^ x.ctz.toNat := by
  apply Nat.eq_of_testBit_eq
  intro i
  rw [Nat.testBit_mod_two_pow, Nat.testBit_two_pow, BitVec.testBit_toNat]
  rcases lt_trichotomy i x.ctz.toNat with hi | hi | hi
  · rw [BitVec.getLsbD_false_of_lt_ctz hi, Bool.and_false, eq_comm, decide_eq_false_iff_not]
    omega
  · rw [hi, BitVec.getLsbD_true_ctz_of_ne_zero hx]
    simp
  · rw [decide_eq_false (by omega), Bool.false_and, eq_comm, decide_eq_false_iff_not]
    omega

/-- `x & (x - 1)` clears the lowest bit and leaves the others. -/
lemma getLsbD_and_sub_one {x : BitVec w} (hx : x ≠ 0#w) (i : ℕ) :
    (x &&& (x - 1#w)).getLsbD i = (x.getLsbD i && decide (i ≠ x.ctz.toNat)) := by
  have hmod := toNat_mod_lowest hx
  have hdiv := Nat.div_add_mod x.toNat (2 ^ (x.ctz.toNat + 1))
  generalize x.toNat / 2 ^ (x.ctz.toNat + 1) = q at hdiv
  generalize x.ctz.toNat = t at hmod hdiv ⊢
  have hpos : 0 < 2 ^ t := Nat.two_pow_pos t
  have hlt : 2 ^ t < 2 ^ (t + 1) := Nat.pow_lt_pow_right (by omega) (by omega)
  rw [hmod] at hdiv
  have hwidth : w ≠ 0 := fun hzero => hx (by subst hzero; exact Subsingleton.elim _ _)
  have hone : (1#w).toNat = 1 := by
    rw [BitVec.toNat_ofNat, Nat.mod_eq_of_lt (Nat.one_lt_two_pow hwidth)]
  have hsub : (x - 1#w).toNat = 2 ^ (t + 1) * q + (2 ^ t - 1) := by
    rw [BitVec.toNat_sub_of_le (by rw [BitVec.le_def, hone]; omega), hone, ← hdiv]
    omega
  rw [BitVec.getLsbD_and, ← BitVec.testBit_toNat, ← BitVec.testBit_toNat, hsub, ← hdiv,
    Nat.testBit_two_pow_mul_add _ hlt, Nat.testBit_two_pow_mul_add _ (by omega)]
  -- above the lowest bit both words are the same
  split_ifs with hi
  · rw [Nat.testBit_two_pow, Nat.testBit_two_pow_sub_one]
    by_cases hit : t = i
    · simp [hit]
    · simp [hit]
  · rw [Bool.and_self, decide_eq_true (show i ≠ t by omega), Bool.and_true]

/-- What is left when the lowest bit is cleared is less. -/
lemma toNat_and_sub_one_lt {x : BitVec w} (hx : x ≠ 0#w) : (x &&& (x - 1#w)).toNat < x.toNat := by
  refine lt_of_le_of_ne (by rw [BitVec.toNat_and]; exact Nat.and_le_left) fun heq => ?_
  have hbit := getLsbD_and_sub_one hx x.ctz.toNat
  rw [BitVec.eq_of_toNat_eq heq, BitVec.getLsbD_true_ctz_of_ne_zero hx] at hbit
  simp at hbit

/-! ## All bits -/

/-- `for (; bits != 0; bits &= bits - 1)`: the bits that are set, the lowest first. -/
def bitsOf (x : BitVec w) : List ℕ :=
  if x = 0#w then [] else x.ctz.toNat :: bitsOf (x &&& (x - 1#w))
termination_by x.toNat
decreasing_by exact toNat_and_sub_one_lt ‹_›

lemma mem_bitsOf {x : BitVec w} {i : ℕ} : i ∈ bitsOf x ↔ x.getLsbD i = true := by
  fun_induction bitsOf x with
  | case1 => simp
  | case2 x hx ih =>
    rw [List.mem_cons, ih, getLsbD_and_sub_one hx]
    by_cases hi : i = x.ctz.toNat
    · rw [hi, BitVec.getLsbD_true_ctz_of_ne_zero hx]
      simp
    · simp [hi]

lemma pairwise_bitsOf (x : BitVec w) : (bitsOf x).Pairwise (· < ·) := by
  fun_induction bitsOf x with
  | case1 => exact List.Pairwise.nil
  | case2 x hx ih =>
    refine List.pairwise_cons.mpr ⟨fun i hi => ?_, ih⟩
    rw [mem_bitsOf, getLsbD_and_sub_one hx, Bool.and_eq_true, decide_eq_true_eq] at hi
    by_contra hle
    have hlow := BitVec.getLsbD_false_of_lt_ctz (x := x) (i := i) (by omega)
    rw [hi.1] at hlow
    simp at hlow

/-! ## How many -/

/-- `popcount`. -/
def popcount (x : BitVec w) : ℕ := x.cpop.toNat

lemma popcount_eq (x : BitVec w) : popcount x = x.cpopNatRec w 0 := BitVec.toNat_cpop x

@[simp] lemma popcount_zero : popcount (0#w) = 0 := by simp [popcount]

lemma cpopNatRec_eq_length (x : BitVec w) (k : ℕ) :
    x.cpopNatRec k 0 = ((List.range k).filter fun i => x.getLsbD i).length := by
  induction k with
  | zero => rfl
  | succ k ih =>
    rw [BitVec.cpopNatRec_succ, BitVec.cpopNatRec_add, ih, List.range_succ, List.filter_append,
      List.length_append]
    cases hk : x.getLsbD k <;> simp [hk]

/-- The bits that are found are as many as are counted. -/
lemma length_bitsOf (x : BitVec w) : (bitsOf x).length = popcount x := by
  rw [popcount_eq, cpopNatRec_eq_length]
  apply List.Perm.length_eq
  refine (List.perm_ext_iff_of_nodup ((pairwise_bitsOf x).imp ne_of_lt)
    (List.nodup_range.filter _)).mpr fun i => ?_
  rw [mem_bitsOf, List.mem_filter, List.mem_range, and_iff_right_of_imp]
  exact fun hi => BitVec.lt_of_getLsbD hi

/-- Setting bits adds those that weren't set. -/
lemma popcount_or (x mask : BitVec w) :
    popcount (x ||| mask) = popcount x + popcount (mask &&& ~~~x) := by
  have hfilter : ∀ l : List ℕ, (∀ i ∈ l, i < w) →
      (l.filter fun i => (x ||| mask).getLsbD i).length =
        (l.filter fun i => x.getLsbD i).length +
          (l.filter fun i => (mask &&& ~~~x).getLsbD i).length := by
    intro l hl
    induction l with
    | nil => rfl
    | cons i l ih =>
      have hi : i < w := hl i List.mem_cons_self
      have hrest := ih fun j hj => hl j (List.mem_cons_of_mem _ hj)
      simp only [List.filter_cons, BitVec.getLsbD_or, BitVec.getLsbD_and, BitVec.getLsbD_not,
        hi, decide_true, Bool.true_and] at hrest ⊢
      cases x.getLsbD i <;> cases mask.getLsbD i <;> simp [hrest] <;> omega
  simp only [popcount_eq, cpopNatRec_eq_length]
  exact hfilter (List.range w) fun i hi => List.mem_range.mp hi

/-- One bit is one. -/
lemma popcount_twoPow {k : ℕ} (hk : k < w) : popcount (BitVec.twoPow w k) = 1 := by
  rw [← length_bitsOf]
  have hperm : (bitsOf (BitVec.twoPow w k)).Perm [k] := by
    refine (List.perm_ext_iff_of_nodup ((pairwise_bitsOf _).imp ne_of_lt)
      (List.nodup_singleton k)).mpr fun i => ?_
    rw [mem_bitsOf, BitVec.getLsbD_twoPow, List.mem_singleton, decide_eq_true hk, Bool.true_and,
      decide_eq_true_eq, eq_comm]
  exact hperm.length_eq

/-- A bit that is set stays when it is set again. -/
lemma or_twoPow_of_getLsbD {x : BitVec w} {k : ℕ} (h : x.getLsbD k = true) :
    x ||| BitVec.twoPow w k = x := by
  apply BitVec.eq_of_getLsbD_eq
  intro i hi
  rw [BitVec.getLsbD_or, BitVec.getLsbD_twoPow]
  by_cases hik : k = i
  · subst hik
    simp [h]
  · simp [hik]

/-- A bit that is set adds itself to the count if it wasn't. -/
lemma popcount_twoPow_and_not (x : BitVec w) {k : ℕ} (hk : k < w) :
    popcount (BitVec.twoPow w k &&& ~~~x) = if x.getLsbD k then 0 else 1 := by
  rw [BitVec.twoPow_and, BitVec.getLsbD_not, decide_eq_true hk, Bool.true_and]
  cases x.getLsbD k
  · exact popcount_twoPow hk
  · exact popcount_zero

end BapNative.Bits
