import BapNative.Lib.Block

/-!
# Integers in memory

An integer in memory is its bytes, the least significant first or last.  It gets there byte
by byte, in a loop, or by an instruction of the host, which has an order of its own, with
the bytes swapped before where that is the other one; and back likewise.  Both ways come
to the same bytes and to the same integer.
-/

namespace BapNative.Endian

open Block

variable {w : ℕ}

/-- Bytes in memory order, of those with the least significant first, or the other way
round. -/
def ordered (big : Bool) (bytes : List (BitVec 8)) : List (BitVec 8) :=
  if big then bytes.reverse else bytes

@[simp] lemma length_ordered (big : Bool) (bytes : List (BitVec 8)) :
    (ordered big bytes).length = bytes.length := by
  cases big <;> simp [ordered]

@[simp] lemma ordered_ordered (big : Bool) (bytes : List (BitVec 8)) :
    ordered big (ordered big bytes) = bytes := by
  cases big <;> simp [ordered]

/-- How significant the byte at a place of memory is. -/
def significance (big : Bool) (size index : ℕ) : ℕ := if big then size - 1 - index else index

lemma significance_lt (big : Bool) {size i : ℕ} (h : i < size) :
    significance big size i < size := by
  unfold significance
  split_ifs <;> omega

lemma significance_significance (big : Bool) {size i : ℕ} (h : i < size) :
    significance big size (significance big size i) = i := by
  unfold significance
  split_ifs <;> omega

/-- The loop that takes an integer apart. -/
def split (big : Bool) (size : ℕ) (value : BitVec w) : List (BitVec 8) :=
  (List.range size).map fun index => (value >>> (significance big size index * 8)).setWidth 8

/-- The loop that puts one together. -/
def join (w : ℕ) (big : Bool) (bytes : List (BitVec 8)) : BitVec w :=
  (List.range bytes.length).foldl (fun result index => result |||
    (bytes.getD index 0#8).setWidth w <<< (significance big bytes.length index * 8)) 0#w

/-! ## The loops -/

@[simp] lemma length_split (big : Bool) (size : ℕ) (value : BitVec w) :
    (split big size value).length = size := by simp [split]

lemma split_eq (big : Bool) (size : ℕ) (value : BitVec w) :
    split big size value = ordered big (toBytes size value) := by
  apply List.ext_getElem (by simp)
  intro i h1 h2
  rw [length_split] at h1
  cases big with
  | false => simp [split, ordered, toBytes, significance, Nat.mul_comm]
  | true => simp [split, ordered, toBytes, significance, Nat.mul_comm]

/-- A bit of the word of some bytes. -/
lemma getLsbD_ofBytes {bytes : List (BitVec 8)} (h : 8 * bytes.length ≤ w) (k : ℕ) :
    (ofBytes w bytes).getLsbD k = (bytes.getD (k / 8) 0#8).getLsbD (k % 8) := by
  by_cases hk : k / 8 < bytes.length
  · have hbytes := toBytes_ofBytes bytes h
    have hget : (toBytes bytes.length (ofBytes w bytes))[k / 8]? = some bytes[k / 8] := by
      rw [hbytes, List.getElem?_eq_getElem hk]
    rw [toBytes, List.getElem?_map, List.getElem?_range hk, Option.map_some] at hget
    rw [List.getD_eq_getElem _ _ hk, ← Option.some.inj hget, BitVec.getLsbD_setWidth,
      BitVec.getLsbD_ushiftRight, Nat.div_add_mod, decide_eq_true (Nat.mod_lt k (by omega)),
      Bool.true_and]
  · -- past the bytes there is nothing
    have hlt := ofDigits_lt_pow bytes
    rw [List.getD_eq_default _ _ (by omega), ofBytes, BitVec.getLsbD_ofNat,
      Nat.testBit_lt_two_pow (lt_of_lt_of_le hlt (Nat.pow_le_pow_right (by omega) (by omega)))]
    simp

lemma getLsbD_foldl_or (f : ℕ → BitVec w) (l : List ℕ) (result : BitVec w) (k : ℕ) :
    (l.foldl (fun result i => result ||| f i) result).getLsbD k =
      (result.getLsbD k || l.any fun i => (f i).getLsbD k) := by
  induction l generalizing result with
  | nil => simp
  | cons i l ih => rw [List.foldl_cons, ih, BitVec.getLsbD_or, List.any_cons, Bool.or_assoc]

/-- A byte at its place in a word has its bits there and no others. -/
lemma getLsbD_setWidth_shiftLeft (byte : BitVec 8) (place : ℕ) {k : ℕ} (hk : k < w) :
    (byte.setWidth w <<< (place * 8)).getLsbD k =
      (decide (k / 8 = place) && byte.getLsbD (k % 8)) := by
  rw [BitVec.getLsbD_shiftLeft, BitVec.getLsbD_setWidth, decide_eq_true hk,
    decide_eq_true (show k - place * 8 < w by omega), Bool.true_and, Bool.true_and]
  by_cases hplace : k / 8 = place
  · rw [decide_eq_true hplace, decide_eq_false (by omega),
      show k - place * 8 = k % 8 by omega]
    simp
  · rw [decide_eq_false hplace, Bool.false_and]
    by_cases hlt : k < place * 8
    · simp [hlt]
    · rw [BitVec.getLsbD_of_ge _ _ (by omega), Bool.and_false]

/-- **The loop puts together the word of the bytes in their order.** -/
theorem join_eq (big : Bool) {bytes : List (BitVec 8)} (h : 8 * bytes.length ≤ w) :
    join w big bytes = ofBytes w (ordered big bytes) := by
  apply BitVec.eq_of_getLsbD_eq
  intro k hk
  rw [getLsbD_ofBytes (by rwa [length_ordered]), join, getLsbD_foldl_or, BitVec.getLsbD_zero,
    Bool.false_or]
  simp only [getLsbD_setWidth_shiftLeft _ _ hk]
  -- the one byte that has the bit is the one whose significance is that of the bit
  by_cases hin : k / 8 < bytes.length
  · have hlt := significance_lt big hin
    have hget : (ordered big bytes).getD (k / 8) 0#8 =
        bytes.getD (significance big bytes.length (k / 8)) 0#8 := by
      rw [List.getD_eq_getElem _ _ (by rwa [length_ordered]), List.getD_eq_getElem _ _ hlt]
      cases big <;> simp [ordered, significance]
    rw [hget, Bool.eq_iff_iff, List.any_eq_true]
    constructor
    · rintro ⟨i, hi, hbit⟩
      rw [Bool.and_eq_true, decide_eq_true_eq] at hbit
      rw [List.mem_range] at hi
      rw [hbit.1, significance_significance big hi]
      exact hbit.2
    · intro hbit
      refine ⟨_, List.mem_range.mpr hlt, ?_⟩
      rw [Bool.and_eq_true, decide_eq_true_eq]
      exact ⟨(significance_significance big hin).symm, hbit⟩
  · rw [List.getD_eq_default _ _ (by rw [length_ordered]; omega), BitVec.getLsbD_zero,
      List.any_eq_false]
    intro i hi
    rw [List.mem_range] at hi
    have hne : k / 8 ≠ significance big bytes.length i :=
      fun heq => hin (heq ▸ significance_lt big hi)
    simp [hne]

/-! ## Instructions of a host -/

/-- `bswap`: the bytes of an integer the other way round. -/
def bswap {size : ℕ} (value : BitVec (8 * size)) : BitVec (8 * size) :=
  ofBytes (8 * size) (toBytes size value).reverse

/-- What a host loads of bytes. -/
def hostLoad (hostBig : Bool) (size : ℕ) (bytes : List (BitVec 8)) : BitVec (8 * size) :=
  ofBytes (8 * size) (ordered hostBig bytes)

/-- The bytes of an integer as a host stores it. -/
def hostStore (hostBig : Bool) {size : ℕ} (value : BitVec (8 * size)) : List (BitVec 8) :=
  ordered hostBig (toBytes size value)

/-- An integer between an order of bytes and the order of the host. -/
def swapped (hostBig big : Bool) {size : ℕ} (value : BitVec (8 * size)) : BitVec (8 * size) :=
  if size = 1 ∨ big = hostBig then value else bswap value

lemma toBytes_ofBytes_of_length {size : ℕ} {bytes : List (BitVec 8)} (h : bytes.length = size) :
    toBytes size (ofBytes (8 * size) bytes) = bytes := by
  subst h
  exact toBytes_ofBytes bytes (le_refl _)

lemma ordered_of_length_one {bytes : List (BitVec 8)} (h : bytes.length = 1) (big : Bool) :
    ordered big bytes = bytes := by
  obtain ⟨byte, rfl⟩ := List.length_eq_one_iff.mp h
  cases big <;> rfl

/-- **An instruction of the host and a swap load the word of the bytes in their order.** -/
theorem swapped_hostLoad (hostBig big : Bool) {size : ℕ} {bytes : List (BitVec 8)}
    (h : bytes.length = size) :
    swapped hostBig big (hostLoad hostBig size bytes) = ofBytes (8 * size) (ordered big bytes) := by
  unfold swapped hostLoad
  split_ifs with hsame
  · rcases hsame with hone | rfl
    · rw [ordered_of_length_one (h.trans hone), ordered_of_length_one (h.trans hone)]
    · rfl
  · rw [bswap, toBytes_ofBytes_of_length (by rwa [length_ordered])]
    cases big <;> cases hostBig <;> simp [ordered] at hsame ⊢

/-- **A swap and an instruction of the host store the bytes of an integer in their order.** -/
theorem hostStore_swapped (hostBig big : Bool) {size : ℕ} (value : BitVec (8 * size)) :
    hostStore hostBig (swapped hostBig big value) = ordered big (toBytes size value) := by
  unfold swapped hostStore
  split_ifs with hsame
  · rcases hsame with hone | rfl
    · rw [ordered_of_length_one (by simp [hone]), ordered_of_length_one (by simp [hone])]
    · rfl
  · rw [bswap, toBytes_ofBytes_of_length (by simp)]
    cases big <;> cases hostBig <;> simp [ordered] at hsame ⊢

/-! ## Widths -/

/-- The word of bytes, as of the width that they take, brought to another. -/
lemma setWidth_ofBytes {size : ℕ} {bytes : List (BitVec 8)} (h : bytes.length = size) :
    (ofBytes (8 * size) bytes).setWidth w = ofBytes w bytes := by
  have hlt := ofDigits_lt_pow bytes
  rw [h] at hlt
  apply BitVec.eq_of_toNat_eq
  rw [BitVec.toNat_setWidth, ofBytes, ofBytes, BitVec.toNat_ofNat, BitVec.toNat_ofNat,
    Nat.mod_eq_of_lt hlt]

/-- The bytes of a truncated word are the first bytes of the word. -/
lemma toBytes_setWidth {size : ℕ} (value : BitVec w) :
    toBytes size (value.setWidth (8 * size)) = toBytes size value := by
  apply List.map_congr_left
  intro i hi
  rw [List.mem_range] at hi
  apply BitVec.eq_of_getLsbD_eq
  intro j hj
  rw [BitVec.getLsbD_setWidth, BitVec.getLsbD_setWidth, BitVec.getLsbD_ushiftRight,
    BitVec.getLsbD_ushiftRight, BitVec.getLsbD_setWidth,
    decide_eq_true (show 8 * i + j < 8 * size by omega), Bool.true_and]

end BapNative.Endian
