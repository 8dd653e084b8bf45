import Mathlib

/-!
# Blocks of values, and words in them

Memory that comes in blocks: a place is a block and an offset in it, and pointer
arithmetic stays in the block.  A copy writes the values of a list to the places that
follow each other from one on, a read gives them back.

A word is what the places of a few bytes hold together.  Reading it, changing a few of
its bytes and writing all of it back comes to writing those bytes alone.
-/

namespace BapNative.Block

variable {B V : Type*}

/-- A place in a block. -/
structure Place (B : Type*) where
  /-- The block. -/
  block : B
  /-- How far into the block. -/
  offset : ℕ
deriving DecidableEq

/-- The place a few values further on in the same block. -/
def Place.plus (p : Place B) (k : ℕ) : Place B := ⟨p.block, p.offset + k⟩

@[simp] lemma Place.plus_block (p : Place B) (k : ℕ) : (p.plus k).block = p.block := rfl

@[simp] lemma Place.plus_offset (p : Place B) (k : ℕ) : (p.plus k).offset = p.offset + k := rfl

@[simp] lemma Place.plus_zero (p : Place B) : p.plus 0 = p := rfl

lemma Place.plus_plus (p : Place B) (k l : ℕ) : (p.plus k).plus l = p.plus (k + l) := by
  simp [Place.plus, Nat.add_assoc]

/-- The values at the places that follow each other from one on. -/
def peek (s : Place B → V) (p : Place B) (count : ℕ) : List V :=
  (List.range count).map fun i => s (p.plus i)

@[simp] lemma length_peek (s : Place B → V) (p : Place B) (count : ℕ) :
    (peek s p count).length = count := by simp [peek]

lemma getElem?_peek (s : Place B → V) (p : Place B) (count i : ℕ) :
    (peek s p count)[i]? = if i < count then some (s (p.plus i)) else none := by
  by_cases h : i < count <;> simp [peek, h]

lemma take_drop_peek (s : Place B → V) (p : Place B) {count k l : ℕ} (h : k + l ≤ count) :
    ((peek s p count).drop k).take l = peek s (p.plus k) l := by
  apply List.ext_getElem?
  intro i
  rw [List.getElem?_take, getElem?_peek, Place.plus_plus]
  by_cases hi : i < l
  · rw [if_pos hi, if_pos hi, List.getElem?_drop, getElem?_peek, if_pos (by omega)]
  · rw [if_neg hi, if_neg hi]

lemma peek_add (s : Place B → V) (p : Place B) (k l : ℕ) :
    peek s p (k + l) = peek s p k ++ peek s (p.plus k) l := by
  simp only [peek, List.range_add, List.map_append, List.map_map]
  congr 1
  apply List.map_congr_left
  intro i _
  rw [Function.comp_apply, Place.plus_plus]

section Poke

variable [DecidableEq B]

/-- The memory with the values of a list copied to the places from one on. -/
def poke (s : Place B → V) (p : Place B) (vs : List V) : Place B → V := fun x =>
  if x.block = p.block ∧ p.offset ≤ x.offset then (vs[x.offset - p.offset]?).getD (s x) else s x

lemma poke_plus (s : Place B → V) (p : Place B) (vs : List V) (k : ℕ) :
    poke s p vs (p.plus k) = (vs[k]?).getD (s (p.plus k)) := by
  simp [poke]

/-- A copy leaves what is in another block, or before it, or after it. -/
lemma poke_outside (s : Place B → V) {p x : Place B} (vs : List V)
    (h : x.block ≠ p.block ∨ x.offset < p.offset ∨ p.offset + vs.length ≤ x.offset) :
    poke s p vs x = s x := by
  rw [poke]
  split_ifs with hx
  · rw [List.getElem?_eq_none]
    · rfl
    · rcases h with h | h | h
      · exact absurd hx.1 h
      · exact absurd hx.2 (by omega)
      · omega
  · rfl

/-- A place is at a distance from another, or a copy to the other leaves it alone. -/
lemma eq_plus_or_outside (p x : Place B) :
    (∃ k, x = p.plus k) ∨ x.block ≠ p.block ∨ x.offset < p.offset := by
  by_cases hblock : x.block = p.block
  · by_cases hoff : p.offset ≤ x.offset
    · refine Or.inl ⟨x.offset - p.offset, ?_⟩
      obtain ⟨b, o⟩ := x
      simp only [Place.plus, Place.mk.injEq] at hblock hoff ⊢
      exact ⟨hblock, by omega⟩
    · exact Or.inr (Or.inr (by omega))
  · exact Or.inr (Or.inl hblock)

lemma poke_of_outside (s : Place B → V) {p x : Place B} (vs : List V)
    (h : x.block ≠ p.block ∨ x.offset < p.offset) (k : ℕ) : poke s (p.plus k) vs x = s x :=
  poke_outside s vs (h.imp_right fun hlt => Or.inl (Nat.lt_add_right k hlt))

/-- Copies that go on from each other are one. -/
lemma poke_append (s : Place B → V) (p : Place B) (vs vs' : List V) :
    poke (poke s p vs) (p.plus vs.length) vs' = poke s p (vs ++ vs') := by
  funext x
  rcases eq_plus_or_outside p x with ⟨k, rfl⟩ | hout
  · rw [poke_plus]
    by_cases hk : k < vs.length
    · rw [poke_outside _ _ (by simp; omega), poke_plus, List.getElem?_append_left hk]
    · obtain ⟨j, rfl⟩ := Nat.exists_eq_add_of_le (not_lt.mp hk)
      have hnone : vs[vs.length + j]? = none := List.getElem?_eq_none (by omega)
      rw [← Place.plus_plus, poke_plus, Place.plus_plus, poke_plus,
        List.getElem?_append_right (by omega), Nat.add_sub_cancel_left, hnone, Option.getD_none]
  · rw [poke_of_outside _ _ hout, ← Place.plus_zero p, poke_of_outside _ _ hout,
      poke_of_outside _ _ hout]

/-- Copying to a place what is there changes nothing. -/
lemma poke_peek (s : Place B → V) (p : Place B) (count : ℕ) : poke s p (peek s p count) = s := by
  funext x
  rcases eq_plus_or_outside p x with ⟨k, rfl⟩ | hout
  · rw [poke_plus, getElem?_peek]
    split_ifs <;> rfl
  · exact poke_of_outside _ _ hout 0

/-- A list with a few of its values, from one on, replaced. -/
def splice (l : List V) (k : ℕ) (vs : List V) : List V :=
  l.take k ++ vs ++ l.drop (k + vs.length)

lemma getElem?_splice {l : List V} {k : ℕ} {vs : List V} (h : k + vs.length ≤ l.length) (i : ℕ) :
    (splice l k vs)[i]? = if k ≤ i ∧ i < k + vs.length then vs[i - k]? else l[i]? := by
  have hk : (l.take k).length = k := by simp; omega
  rw [splice, List.append_assoc]
  by_cases h1 : i < k
  · rw [List.getElem?_append_left (by omega), List.getElem?_take_of_lt h1, if_neg (by omega)]
  · rw [List.getElem?_append_right (by omega), hk]
    by_cases h2 : i < k + vs.length
    · rw [List.getElem?_append_left (by omega), if_pos (by omega)]
    · rw [List.getElem?_append_right (by omega), List.getElem?_drop, if_neg (by omega)]
      congr 1
      omega

/-- Values in the middle of a list, replaced by as many. -/
lemma splice_middle (l mid r : List V) {vs : List V} (h : mid.length = vs.length) :
    splice (l ++ mid ++ r) l.length vs = l ++ vs ++ r := by
  have hlen : l.length + vs.length = (l ++ mid).length := by simp [h]
  rw [splice, hlen, List.drop_left, List.append_assoc l mid r, List.take_left]

lemma length_splice {l : List V} {k : ℕ} {vs : List V} (h : k + vs.length ≤ l.length) :
    (splice l k vs).length = l.length := by
  simp [splice]
  omega

/-- Writing back what was read, with a few values replaced, is writing those values. -/
lemma poke_splice_peek (s : Place B → V) (p : Place B) {count k : ℕ} {vs : List V}
    (h : k + vs.length ≤ count) :
    poke s p (splice (peek s p count) k vs) = poke s (p.plus k) vs := by
  funext x
  rcases eq_plus_or_outside p x with ⟨i, rfl⟩ | hout
  · rw [poke_plus, getElem?_splice (by simpa using h)]
    by_cases hin : k ≤ i ∧ i < k + vs.length
    · rw [if_pos hin, show p.plus i = (p.plus k).plus (i - k) by
        rw [Place.plus_plus, Nat.add_sub_cancel' hin.1], poke_plus]
    · rw [if_neg hin, poke_outside s vs (by simp; omega), getElem?_peek]
      split_ifs <;> rfl
  · rw [poke_of_outside _ _ hout]
    exact poke_of_outside _ _ hout 0

end Poke

/-! ## Words -/

/-- The first bytes of a word, the least of them first. -/
def toBytes {w : ℕ} (count : ℕ) (word : BitVec w) : List (BitVec 8) :=
  (List.range count).map fun i => (word >>> (8 * i)).setWidth 8

/-- The word of its bytes, the least of them first. -/
def ofBytes (w : ℕ) (bytes : List (BitVec 8)) : BitVec w :=
  BitVec.ofNat w (Nat.ofDigits 256 (bytes.map BitVec.toNat))

@[simp] lemma length_toBytes {w : ℕ} (count : ℕ) (word : BitVec w) :
    (toBytes count word).length = count := by simp [toBytes]

lemma ofDigits_div_pow_mod (bytes : List (BitVec 8)) {i : ℕ} (hi : i < bytes.length) :
    Nat.ofDigits 256 (bytes.map BitVec.toNat) / 256 ^ i % 256 = bytes[i].toNat := by
  induction bytes generalizing i with
  | nil => simp at hi
  | cons b bytes ih =>
    rw [List.map_cons, Nat.ofDigits_cons]
    cases i with
    | zero =>
      have hb : b.toNat < 256 := b.isLt
      simp only [pow_zero, Nat.div_one, List.getElem_cons_zero]
      omega
    | succ i =>
      have hb : b.toNat < 256 := b.isLt
      rw [pow_succ', ← Nat.div_div_eq_div_mul, List.getElem_cons_succ,
        show (b.toNat + 256 * Nat.ofDigits 256 (bytes.map BitVec.toNat)) / 256
          = Nat.ofDigits 256 (bytes.map BitVec.toNat) by omega]
      exact ih (by simpa using hi)

lemma ofDigits_lt_pow (bytes : List (BitVec 8)) :
    Nat.ofDigits 256 (bytes.map BitVec.toNat) < 2 ^ (8 * bytes.length) := by
  have h := Nat.ofDigits_lt_base_pow_length (b := 256) (l := bytes.map BitVec.toNat) (by omega) (by
    intro d hd
    obtain ⟨b, -, rfl⟩ := List.mem_map.mp hd
    exact b.isLt)
  rw [List.length_map] at h
  rwa [pow_mul]

/-- Bytes that fit into a word come out of it as they went in. -/
lemma toBytes_ofBytes {w : ℕ} (bytes : List (BitVec 8)) (h : 8 * bytes.length ≤ w) :
    toBytes bytes.length (ofBytes w bytes) = bytes := by
  apply List.ext_getElem (by simp)
  intro i h1 h2
  apply BitVec.eq_of_toNat_eq
  have hlt : Nat.ofDigits 256 (bytes.map BitVec.toNat) < 2 ^ w :=
    lt_of_lt_of_le (ofDigits_lt_pow bytes) (Nat.pow_le_pow_right (by omega) h)
  rw [← ofDigits_div_pow_mod bytes h2]
  simp only [toBytes, ofBytes, List.getElem_map, List.getElem_range, BitVec.toNat_setWidth,
    BitVec.toNat_ushiftRight, BitVec.toNat_ofNat, Nat.mod_eq_of_lt hlt, Nat.shiftRight_eq_div_pow,
    pow_mul]
  norm_num

@[simp] lemma toBytes_zero (w count : ℕ) :
    toBytes count (0#w) = List.replicate count 0 := by
  simp [toBytes, List.map_const']

end BapNative.Block
