import Mathlib.Data.BitVec
import Mathlib.Data.List.Basic

/-!
# Codecs

A codec writes a value as words, and reads it back from words of which it takes a first part.
It reads exactly what it writes: from what it wrote, whatever follows, it reads the value, and
what it reads a value from is what it writes for it.  So are the codecs of pairs, of lists with
their length first, and of what is one to one with such.
-/

namespace BapNative

/-- A codec of values as words.  `Fits` is what it can write. -/
structure Codec (w α : Type) where
  Fits : α → Prop
  encode : α → List w
  decode : List w → Option (α × List w)
  decode_encode : ∀ a, Fits a → ∀ rest, decode (encode a ++ rest) = some (a, rest)
  eq_of_decode : ∀ words a rest, decode words = some (a, rest) → Fits a ∧ words = encode a ++ rest

namespace Codec

variable {w α β : Type}

/-- A word as it is. -/
def word : Codec w w where
  Fits := fun _ => True
  encode := fun a => [a]
  decode
    | [] => none
    | a :: rest => some (a, rest)
  decode_encode := fun _ _ _ => rfl
  eq_of_decode := by
    rintro (_ | ⟨first, words⟩) a rest h
    · simp at h
    · obtain ⟨rfl, rfl⟩ := Prod.mk.inj (Option.some.inj h)
      exact ⟨trivial, rfl⟩

/-- One value, and then another. -/
def pair (first : Codec w α) (second : Codec w β) : Codec w (α × β) where
  Fits := fun a => first.Fits a.1 ∧ second.Fits a.2
  encode := fun a => first.encode a.1 ++ second.encode a.2
  decode := fun words => do
    let (a, words) ← first.decode words
    let (b, words) ← second.decode words
    return ((a, b), words)
  decode_encode := by
    rintro ⟨a, b⟩ ⟨ha, hb⟩ rest
    simp only [List.append_assoc, first.decode_encode a ha, Option.bind_eq_bind,
      Option.bind_some, second.decode_encode b hb]
    rfl
  eq_of_decode := by
    rintro words ⟨a, b⟩ rest h
    obtain ⟨⟨a', words'⟩, hfirst, h⟩ := Option.bind_eq_some_iff.mp h
    obtain ⟨⟨b', rest'⟩, hsecond, h⟩ := Option.bind_eq_some_iff.mp h
    obtain ⟨⟨rfl, rfl⟩, rfl⟩ : (a' = a ∧ b' = b) ∧ rest' = rest := by simpa using h
    obtain ⟨ha, rfl⟩ := first.eq_of_decode _ _ _ hfirst
    obtain ⟨hb, rfl⟩ := second.eq_of_decode _ _ _ hsecond
    exact ⟨⟨ha, hb⟩, by rw [List.append_assoc]⟩

/-- What is one to one with what a codec has. -/
def iso (codec : Codec w α) (e : α ≃ β) : Codec w β where
  Fits := fun b => codec.Fits (e.symm b)
  encode := fun b => codec.encode (e.symm b)
  decode := fun words => do
    let (a, words) ← codec.decode words
    return (e a, words)
  decode_encode := by
    intro b hb rest
    simp only [codec.decode_encode _ hb, Option.bind_eq_bind, Option.bind_some,
      Equiv.apply_symm_apply]
    rfl
  eq_of_decode := by
    intro words b rest h
    obtain ⟨⟨a, rest'⟩, hdecode, h⟩ := Option.bind_eq_some_iff.mp h
    obtain ⟨rfl, rfl⟩ : e a = b ∧ rest' = rest := by simpa using h
    obtain ⟨ha, rfl⟩ := codec.eq_of_decode _ _ _ hdecode
    rw [Equiv.symm_apply_apply]
    exact ⟨ha, rfl⟩

/-! ## Lists -/

/-- So many values. -/
def decodeMany (codec : Codec w α) : ℕ → List w → Option (List α × List w)
  | 0, words => some ([], words)
  | count + 1, words => do
    let (a, words) ← codec.decode words
    let (list, words) ← codec.decodeMany count words
    return (a :: list, words)

lemma decodeMany_encode (codec : Codec w α) {list : List α} (h : ∀ a ∈ list, codec.Fits a)
    (rest : List w) :
    codec.decodeMany list.length (list.flatMap codec.encode ++ rest) = some (list, rest) := by
  induction list with
  | nil => rfl
  | cons a list ih =>
    have ha := codec.decode_encode a (h a List.mem_cons_self)
      (list.flatMap codec.encode ++ rest)
    simp only [List.length_cons, decodeMany, List.flatMap_cons, List.append_assoc, ha,
      Option.bind_eq_bind, Option.bind_some, ih fun b hb => h b (List.mem_cons_of_mem _ hb)]
    rfl

lemma eq_of_decodeMany (codec : Codec w α) {count : ℕ} {words : List w} {list : List α}
    {rest : List w} (h : codec.decodeMany count words = some (list, rest)) :
    list.length = count ∧ (∀ a ∈ list, codec.Fits a) ∧
      words = list.flatMap codec.encode ++ rest := by
  induction count generalizing words list with
  | zero =>
    obtain ⟨rfl, rfl⟩ := Prod.mk.inj (Option.some.inj h)
    exact ⟨rfl, by simp, rfl⟩
  | succ count ih =>
    obtain ⟨⟨a, words'⟩, hfirst, h⟩ := Option.bind_eq_some_iff.mp h
    obtain ⟨⟨more, rest'⟩, hmore, h⟩ := Option.bind_eq_some_iff.mp h
    obtain ⟨rfl, rfl⟩ : a :: more = list ∧ rest' = rest := by simpa using h
    obtain ⟨ha, rfl⟩ := codec.eq_of_decode _ _ _ hfirst
    obtain ⟨hlength, hfits, rfl⟩ := ih hmore
    refine ⟨by rw [List.length_cons, hlength], fun b hb => ?_, ?_⟩
    · rcases List.mem_cons.mp hb with rfl | hb
      · exact ha
      · exact hfits b hb
    · rw [List.flatMap_cons, List.append_assoc]

/-- A list, with its length first. -/
def counted {n : ℕ} (codec : Codec (BitVec n) α) : Codec (BitVec n) (List α) where
  Fits := fun list => list.length < 2 ^ n ∧ ∀ a ∈ list, codec.Fits a
  encode := fun list => BitVec.ofNat n list.length :: list.flatMap codec.encode
  decode
    | [] => none
    | count :: words => codec.decodeMany count.toNat words
  decode_encode := by
    rintro list ⟨hlength, hfits⟩ rest
    simp only [List.cons_append, BitVec.toNat_ofNat, Nat.mod_eq_of_lt hlength]
    exact codec.decodeMany_encode hfits rest
  eq_of_decode := by
    rintro (_ | ⟨count, words⟩) list rest h
    · simp at h
    · obtain ⟨hlength, hfits, rfl⟩ := codec.eq_of_decodeMany h
      refine ⟨⟨by rw [hlength]; exact count.isLt, hfits⟩, ?_⟩
      rw [hlength, BitVec.ofNat_toNat, BitVec.setWidth_eq]
      rfl

/-! ## Whole words -/

/-- A value of which nothing is left over. -/
def decodeAll (codec : Codec w α) (words : List w) : Option α :=
  match codec.decode words with
  | some (a, []) => some a
  | _ => none

/-- **What is read is what was written, and nothing else is accepted.** -/
theorem decodeAll_eq_some_iff (codec : Codec w α) {words : List w} {a : α} :
    codec.decodeAll words = some a ↔ codec.Fits a ∧ words = codec.encode a := by
  constructor
  · intro h
    rw [decodeAll] at h
    split at h
    · next a' hdecode =>
      obtain rfl := Option.some.inj h
      obtain ⟨hfits, heq⟩ := codec.eq_of_decode _ _ _ hdecode
      exact ⟨hfits, by rw [heq, List.append_nil]⟩
    · simp at h
  · rintro ⟨hfits, rfl⟩
    have hdecode := codec.decode_encode a hfits []
    rw [List.append_nil] at hdecode
    rw [decodeAll, hdecode]

end Codec

end BapNative
