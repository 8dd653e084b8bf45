import Mathlib

/-!
# Maps that are kept in the order of their keys

A map from keys to values that is kept in the order of the keys, as the list of its values.
`upperBound` is where the keys above one begin; what a map is asked for is mostly said of
the value before that place and of the one there.
-/

namespace BapNative.OrderedMap

variable {α K : Type*} [LinearOrder K] (key : α → K)

/-- The values are in the order of their keys, with no key twice. -/
def Sorted (l : List α) : Prop := l.Pairwise fun x y => key x < key y

/-- The values before `upper_bound(k)`. -/
def below (l : List α) (k : K) : List α := l.takeWhile fun x => decide (key x ≤ k)

/-- The values from `upper_bound(k)` on. -/
def above (l : List α) (k : K) : List α := l.dropWhile fun x => decide (key x ≤ k)

/-- `emplace`: puts a value in, unless its key has one. -/
def emplace (l : List α) (x : α) : List α :=
  if key x ∈ l.map key then l else below key l (key x) ++ x :: above key l (key x)

/-- `erase`: takes out the value of a key. -/
def erase (l : List α) (k : K) : List α := l.filter fun x => decide (key x ≠ k)

variable {key} {l : List α} {k : K}

lemma sorted_nil : Sorted key ([] : List α) := List.Pairwise.nil

lemma below_append_above (key : α → K) (l : List α) (k : K) : below key l k ++ above key l k = l :=
  List.takeWhile_append_dropWhile

/-! ## Where a key goes -/

lemma Sorted.mem_below (h : Sorted key l) {x : α} : x ∈ below key l k ↔ x ∈ l ∧ key x ≤ k := by
  induction l with
  | nil => simp [below]
  | cons y l ih =>
    obtain ⟨hy, hl⟩ := List.pairwise_cons.mp h
    by_cases hle : key y ≤ k
    · have hcons : below key (y :: l) k = y :: below key l k := by simp [below, hle]
      rw [hcons, List.mem_cons, List.mem_cons, ih hl]
      constructor
      · rintro (rfl | ⟨hmem, hk⟩)
        · exact ⟨Or.inl rfl, hle⟩
        · exact ⟨Or.inr hmem, hk⟩
      · rintro ⟨rfl | hmem, hk⟩
        · exact Or.inl rfl
        · exact Or.inr ⟨hmem, hk⟩
    · -- nothing is below once one isn't
      have hnil : below key (y :: l) k = [] := by simp [below, hle]
      rw [hnil]
      constructor
      · intro hmem
        simp at hmem
      · rintro ⟨hmem, hk⟩
        rcases List.mem_cons.mp hmem with rfl | hmem
        · exact absurd hk hle
        · exact absurd ((hy x hmem).le.trans hk) hle

lemma Sorted.mem_above (h : Sorted key l) {x : α} : x ∈ above key l k ↔ x ∈ l ∧ k < key x := by
  have hsplit := below_append_above key l k
  constructor
  · intro hmem
    have hl : x ∈ l := by
      rw [← hsplit]
      exact List.mem_append_right _ hmem
    refine ⟨hl, not_le.mp fun hle => ?_⟩
    -- what is below comes before what is above, and is not the same
    have hbelow := h.mem_below.mpr ⟨hl, hle⟩
    rw [← hsplit] at h
    exact lt_irrefl _ ((List.pairwise_append.mp h).2.2 x hbelow x hmem)
  · rintro ⟨hl, hlt⟩
    rw [← hsplit] at hl
    rcases List.mem_append.mp hl with hbelow | habove
    · exact absurd (h.mem_below.mp hbelow).2 (not_le.mpr hlt)
    · exact habove

/-- The value before `upperBound` has the greatest key that isn't above. -/
lemma Sorted.getLast_below (h : Sorted key l) {x : α} (hx : (below key l k).getLast? = some x) :
    x ∈ l ∧ key x ≤ k ∧ ∀ y ∈ l, key y ≤ k → key y ≤ key x := by
  obtain ⟨hmem, hle⟩ := h.mem_below.mp (List.mem_of_getLast? hx)
  refine ⟨hmem, hle, fun y hy hk => ?_⟩
  have hbelow : Sorted key (below key l k) := h.sublist (List.takeWhile_sublist _)
  obtain ⟨init, hinit⟩ := List.getLast?_eq_some_iff.mp hx
  have hymem := h.mem_below.mpr ⟨hy, hk⟩
  rw [hinit] at hbelow hymem
  rcases List.mem_append.mp hymem with hin | heq
  · exact ((List.pairwise_append.mp hbelow).2.2 y hin x (by simp)).le
  · rw [List.mem_singleton.mp heq]

lemma Sorted.getLast_below_none (h : Sorted key l) (hx : (below key l k).getLast? = none) :
    ∀ y ∈ l, k < key y := by
  intro y hy
  rw [List.getLast?_eq_none_iff] at hx
  by_contra hle
  have hmem := h.mem_below.mpr ⟨hy, not_lt.mp hle⟩
  simp [hx] at hmem

/-- The value at `upperBound` has the least key that is above. -/
lemma Sorted.head_above (h : Sorted key l) {x : α} (hx : (above key l k).head? = some x) :
    x ∈ l ∧ k < key x ∧ ∀ y ∈ l, k < key y → key x ≤ key y := by
  obtain ⟨hmem, hlt⟩ := h.mem_above.mp (List.mem_of_head? hx)
  refine ⟨hmem, hlt, fun y hy hk => ?_⟩
  have habove : Sorted key (above key l k) := h.sublist (List.dropWhile_sublist _)
  obtain ⟨rest, hrest⟩ := List.head?_eq_some_iff.mp hx
  have hymem := h.mem_above.mpr ⟨hy, hk⟩
  rw [hrest] at habove hymem
  rcases List.mem_cons.mp hymem with rfl | hin
  · exact le_refl _
  · exact ((List.pairwise_cons.mp habove).1 y hin).le

lemma Sorted.head_above_none (h : Sorted key l) (hx : (above key l k).head? = none) :
    ∀ y ∈ l, key y ≤ k := by
  intro y hy
  rw [List.head?_eq_none_iff] at hx
  by_contra hlt
  have hmem := h.mem_above.mpr ⟨hy, not_le.mp hlt⟩
  simp [hx] at hmem

/-! ## What changes a map -/

lemma mem_emplace {x y : α} (hnew : key x ∉ l.map key) :
    y ∈ emplace key l x ↔ y = x ∨ y ∈ l := by
  rw [emplace, if_neg hnew, List.mem_append, List.mem_cons]
  constructor
  · rintro (hbelow | rfl | habove)
    · exact Or.inr ((List.takeWhile_sublist _).mem hbelow)
    · exact Or.inl rfl
    · exact Or.inr ((List.dropWhile_sublist _).mem habove)
  · rintro (rfl | hmem)
    · exact Or.inr (Or.inl rfl)
    · rw [← below_append_above key l (key x)] at hmem
      rcases List.mem_append.mp hmem with hbelow | habove
      · exact Or.inl hbelow
      · exact Or.inr (Or.inr habove)

lemma Sorted.emplace (h : Sorted key l) (x : α) : Sorted key (emplace key l x) := by
  unfold OrderedMap.emplace
  split_ifs with hold
  · exact h
  · have hbelow : Sorted key (below key l (key x)) := h.sublist (List.takeWhile_sublist _)
    have habove : Sorted key (above key l (key x)) := h.sublist (List.dropWhile_sublist _)
    refine List.pairwise_append.mpr ⟨hbelow, List.pairwise_cons.mpr ⟨?_, habove⟩, ?_⟩
    · exact fun y hy => (h.mem_above.mp hy).2
    · intro y hy z hz
      obtain ⟨hmem, hle⟩ := h.mem_below.mp hy
      -- the key of the value is new, so that one that isn't above it is below
      have hlt : key y < key x :=
        lt_of_le_of_ne hle fun heq => hold (heq ▸ List.mem_map_of_mem hmem)
      rcases List.mem_cons.mp hz with rfl | hz
      · exact hlt
      · exact hlt.trans (h.mem_above.mp hz).2

lemma mem_erase {x : α} : x ∈ erase key l k ↔ x ∈ l ∧ key x ≠ k := by
  simp [erase]

lemma Sorted.erase (h : Sorted key l) (k : K) : Sorted key (erase key l k) :=
  h.sublist List.filter_sublist

end BapNative.OrderedMap
