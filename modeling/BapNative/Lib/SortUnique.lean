import Mathlib

/-!
# Sorting and removing repetitions

A list that is sorted and then loses what repeats its neighbour has the same members as
before, in ascending order and each once.
-/

namespace BapNative.SortUnique

variable {α : Type*} [DecidableEq α]

/-- A list without what repeats its neighbour, as `std::unique` leaves it. -/
def unique : List α → List α
  | [] => []
  | [a] => [a]
  | a :: b :: l => if a = b then unique (b :: l) else a :: unique (b :: l)

@[simp] lemma mem_unique {a : α} {l : List α} : a ∈ unique l ↔ a ∈ l := by
  induction l using unique.induct with
  | case1 => rfl
  | case2 b => rfl
  | case3 b l ih =>
    rw [unique, if_pos rfl, ih]
    simp
  | case4 b c l hbc ih =>
    rw [unique, if_neg hbc, List.mem_cons, ih]
    simp

variable [LE α]

/-- What `std::sort`, `std::unique` and `erase` make of a vector.  How it is sorted makes no
difference, as equal values are the same. -/
def sortUnique [DecidableLE α] (l : List α) : List α := unique (l.insertionSort (· ≤ ·))

@[simp] lemma mem_sortUnique [DecidableLE α] {a : α} {l : List α} :
    a ∈ sortUnique l ↔ a ∈ l := by
  simp [sortUnique]

variable [LT α] [Std.IsLinearOrder α] [Std.LawfulOrderLT α]

/-- A sorted list without repeated neighbours is strictly ascending. -/
lemma pairwise_unique {l : List α} (h : l.Pairwise (· ≤ ·)) : (unique l).Pairwise (· < ·) := by
  induction l using unique.induct with
  | case1 => exact List.Pairwise.nil
  | case2 b => exact List.pairwise_singleton _ _
  | case3 b l ih =>
    rw [unique, if_pos rfl]
    exact ih h.of_cons
  | case4 b c l hbc ih =>
    rw [unique, if_neg hbc, List.pairwise_cons]
    refine ⟨fun a ha => ?_, ih h.of_cons⟩
    rw [mem_unique] at ha
    have hbc' : b ≤ c := (List.pairwise_cons.mp h).1 c (by simp)
    have hca : c ≤ a := by
      rcases List.mem_cons.mp ha with rfl | ha
      · exact Std.le_refl _
      · exact (List.pairwise_cons.mp h.of_cons).1 a ha
    -- what is not below its neighbour is equal to it
    refine Std.LawfulOrderLT.lt_iff b a |>.mpr ⟨Std.le_trans hbc' hca, fun hab => hbc ?_⟩
    exact Std.le_antisymm hbc' (Std.le_trans hca hab)

/-- **Sorting and removing repetitions leaves a strictly ascending list.** -/
theorem pairwise_sortUnique [DecidableLE α] (l : List α) : (sortUnique l).Pairwise (· < ·) := by
  have htotal : Std.Total (α := α) (· ≤ ·) := ⟨fun _ _ => Std.le_total⟩
  have htrans : IsTrans α (· ≤ ·) := ⟨fun _ _ _ => Std.le_trans⟩
  exact pairwise_unique (List.pairwise_insertionSort (· ≤ ·) l)

end BapNative.SortUnique
