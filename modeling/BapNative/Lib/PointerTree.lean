import Mathlib

/-!
# Trees of pointers

Nodes of a heap hold pointers to further nodes, each at an index.  A path of indices
leads from the root to at most one pointer (`walk`).  When no pointer is the end of two
paths the heap is a tree, and then hanging a fresh pointer into a free entry changes
the end of exactly one path: the one through that entry.  This is what makes a table
whose nodes are made on the way down behave as the finite map from paths to pointers
that its reader takes it for.
-/

namespace BapNative.PointerTree

variable {P ι : Type*}

/-- The pointer that a path of indices leads to. -/
def walk (entries : P → ι → Option P) (root : P) (path : List ι) : Option P :=
  path.foldlM entries root

section Walk

variable (entries : P → ι → Option P) (root : P)

@[simp] lemma walk_nil : walk entries root [] = some root := rfl

@[simp] lemma walk_cons (i : ι) (path : List ι) :
    walk entries root (i :: path) = (entries root i).bind fun child => walk entries child path :=
  rfl

lemma walk_append (path path' : List ι) :
    walk entries root (path ++ path') =
      (walk entries root path).bind fun node => walk entries node path' := by
  simp [walk, List.foldlM_append]

lemma walk_concat (path : List ι) (i : ι) :
    walk entries root (path ++ [i]) = (walk entries root path).bind fun node => entries node i := by
  rw [walk_append]
  congr 1
  funext node
  simp

end Walk

/-- Two heaps that agree on what can be reached lead to the same pointers. -/
lemma walk_congr {entries entries' : P → ι → Option P} {root : P}
    (h : ∀ path node, walk entries root path = some node → entries' node = entries node)
    (path : List ι) : walk entries' root path = walk entries root path := by
  induction path using List.reverseRecOn with
  | nil => rfl
  | append_singleton path i ih =>
    rw [walk_concat, walk_concat, ih]
    cases hw : walk entries root path with
    | none => rfl
    | some node => simp [h path node hw]

/-- No pointer is the end of two paths. -/
def IsTree (entries : P → ι → Option P) (root : P) : Prop :=
  ∀ ⦃path path' node⦄, walk entries root path = some node → walk entries root path' = some node →
    path = path'

/-- A pointer that nothing leads to, and that leads to nothing. -/
structure Fresh (entries : P → ι → Option P) (root : P) (node : P) : Prop where
  unreached : ∀ path, walk entries root path ≠ some node
  bare : ∀ i, entries node i = none

section Link

variable [DecidableEq P] [DecidableEq ι]

/-- The heap with `child` in the entry `i` of `node`. -/
def link (entries : P → ι → Option P) (node : P) (i : ι) (child : P) : P → ι → Option P :=
  Function.update entries node (Function.update (entries node) i (some child))

variable {entries : P → ι → Option P} {root node child : P} {i : ι} {path : List ι}

lemma link_of_ne {other : P} (h : other ≠ node) (j : ι) :
    link entries node i child other j = entries other j := by
  rw [link, Function.update_of_ne h]

@[simp] lemma link_self : link entries node i child node i = some child := by simp [link]

lemma link_index_ne {j : ι} (h : j ≠ i) :
    link entries node i child node j = entries node j := by
  simp [link, h]

/-- **Hanging a fresh pointer into a free entry changes the end of one path.** -/
theorem walk_link (htree : IsTree entries root) (hnode : walk entries root path = some node)
    (hfree : entries node i = none) (hfresh : Fresh entries root child) (q : List ι) :
    walk (link entries node i child) root q =
      if q = path ++ [i] then some child else walk entries root q := by
  induction q using List.reverseRecOn with
  | nil => rw [if_neg (by simp)]; rfl
  | append_singleton q j ih =>
    have hchild : child ≠ node := fun h => hfresh.unreached path (h ▸ hnode)
    rw [walk_concat, walk_concat, ih]
    by_cases hq : q = path ++ [i]
    · -- below the new pointer there is nothing, and there was nothing
      have hold : walk entries root (path ++ [i]) = none := by
        rw [walk_concat, hnode]
        exact hfree
      rw [if_pos hq, if_neg (by rw [hq]; simp), hq, hold, Option.bind_some, link_of_ne hchild,
        hfresh.bare j]
      rfl
    · rw [if_neg hq]
      cases hw : walk entries root q with
      | none =>
        have hne : q ≠ path := fun h => by rw [h, hnode] at hw; exact absurd hw (by simp)
        rw [if_neg (by simp [hne])]
        rfl
      | some other =>
        by_cases hother : other = node
        · subst hother
          obtain rfl : q = path := htree hw hnode
          by_cases hj : j = i
          · subst hj
            simp
          · rw [if_neg (by simp [hj]), Option.bind_some, Option.bind_some, link_index_ne hj]
        · have hne : q ≠ path := fun h => by
            rw [h, hnode] at hw
            exact hother (Option.some.inj hw).symm
          rw [if_neg (by simp [hne]), Option.bind_some, Option.bind_some, link_of_ne hother]

lemma IsTree.link (htree : IsTree entries root) (hnode : walk entries root path = some node)
    (hfree : entries node i = none) (hfresh : Fresh entries root child) :
    IsTree (link entries node i child) root := by
  intro p q other hp hq
  rw [walk_link htree hnode hfree hfresh] at hp hq
  by_cases h1 : p = path ++ [i] <;> by_cases h2 : q = path ++ [i]
  · rw [h1, h2]
  · rw [if_pos h1] at hp
    rw [if_neg h2, ← hp] at hq
    exact absurd hq (hfresh.unreached q)
  · rw [if_pos h2] at hq
    rw [if_neg h1, ← hq] at hp
    exact absurd hp (hfresh.unreached p)
  · rw [if_neg h1] at hp
    rw [if_neg h2] at hq
    exact htree hp hq

end Link

end BapNative.PointerTree
