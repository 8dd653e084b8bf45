import BapNative.Paged.Table

/-!
# Each page there is

`visit` goes through the entries of a node in order, and through the nodes below it, and
calls an action on every page with the address that the page is at.  The action may change
the state that the entries are loaded from; as long as it leaves the table alone, the visit
is a fold over the pages that there are, which come by ascending address.
-/

namespace BapNative

open PointerTree

/-! ## The visit -/

/-- The indices of a node, in order. -/
def indices : List Index := (List.range fanout).map (BitVec.ofNat 13)

/-- `prefix | (index << shift)`: where what is below an entry starts. -/
def nextBase (base : Address) (level : ℕ) (index : Index) : Address :=
  base ||| index.setWidth 64 <<< shiftAt level

/-- The loop of `visit` over the entries of a node. -/
def visitEntries {σ : Type*} (entry : σ → Pointer → Index → Option Pointer)
    (below : Address → Pointer → σ → σ) (level : ℕ) (node : Pointer) (base : Address) (s : σ) : σ :=
  indices.foldl (fun s index =>
    match entry s node index with
    | none => s
    | some child => below (nextBase base level index) child s) s

/-- `visit`, by how many levels there are below the node: `level` is `levels - 1 - left`. -/
def visit {σ : Type*} (entry : σ → Pointer → Index → Option Pointer)
    (action : Address → HostPtr → σ → σ) : ℕ → Pointer → Address → σ → σ
  | 0 => visitEntries entry (fun next child s =>
      match child.asPage with
      | none => s
      | some page => action next page s) (levels - 1)
  | left + 1 => visitEntries entry (fun next child => visit entry action left child next)
      (levels - 1 - (left + 1))

/-- `forEachPage`: each page there is, by ascending address. -/
def forEachPage {σ : Type*} (entry : σ → Pointer → Index → Option Pointer)
    (action : Address → HostPtr → σ → σ) (s : σ) : σ :=
  visit entry action (levels - 1) rootNode 0 s

/-! ## The pages of a table -/

/-- The pages below a node, with where they are. -/
def pagesBelow (entry : Pointer → Index → Option Pointer) :
    ℕ → Pointer → Address → List (Address × HostPtr)
  | 0, node, base => indices.flatMap fun index =>
      ((entry node index).map fun child =>
        (child.asPage.map fun page => (nextBase base 3 index, page)).toList).getD []
  | left + 1, node, base => indices.flatMap fun index =>
      ((entry node index).map fun child =>
        pagesBelow entry left child (nextBase base (3 - (left + 1)) index)).getD []

namespace PagedMemory

/-- The pages of a memory, with where they are. -/
def pages (m : PagedMemory) : List (Address × HostPtr) := pagesBelow m.entry 3 rootNode 0

end PagedMemory

/-! ## A visit is a fold -/

section Fold

variable {σ : Type*} {entry : σ → Pointer → Index → Option Pointer}
  {action : Address → HostPtr → σ → σ}

/-- A fold of an action that leaves the table alone leaves it alone. -/
lemma entry_foldl (hentry : ∀ a p s, entry (action a p s) = entry s)
    (l : List (Address × HostPtr)) (s : σ) :
    entry (l.foldl (fun s page => action page.1 page.2 s) s) = entry s := by
  induction l generalizing s with
  | nil => rfl
  | cons page l ih => rw [List.foldl_cons, ih, hentry]

/-- The loop over the entries of a node, when what is done below each is a fold. -/
lemma visitEntries_eq (hentry : ∀ a p s, entry (action a p s) = entry s)
    (found : (Pointer → Index → Option Pointer) → Address → Pointer → List (Address × HostPtr))
    {below : Address → Pointer → σ → σ}
    (hbelow : ∀ next child s, below next child s =
      (found (entry s) next child).foldl (fun s page => action page.1 page.2 s) s)
    (level : ℕ) (node : Pointer) (base : Address) (s : σ) :
    visitEntries entry below level node base s =
      (indices.flatMap fun index =>
        ((entry s node index).map fun child =>
          found (entry s) (nextBase base level index) child).getD []).foldl
        (fun s page => action page.1 page.2 s) s := by
  unfold visitEntries
  -- the induction is on the indices that are left, with the state that the others have made
  generalize indices = l
  induction l generalizing s with
  | nil => rfl
  | cons index l ih =>
    rw [List.foldl_cons, List.flatMap_cons, List.foldl_append]
    cases hchild : entry s node index with
    | none => exact ih s
    | some child =>
      simp only [Option.map_some, Option.getD_some]
      rw [hbelow, ih, entry_foldl hentry]

/-- **A visit whose action leaves the table alone is a fold over the pages.** -/
theorem visit_eq_foldl (hentry : ∀ a p s, entry (action a p s) = entry s) (left : ℕ)
    (node : Pointer) (base : Address) (s : σ) :
    visit entry action left node base s =
      (pagesBelow (entry s) left node base).foldl (fun s page => action page.1 page.2 s) s := by
  induction left generalizing node base s with
  | zero =>
    rw [visit, visitEntries_eq hentry (fun _ next child =>
      (child.asPage.map fun page => (next, page)).toList) ?_, pagesBelow]
    · rfl
    · intro next child s
      cases child <;> rfl
  | succ left ih =>
    rw [visit, visitEntries_eq hentry (fun entry next child =>
      pagesBelow entry left child next) (fun next child s => ih child next s), pagesBelow]
    rfl

lemma forEachPage_eq_foldl (hentry : ∀ a p s, entry (action a p s) = entry s) (s : σ) :
    forEachPage entry action s =
      (pagesBelow (entry s) 3 rootNode 0).foldl (fun s page => action page.1 page.2 s) s :=
  visit_eq_foldl hentry 3 rootNode 0 s

end Fold

/-! ## Where the pages are -/

lemma shiftAt_of_le {left : ℕ} (h : left ≤ 3) : shiftAt (3 - left) = 12 + left * 13 := by
  simp only [shiftAt, pageBits, levels, levelBits]
  congr 2
  omega

/-- A base below which nothing is set. -/
lemma toNat_nextBase {base : Address} {left : ℕ} (hleft : left ≤ 3)
    (hbase : base.toNat % 2 ^ (12 + (left + 1) * 13) = 0) (index : Index) :
    (nextBase base (3 - left) index).toNat =
      base.toNat + index.toNat * 2 ^ (12 + left * 13) := by
  have hindex := index.isLt
  have hpow : 2 ^ (12 + (left + 1) * 13) = 2 ^ 13 * 2 ^ (12 + left * 13) := by
    rw [← pow_add]
    congr 1
    omega
  have htop : 2 ^ (12 + (left + 1) * 13) ≤ 2 ^ 64 := Nat.pow_le_pow_right (by omega) (by omega)
  have hlt : index.toNat * 2 ^ (12 + left * 13) < 2 ^ (12 + (left + 1) * 13) := by
    rw [hpow]
    exact Nat.mul_lt_mul_of_pos_right hindex (Nat.two_pow_pos _)
  have hwide : (index.setWidth 64).toNat = index.toNat := by
    rw [BitVec.toNat_setWidth, Nat.mod_eq_of_lt (by omega)]
  obtain ⟨q, hq⟩ := Nat.dvd_of_mod_eq_zero hbase
  rw [nextBase, shiftAt_of_le hleft, BitVec.toNat_or, BitVec.toNat_shiftLeft, hwide,
    Nat.shiftLeft_eq, Nat.mod_eq_of_lt (lt_of_lt_of_le hlt htop), hq]
  exact (Nat.two_pow_add_eq_or_of_lt hlt q).symm

/-- Nothing is set below the base of an entry either. -/
lemma nextBase_mod {base : Address} {left : ℕ} (hleft : left ≤ 3)
    (hbase : base.toNat % 2 ^ (12 + (left + 1) * 13) = 0) (index : Index) :
    (nextBase base (3 - left) index).toNat % 2 ^ (12 + left * 13) = 0 := by
  have hbase' : base.toNat % 2 ^ (12 + left * 13) = 0 :=
    Nat.mod_eq_zero_of_dvd (dvd_trans (pow_dvd_pow 2 (by omega)) (Nat.dvd_of_mod_eq_zero hbase))
  rw [toNat_nextBase hleft hbase, Nat.add_mul_mod_self_right, hbase']

/-- What is below an entry is what has the index of the entry and is below its node. -/
lemma div_nextBase_iff {base a : Address} {left : ℕ} (hleft : left ≤ 3)
    (hbase : base.toNat % 2 ^ (12 + (left + 1) * 13) = 0) (index : Index) :
    a.toNat / 2 ^ (12 + left * 13) =
        (nextBase base (3 - left) index).toNat / 2 ^ (12 + left * 13) ↔
      a.toNat / 2 ^ (12 + (left + 1) * 13) = base.toNat / 2 ^ (12 + (left + 1) * 13) ∧
        indexAt a (3 - left) = index := by
  have hindex := index.isLt
  have hpow : 2 ^ (12 + (left + 1) * 13) = 2 ^ (12 + left * 13) * 8192 := by
    rw [show 12 + (left + 1) * 13 = 12 + left * 13 + 13 by omega, pow_add]
    norm_num
  have hpos : 0 < 2 ^ (12 + left * 13) := Nat.two_pow_pos _
  obtain ⟨q, hq⟩ := Nat.dvd_of_mod_eq_zero hbase
  have hidx : indexAt a (3 - left) = index ↔
      a.toNat / 2 ^ (12 + left * 13) % 8192 = index.toNat := by
    rw [← BitVec.toNat_inj, toNat_indexAt, shiftAt_of_le hleft]
  rw [toNat_nextBase hleft hbase, hidx, hpow, ← Nat.div_div_eq_div_mul, ← Nat.div_div_eq_div_mul,
    Nat.add_mul_div_right _ _ hpos, hq, hpow, Nat.mul_assoc, Nat.mul_div_cancel_left _ hpos]
  omega

/-- The indices of an address from a level on. -/
def pathFrom (level : ℕ) (a : Address) : List Index :=
  (List.range' level (4 - level)).map (indexAt a)

lemma pathFrom_succ {left : ℕ} (h : left + 1 ≤ 3) (a : Address) :
    pathFrom (3 - (left + 1)) a = indexAt a (3 - (left + 1)) :: pathFrom (3 - left) a := by
  rw [pathFrom, pathFrom, show 4 - (3 - (left + 1)) = (4 - (3 - left)) + 1 by omega,
    List.range'_succ, List.map_cons, show 3 - (left + 1) + 1 = 3 - left by omega]

lemma mem_indices (index : Index) : index ∈ indices := by
  refine List.mem_map.mpr ⟨index.toNat, ?_, by simp⟩
  simpa using index.isLt

/-- The pages below a node are those of the addresses below its base that lead to one. -/
lemma mem_pagesBelow {entry : Pointer → Index → Option Pointer} {left : ℕ} (hleft : left ≤ 3)
    {node : Pointer} {base : Address} (hbase : base.toNat % 2 ^ (12 + (left + 1) * 13) = 0)
    {a : Address} {page : HostPtr} :
    (a, page) ∈ pagesBelow entry left node base ↔
      a.toNat % 4096 = 0 ∧
        a.toNat / 2 ^ (12 + (left + 1) * 13) = base.toNat / 2 ^ (12 + (left + 1) * 13) ∧
        (walk entry node (pathFrom (3 - left) a)).bind Pointer.asPage = some page := by
  induction left generalizing node base with
  | zero =>
    have hiff := fun index => div_nextBase_iff (a := a) (show 0 ≤ 3 by omega) hbase index
    have hnat := fun index => toNat_nextBase (show 0 ≤ 3 by omega) hbase index
    norm_num at hiff hnat hbase
    have hwalk : walk entry node (pathFrom (3 - 0) a) = entry node (indexAt a 3) := by
      simp [pathFrom]
    rw [hwalk]
    simp only [pagesBelow, List.mem_flatMap]
    constructor
    · rintro ⟨index, -, hmem⟩
      cases hchild : entry node index with
      | none => simp [hchild] at hmem
      | some child =>
        rw [hchild, Option.map_some, Option.getD_some, Option.mem_toList,
          Option.map_eq_some_iff] at hmem
        obtain ⟨page', hpage, heq⟩ := hmem
        obtain ⟨rfl, rfl⟩ := Prod.mk.inj heq
        obtain ⟨h1, h2⟩ := (hiff index).mp rfl
        refine ⟨?_, h1, by rw [h2, hchild]; exact hpage⟩
        rw [hnat]
        omega
    · rintro ⟨h1, h2, h3⟩
      refine ⟨indexAt a 3, mem_indices _, ?_⟩
      cases hchild : entry node (indexAt a 3) with
      | none => simp [hchild] at h3
      | some child =>
        rw [hchild, Option.bind_some] at h3
        rw [Option.map_some, Option.getD_some, Option.mem_toList, h3, Option.map_some,
          Option.some.injEq, Prod.mk.injEq]
        refine ⟨BitVec.eq_of_toNat_eq ?_, rfl⟩
        have hdiv := (hiff (indexAt a 3)).mpr ⟨h2, rfl⟩
        have hnext := hnat (indexAt a 3)
        omega
  | succ left ih =>
    have hiff := fun index => div_nextBase_iff (a := a) hleft hbase index
    have hnext : ∀ index, (nextBase base (3 - (left + 1)) index).toNat %
        2 ^ (12 + (left + 1) * 13) = 0 := fun index => nextBase_mod hleft hbase index
    simp only [pagesBelow, List.mem_flatMap]
    rw [pathFrom_succ hleft, walk_cons]
    constructor
    · rintro ⟨index, -, hmem⟩
      cases hchild : entry node index with
      | none => simp [hchild] at hmem
      | some child =>
        rw [hchild, Option.map_some, Option.getD_some, ih (by omega) (hnext index)] at hmem
        obtain ⟨h1, h2, h3⟩ := hmem
        obtain ⟨h4, h5⟩ := (hiff index).mp h2
        refine ⟨h1, h4, ?_⟩
        rw [h5, hchild]
        exact h3
    · rintro ⟨h1, h2, h3⟩
      refine ⟨indexAt a (3 - (left + 1)), mem_indices _, ?_⟩
      cases hchild : entry node (indexAt a (3 - (left + 1))) with
      | none =>
        rw [hchild] at h3
        simp at h3
      | some child =>
        rw [Option.map_some, Option.getD_some, ih (by omega) (hnext _)]
        refine ⟨h1, (hiff _).mpr ⟨h2, rfl⟩, ?_⟩
        rwa [hchild] at h3

lemma pairwise_indices : indices.Pairwise fun i j => i.toNat < j.toNat := by
  rw [indices, List.pairwise_map]
  refine List.pairwise_lt_range.imp_of_mem ?_
  intro i j hi hj hlt
  simp only [List.mem_range, fanout, levelBits] at hi hj
  rw [BitVec.toNat_ofNat, BitVec.toNat_ofNat, Nat.mod_eq_of_lt hi, Nat.mod_eq_of_lt hj]
  exact hlt

/-- What is below an entry comes before what is below a later one. -/
lemma lt_of_index_lt {base a b : Address} {left : ℕ} (hleft : left ≤ 3)
    (hbase : base.toNat % 2 ^ (12 + (left + 1) * 13) = 0) {i j : Index} (hij : i.toNat < j.toNat)
    (ha : a.toNat / 2 ^ (12 + left * 13) =
      (nextBase base (3 - left) i).toNat / 2 ^ (12 + left * 13))
    (hb : b.toNat / 2 ^ (12 + left * 13) =
      (nextBase base (3 - left) j).toNat / 2 ^ (12 + left * 13)) : a.toNat < b.toNat := by
  have hpos : 0 < 2 ^ (12 + left * 13) := Nat.two_pow_pos _
  rw [toNat_nextBase hleft hbase, Nat.add_mul_div_right _ _ hpos] at ha hb
  by_contra hle
  have hdiv := Nat.div_le_div_right (c := 2 ^ (12 + left * 13)) (not_lt.mp hle)
  omega

lemma pairwise_pagesBelow (entry : Pointer → Index → Option Pointer) {left : ℕ} (hleft : left ≤ 3)
    {node : Pointer} {base : Address} (hbase : base.toNat % 2 ^ (12 + (left + 1) * 13) = 0) :
    (pagesBelow entry left node base).Pairwise fun x y => x.1.toNat < y.1.toNat := by
  induction left generalizing node base with
  | zero =>
    simp only [pagesBelow]
    rw [List.pairwise_flatMap]
    constructor
    · intro index _
      cases entry node index with
      | none => exact List.Pairwise.nil
      | some child => cases child <;> simp [Pointer.asPage]
    · refine pairwise_indices.imp ?_
      intro i j hij x hx y hy
      have hat : ∀ {z : Address × HostPtr} {index : Index},
          z ∈ ((entry node index).map fun child =>
            (child.asPage.map fun page => (nextBase base 3 index, page)).toList).getD [] →
          z.1 = nextBase base 3 index := by
        intro z index hz
        cases hchild : entry node index with
        | none => simp [hchild] at hz
        | some child =>
          rw [hchild, Option.map_some, Option.getD_some, Option.mem_toList,
            Option.map_eq_some_iff] at hz
          obtain ⟨page, -, rfl⟩ := hz
          rfl
      exact lt_of_index_lt (by omega) hbase hij (by rw [hat hx]) (by rw [hat hy])
  | succ left ih =>
    have hnext : ∀ index, (nextBase base (3 - (left + 1)) index).toNat %
        2 ^ (12 + (left + 1) * 13) = 0 := fun index => nextBase_mod hleft hbase index
    simp only [pagesBelow]
    rw [List.pairwise_flatMap]
    constructor
    · intro index _
      cases entry node index with
      | none => exact List.Pairwise.nil
      | some child => exact ih (by omega) (hnext index)
    · refine pairwise_indices.imp ?_
      intro i j hij x hx y hy
      have hat : ∀ {z : Address × HostPtr} {index : Index},
          z ∈ ((entry node index).map fun child =>
            pagesBelow entry left child (nextBase base (3 - (left + 1)) index)).getD [] →
          z.1.toNat / 2 ^ (12 + (left + 1) * 13) =
            (nextBase base (3 - (left + 1)) index).toNat / 2 ^ (12 + (left + 1) * 13) := by
        intro z index hz
        cases hchild : entry node index with
        | none => simp [hchild] at hz
        | some child =>
          rw [hchild, Option.map_some, Option.getD_some] at hz
          exact ((mem_pagesBelow (by omega) (hnext index)).mp hz).2.1
      exact lt_of_index_lt hleft hbase hij (hat hx) (hat hy)

namespace PagedMemory

/-- **The pages of a memory come by ascending address.** -/
theorem pairwise_pages (m : PagedMemory) : m.pages.Pairwise fun x y => x.1.toNat < y.1.toNat :=
  pairwise_pagesBelow m.entry (by omega) (by simp)

/-- **The pages of a memory are those that are found, each at where it starts.** -/
theorem mem_pages {m : PagedMemory} {a : Address} {page : HostPtr} :
    (a, page) ∈ m.pages ↔ a.toNat % 4096 = 0 ∧ m.find a = some page := by
  have ha := a.isLt
  have hpath : pathFrom (3 - 3) a = path a := by
    simp [pathFrom, path, List.range_eq_range']
  rw [pages, mem_pagesBelow (by omega) (by simp), find_eq, reach, hpath]
  norm_num
  omega

/-- A page that is found is one of them. -/
lemma pageBase_mem_pages {m : PagedMemory} {a : Address} {page : HostPtr}
    (h : m.find a = some page) : (pageBase a, page) ∈ m.pages := by
  have hbase := toNat_pageBase a
  exact mem_pages.mpr ⟨by omega, (find_congr m (by omega)).trans h⟩

end PagedMemory

end BapNative
