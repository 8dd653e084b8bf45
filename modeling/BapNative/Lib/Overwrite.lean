import Mathlib

/-!
# Total maps that are written over

A memory, seen from outside, is a total map from addresses to values, and an operation
writes over it: some addresses get a value, the others keep theirs.  This file has the
three forms in which an operation says what it writes — a list of cells, later over
earlier, a partial map, and a set of addresses that get the values of another map — and
the reading of a whole log of writes: the value at an address is the one last written
there.

Addresses that follow each other do so in a cyclic space, so that a span of cells which
passes the last address goes on at the first one.
-/

namespace BapNative.Overwrite

variable {A V : Type*}

/-! ## Cells -/

section Cells

variable [DecidableEq A]

/-- The map after the cells of a list are written, one after the other. -/
def writes (f : A → V) (cells : List (A × V)) : A → V :=
  cells.foldl (fun f cell => Function.update f cell.1 cell.2) f

@[simp] lemma writes_nil (f : A → V) : writes f [] = f := rfl

@[simp] lemma writes_cons (f : A → V) (cell : A × V) (cells : List (A × V)) :
    writes f (cell :: cells) = writes (Function.update f cell.1 cell.2) cells := rfl

lemma writes_append (f : A → V) (cells cells' : List (A × V)) :
    writes f (cells ++ cells') = writes (writes f cells) cells' := by
  simp [writes, List.foldl_append]

/-- What the cells of a list last say of an address. -/
def lastCell : List (A × V) → A → Option V
  | [], _ => none
  | cell :: cells, a => (lastCell cells a).or (if cell.1 = a then some cell.2 else none)

/-- Writing cells is writing the partial map of what they last say. -/
lemma writes_apply (f : A → V) (cells : List (A × V)) (a : A) :
    writes f cells a = (lastCell cells a).getD (f a) := by
  induction cells generalizing f with
  | nil => rfl
  | cons cell cells ih =>
    rw [writes_cons, ih, lastCell]
    cases h : lastCell cells a with
    | some v => simp
    | none =>
      by_cases ha : cell.1 = a
      · subst ha
        simp
      · rw [Function.update_of_ne (Ne.symm ha)]
        simp [ha]

/-- An address that no cell names keeps its value. -/
lemma writes_of_notMem (f : A → V) {cells : List (A × V)} {a : A}
    (h : a ∉ cells.map Prod.fst) : writes f cells a = f a := by
  induction cells generalizing f with
  | nil => rfl
  | cons cell cells ih =>
    simp only [List.map_cons, List.mem_cons, not_or] at h
    rw [writes_cons, ih _ h.2, Function.update_of_ne h.1]

/-- Where cells of a partial map are written, the value is the one that it has. -/
lemma some_writes_of_graph (f : A → V) {cells : List (A × V)} {w : A → Option V}
    (h : ∀ a v, (a, v) ∈ cells → w a = some v) {a : A} (ha : a ∈ cells.map Prod.fst) :
    some (writes f cells a) = w a := by
  induction cells generalizing f with
  | nil => simp at ha
  | cons cell cells ih =>
    rw [writes_cons]
    by_cases hmem : a ∈ cells.map Prod.fst
    · exact ih _ (fun b v hb => h b v (List.mem_cons_of_mem _ hb)) hmem
    · obtain rfl : a = cell.1 := by simpa [hmem] using ha
      rw [writes_of_notMem _ hmem, Function.update_self, h cell.1 cell.2 List.mem_cons_self]

/-- A partial map has a value where one is written, and where it had one. -/
lemma isSome_writes {f : A → Option V} {cells : List (A × V)} {a : A}
    (h : a ∈ cells.map Prod.fst ∨ (f a).isSome) :
    (writes f (cells.map fun cell => (cell.1, some cell.2)) a).isSome := by
  induction cells generalizing f with
  | nil => simpa using h
  | cons cell cells ih =>
    rw [List.map_cons, writes_cons]
    refine ih ?_
    by_cases ha : a = cell.1
    · subst ha
      simp
    · rw [Function.update_of_ne ha]
      simpa [ha] using h

/-- Writing at every address of a list what a map has there. -/
lemma writes_map_graph (f g : A → V) (places : List A) (a : A) :
    writes f (places.map fun b => (b, g b)) a = if a ∈ places then g a else f a := by
  induction places generalizing f with
  | nil => rfl
  | cons b places ih =>
    rw [List.map_cons, writes_cons, ih]
    by_cases hmem : a ∈ places
    · simp [hmem]
    · by_cases hab : a = b
      · subst hab
        simp [hmem]
      · simp [hmem, hab]

end Cells

/-! ## Logs of partial maps -/

/-- A map with a partial one written over it. -/
def patch (f : A → V) (w : A → Option V) : A → V := fun a => (w a).getD (f a)

/-- Cells that are all of a partial map write it. -/
lemma writes_of_graph [DecidableEq A] (f : A → V) {cells : List (A × V)} {w : A → Option V}
    (h : ∀ a v, (a, v) ∈ cells ↔ w a = some v) : writes f cells = patch f w := by
  funext a
  by_cases ha : a ∈ cells.map Prod.fst
  · rw [patch, ← some_writes_of_graph f (fun b v => (h b v).mp) ha, Option.getD_some]
  · have hnone : w a = none := by
      refine Option.eq_none_iff_forall_ne_some.mpr fun v hv => ha ?_
      exact List.mem_map.mpr ⟨(a, v), (h a v).mpr hv, rfl⟩
    rw [writes_of_notMem f ha, patch, hnone, Option.getD_none]

/-- Cells may be written to a map, or to a partial one that is then written over it. -/
lemma patch_writes [DecidableEq A] (f : A → V) (w : A → Option V) (cells : List (A × V)) :
    patch f (writes w (cells.map fun cell => (cell.1, some cell.2))) =
      writes (patch f w) cells := by
  induction cells generalizing w with
  | nil => rfl
  | cons cell cells ih =>
    rw [List.map_cons, writes_cons, ih, writes_cons]
    congr 1
    funext a
    by_cases ha : a = cell.1
    · simp [patch, ha]
    · simp [patch, ha]

/-- What a log of partial maps, the oldest first, last says of an address. -/
def lastWritten : List (A → Option V) → A → Option V
  | [], _ => none
  | w :: log, a => (lastWritten log a).or (w a)

/-- **A map written over by a log has at every address what was last written there.** -/
theorem foldl_patch_apply (log : List (A → Option V)) (f : A → V) (a : A) :
    log.foldl patch f a = (lastWritten log a).getD (f a) := by
  induction log generalizing f with
  | nil => rfl
  | cons w log ih =>
    rw [List.foldl_cons, ih, lastWritten]
    cases lastWritten log a <;> simp [patch]

/-! ## Sets that are written over -/

/-- `f'` has the values of `g` on a set, and those of `f` elsewhere. -/
structure Over (g : A → V) (S : Set A) (f f' : A → V) : Prop where
  on : ∀ a ∈ S, f' a = g a
  off : ∀ a ∉ S, f' a = f a

namespace Over

variable {f f' f'' g : A → V} {S T : Set A}

lemma refl (g f : A → V) : Over g ∅ f f :=
  ⟨fun _ ha => absurd ha (Set.notMem_empty _), fun _ _ => rfl⟩

lemma trans (h : Over g S f f') (h' : Over g T f' f'') : Over g (S ∪ T) f f'' := by
  refine ⟨fun a ha => ?_, fun a ha => ?_⟩
  · by_cases hT : a ∈ T
    · exact h'.on a hT
    · rw [h'.off a hT]
      exact h.on a (ha.resolve_right hT)
  · rw [Set.mem_union, not_or] at ha
    rw [h'.off a ha.2, h.off a ha.1]

/-- An address that has its new value already may be counted or not. -/
lemma extend (h : Over g S f f') (hsub : S ⊆ T) (hsame : ∀ a ∈ T, a ∉ S → f a = g a) :
    Over g T f f' := by
  refine ⟨fun a ha => ?_, fun a ha => h.off a fun hS => ha (hsub hS)⟩
  by_cases hS : a ∈ S
  · exact h.on a hS
  · rw [h.off a hS, hsame a ha hS]

/-- Fewer addresses have other values than `g` afterwards: those of the set don't any more. -/
lemma ncard_ne [Finite A] (h : Over g S f f') :
    {a | a ∈ S ∧ f a ≠ g a}.ncard + {a | f' a ≠ g a}.ncard = {a | f a ≠ g a}.ncard := by
  have hin : {a | a ∈ S ∧ f a ≠ g a} = {a | f a ≠ g a} ∩ S := by
    ext a
    exact and_comm
  have hout : {a | f' a ≠ g a} = {a | f a ≠ g a} \ S := by
    ext a
    by_cases ha : a ∈ S
    · simp [ha, h.on a ha]
    · simp [ha, h.off a ha]
  rw [hin, hout]
  exact Set.ncard_inter_add_ncard_sdiff_eq_ncard _ _

/-- A loop each step of which writes over its own set, under an invariant of the loop. -/
lemma foldl {σ ι : Type*} (read : σ → A → V) (Inv : σ → Prop) {step : σ → ι → σ}
    (part : ι → Set A) {l : List ι}
    (hstep : ∀ i ∈ l, ∀ s, Inv s → Inv (step s i) ∧ Over g (part i) (read s) (read (step s i)))
    {s : σ} (hs : Inv s) :
    Inv (l.foldl step s) ∧ Over g {a | ∃ i ∈ l, a ∈ part i} (read s) (read (l.foldl step s)) := by
  induction l generalizing s with
  | nil => exact ⟨hs, (refl g _).extend (Set.empty_subset _) (by simp)⟩
  | cons i l ih =>
    obtain ⟨hinv, hover⟩ := hstep i List.mem_cons_self s hs
    obtain ⟨hinv', hover'⟩ := ih (fun j hj => hstep j (List.mem_cons_of_mem _ hj)) hinv
    refine ⟨hinv', (hover.trans hover').extend ?_ ?_⟩
    · rintro a (ha | ⟨j, hj, ha⟩)
      · exact ⟨i, List.mem_cons_self, ha⟩
      · exact ⟨j, List.mem_cons_of_mem _ hj, ha⟩
    · rintro a ⟨j, hj, ha⟩ hnot
      rw [Set.mem_union, not_or] at hnot
      rcases List.mem_cons.mp hj with rfl | hj
      · exact absurd ha hnot.1
      · exact absurd ⟨j, hj, ha⟩ hnot.2

end Over

/-! ## Spans of a cyclic address space -/

section Spans

variable {n : ℕ}

/-- The cells of values that follow each other from an address on. -/
def span (a : BitVec n) : List V → List (BitVec n × V)
  | [] => []
  | v :: vs => (a, v) :: span (a + 1#n) vs

@[simp] lemma span_nil (a : BitVec n) : span a ([] : List V) = [] := rfl

@[simp] lemma span_cons (a : BitVec n) (v : V) (vs : List V) :
    span a (v :: vs) = (a, v) :: span (a + 1#n) vs := rfl

lemma ofNat_succ_add (a : BitVec n) (k : ℕ) :
    a + 1#n + BitVec.ofNat n k = a + BitVec.ofNat n (k + 1) := by
  rw [BitVec.add_assoc, BitVec.add_comm 1#n, BitVec.ofNat_add]

lemma span_append (a : BitVec n) (vs vs' : List V) :
    span a (vs ++ vs') = span a vs ++ span (a + BitVec.ofNat n vs.length) vs' := by
  induction vs generalizing a with
  | nil => simp
  | cons v vs ih => simp [ih, ofNat_succ_add]

lemma map_snd_span (a : BitVec n) (vs : List V) : (span a vs).map Prod.snd = vs := by
  induction vs generalizing a with
  | nil => rfl
  | cons v vs ih => rw [span_cons, List.map_cons, ih]

/-- The addresses of a span. -/
lemma mem_map_fst_span {a b : BitVec n} {vs : List V} :
    b ∈ (span a vs).map Prod.fst ↔ ∃ i < vs.length, a + BitVec.ofNat n i = b := by
  induction vs generalizing a with
  | nil => simp
  | cons v vs ih =>
    rw [span_cons, List.map_cons, List.mem_cons, ih]
    constructor
    · rintro (rfl | ⟨i, hi, rfl⟩)
      · exact ⟨0, by simp, by simp⟩
      · exact ⟨i + 1, by simpa using hi, by rw [ofNat_succ_add]⟩
    · rintro ⟨i, hi, rfl⟩
      cases i with
      | zero => exact Or.inl (by simp)
      | succ i => exact Or.inr ⟨i, by simpa using hi, by rw [ofNat_succ_add]⟩

/-- A span that ends within the address space, read at an address. -/
lemma writes_span_apply (f : BitVec n → V) (a b : BitVec n) (vs : List V)
    (h : a.toNat + vs.length ≤ 2 ^ n) :
    writes f (span a vs) b =
      if a.toNat ≤ b.toNat then (vs[b.toNat - a.toNat]?).getD (f b) else f b := by
  induction vs generalizing a f with
  | nil => simp
  | cons v vs ih =>
    simp only [List.length_cons] at h
    rw [span_cons, writes_cons]
    cases vs with
    | nil =>
      by_cases hab : b = a
      · subst hab
        simp
      · have hne : b.toNat ≠ a.toNat := fun h' => hab (BitVec.eq_of_toNat_eq h')
        rw [span_nil, writes_nil, Function.update_of_ne hab]
        by_cases hle : a.toNat ≤ b.toNat
        · have hpos : b.toNat - a.toNat ≠ 0 := by omega
          rw [if_pos hle, List.getElem?_eq_none (by simp; omega)]
          rfl
        · rw [if_neg hle]
    | cons v' vs =>
      -- with a second value there is a next address, so that adding one does not wrap
      have hone : 1 < 2 ^ n := by
        simp only [List.length_cons] at h
        omega
      have hnext : (a + 1#n).toNat = a.toNat + 1 := by
        simp only [List.length_cons] at h
        rw [BitVec.toNat_add, BitVec.toNat_ofNat, Nat.mod_eq_of_lt hone,
          Nat.mod_eq_of_lt (by omega)]
      rw [ih _ _ (by rw [hnext]; omega), hnext]
      by_cases hab : b = a
      · subst hab
        simp
      · have hne : b.toNat ≠ a.toNat := fun h' => hab (BitVec.eq_of_toNat_eq h')
        rw [Function.update_of_ne hab]
        by_cases hle : a.toNat ≤ b.toNat
        · obtain ⟨k, hk⟩ : ∃ k, b.toNat - a.toNat = k + 1 := ⟨b.toNat - a.toNat - 1, by omega⟩
          rw [if_pos (by omega), if_pos hle, hk, List.getElem?_cons_succ,
            show b.toNat - (a.toNat + 1) = k by omega]
        · rw [if_neg (by omega), if_neg hle]

/-- The values of a map at the addresses that follow each other from one on. -/
def values (f : BitVec n → V) (a : BitVec n) (count : ℕ) : List V :=
  (List.range count).map fun i => f (a + BitVec.ofNat n i)

@[simp] lemma length_values (f : BitVec n → V) (a : BitVec n) (count : ℕ) :
    (values f a count).length = count := by simp [values]

lemma values_add (f : BitVec n → V) (a : BitVec n) (k l : ℕ) :
    values f a (k + l) = values f a k ++ values f (a + BitVec.ofNat n k) l := by
  simp only [values, List.range_add, List.map_append, List.map_map]
  congr 1
  apply List.map_congr_left
  intro i _
  simp only [Function.comp_apply]
  rw [BitVec.ofNat_add, BitVec.add_assoc]

/-- The cells of what a map has from an address on. -/
lemma span_values (f : BitVec n → V) (a : BitVec n) (count : ℕ) :
    span a (values f a count) =
      (List.range count).map fun i => (a + BitVec.ofNat n i, f (a + BitVec.ofNat n i)) := by
  induction count generalizing a with
  | zero => rfl
  | succ count ih =>
    have hvalues : values f a (count + 1) = f a :: values f (a + 1#n) count := by
      rw [Nat.add_comm, values_add]
      simp [values]
    rw [hvalues, span_cons, ih, List.range_succ_eq_map, List.map_cons, List.map_map]
    congr 1
    · simp
    · apply List.map_congr_left
      intro i _
      rw [Function.comp_apply, ofNat_succ_add]

end Spans

end BapNative.Overwrite
