import BapNative.Paged.Words

/-!
# Bytes in bulk

`fill` copies bytes into a memory a page at a time.  What is all zeros makes no page, which
is found by comparing the bytes with themselves one further on.  It stops at the end of the
address space, which it knows by an address that is below the first one.
-/

namespace BapNative

open Block Overwrite

namespace PagedMemory

/-- How much of `size` bytes from an address on is in its page: the `count` of `fill`. -/
def pageCount (address : Address) (size : ℕ) : ℕ :=
  if pageSize - pageOffset address < size then pageSize - pageOffset address else size

lemma pageOffset_add_pageCount_le (address : Address) (size : ℕ) :
    address.toNat % 4096 + pageCount address size ≤ 4096 := by
  have h := pageOffset_eq address
  unfold pageCount
  split_ifs <;> simp only [pageSize, pageBits] at * <;> omega

lemma pageCount_le (address : Address) (size : ℕ) : pageCount address size ≤ size := by
  unfold pageCount
  split_ifs <;> omega

lemma pageCount_pos (address : Address) {size : ℕ} (hsize : size ≠ 0) :
    0 < pageCount address size := by
  have h := pageOffset_eq address
  unfold pageCount
  split_ifs <;> simp only [pageSize, pageBits] at * <;> omega

/-- Whether bytes are all zeros, as `fill` finds it: the first is, and `memcmp` sees no
difference between them and what is one further on. -/
def allZero (bytes : List Byte) : Bool :=
  bytes.headI == 0 && bytes.take (bytes.length - 1) == bytes.drop 1

/-- The body of the loop of `fill`: bytes that are in one page. -/
def fillPage (m : PagedMemory) (at_ : Address) (bytes : List Byte) : PagedMemory :=
  let (found, m) := if allZero bytes then (m.find at_, m) else m.ensure at_
  match found with
  | none => m
  | some page => m.setBytes (page.plus (pageOffset at_)) bytes

/-- The loop of `fill`, from `at_` on. -/
def fillFrom (m : PagedMemory) (address at_ : Address) (bytes : List Byte) : PagedMemory :=
  if bytes.length = 0 then m
  else if at_ < address then m
  else
    let count := pageCount at_ bytes.length
    (m.fillPage at_ (bytes.take count)).fillFrom address (at_ + BitVec.ofNat 64 count)
      (bytes.drop count)
termination_by bytes.length
decreasing_by
  have := pageCount_pos at_ ‹_›
  simp only [List.length_drop]
  omega

/-- `fill`: bytes in bulk, later over earlier. -/
def fill (m : PagedMemory) (address : Address) (bytes : List Byte) : PagedMemory :=
  m.fillFrom address address bytes

/-! ## What is all zeros -/

/-- Bytes of which the first is zero, and each the same as the next, are all zeros. -/
lemma eq_zero_of_take_eq_drop {byte : Byte} {bytes : List Byte} (hbyte : byte = 0)
    (h : (byte :: bytes).take bytes.length = bytes) : ∀ b ∈ bytes, b = 0 := by
  induction bytes generalizing byte with
  | nil => simp
  | cons next bytes ih =>
    rw [List.length_cons, List.take_succ_cons, List.cons.injEq] at h
    have hnext : next = 0 := h.1 ▸ hbyte
    intro b hb
    rcases List.mem_cons.mp hb with rfl | hb
    · exact hnext
    · exact ih hnext h.2 b hb

lemma allZero_iff {bytes : List Byte} : allZero bytes = true ↔ ∀ byte ∈ bytes, byte = 0 := by
  rw [allZero, Bool.and_eq_true, beq_iff_eq, beq_iff_eq]
  constructor
  · rintro ⟨hhead, hsame⟩
    cases bytes with
    | nil => simp
    | cons byte bytes =>
      have hrest := eq_zero_of_take_eq_drop hhead hsame
      intro b hb
      rcases List.mem_cons.mp hb with rfl | hb
      · exact hhead
      · exact hrest b hb
  · intro hall
    rw [List.eq_replicate_of_mem hall]
    cases bytes.length with
    | zero => exact ⟨rfl, rfl⟩
    | succ n =>
      refine ⟨rfl, ?_⟩
      rw [List.length_replicate, List.take_replicate, List.drop_replicate,
        min_eq_left (by omega)]

/-! ## What is filled -/

/-- Bytes that are in one page. -/
lemma WellFormed.wrote_fillPage {m : PagedMemory} (h : m.WellFormed) {a : Address}
    (bytes : List Byte) (hlen : a.toNat % 4096 + bytes.length ≤ 4096) :
    Wrote m (span a bytes) (m.fillPage a bytes) := by
  by_cases hzero : allZero bytes = true
  · cases hfind : m.find a with
    | none =>
      have heq : m.fillPage a bytes = m := by simp only [fillPage, hzero, hfind, if_true]
      rw [heq]
      exact ⟨h, byteAt_eq_writes_zeros hfind (allZero_iff.mp hzero) hlen, rfl, KeepsPages.refl m⟩
    | some page =>
      simp only [fillPage, hzero, hfind, if_true, pageOffset_eq]
      exact h.wrote_setBytes hfind bytes hlen
  · obtain ⟨page, hpage, hens⟩ := h.ensure_spec a
    simp only [fillPage, hzero, Bool.false_eq_true, if_false, hpage, pageOffset_eq]
    exact hens.wrote.trans (hens.wf.wrote_setBytes hens.find_self bytes hlen)

/-- However much is filled, the memory stays one. -/
lemma WellFormed.wf_fillFrom {m : PagedMemory} (h : m.WellFormed) (address at_ : Address)
    (bytes : List Byte) : (m.fillFrom address at_ bytes).WellFormed := by
  fun_induction PagedMemory.fillFrom m address at_ bytes with
  | case1 => exact h
  | case2 => exact h
  | case3 m at_ bytes hempty hnot count ih =>
    have hin := pageOffset_add_pageCount_le at_ bytes.length
    have hlen : (bytes.take count).length ≤ count := List.length_take_le _ _
    exact ih (h.wrote_fillPage _ (by omega)).wf

lemma WellFormed.wf_fill {m : PagedMemory} (h : m.WellFormed) (a : Address)
    (bytes : List Byte) : (m.fill a bytes).WellFormed := h.wf_fillFrom a a bytes

/-- The loop of `fill`: what is left ends within the address space, or is cut off there. -/
lemma WellFormed.wrote_fillFrom {m : PagedMemory} (h : m.WellFormed) {address at_ : Address}
    {bytes : List Byte} (hle : address.toNat ≤ at_.toNat)
    (hsize : at_.toNat - address.toNat + bytes.length ≤ 2 ^ 64) :
    Wrote m (span at_ (bytes.take (2 ^ 64 - at_.toNat))) (m.fillFrom address at_ bytes) := by
  induction hn : bytes.length using Nat.strongRecOn generalizing m at_ bytes with
  | ind n ih =>
    have hat := at_.isLt
    have hnot : ¬ at_ < address := by
      rw [BitVec.lt_def]
      omega
    rw [fillFrom]
    by_cases hempty : bytes.length = 0
    · rw [if_pos hempty, List.length_eq_zero_iff.mp hempty, List.take_nil]
      exact Wrote.refl h
    · rw [if_neg hempty, if_neg hnot]
      simp only
      have hpos := pageCount_pos at_ hempty
      have hcount := pageCount_le at_ bytes.length
      have hin := pageOffset_add_pageCount_le at_ bytes.length
      generalize pageCount at_ bytes.length = count at hpos hcount hin ⊢
      have htake : (bytes.take count).length = count := by
        rw [List.length_take, min_eq_left hcount]
      have hpage := h.wrote_fillPage (bytes.take count) (by rw [htake]; exact hin)
      have hroom : count ≤ 2 ^ 64 - at_.toNat := by omega
      have hsplit : bytes.take (2 ^ 64 - at_.toNat) =
          bytes.take count ++ (bytes.drop count).take (2 ^ 64 - at_.toNat - count) := by
        rw [← List.take_add, Nat.add_sub_cancel' hroom]
      rw [hsplit, span_append, htake]
      refine hpage.trans ?_
      by_cases hlast : at_.toNat + count < 2 ^ 64
      · have hnext := toNat_add_ofNat hlast
        have hrest := ih (bytes.drop count).length (by rw [List.length_drop]; omega) hpage.wf
          (show address.toNat ≤ (at_ + BitVec.ofNat 64 count).toNat by omega)
          (by rw [hnext, List.length_drop]; omega) rfl
        rwa [hnext, ← Nat.sub_sub] at hrest
      · -- at the end of the address space the next address is zero, which is below the first
        -- one if there is anything left
        have hnext : at_ + BitVec.ofNat 64 count = 0 := by
          apply BitVec.eq_of_toNat_eq
          rw [BitVec.toNat_add, BitVec.toNat_ofNat]
          simp
          omega
        have hstop : (m.fillPage at_ (bytes.take count)).fillFrom address
            (at_ + BitVec.ofNat 64 count) (bytes.drop count) =
              m.fillPage at_ (bytes.take count) := by
          rw [fillFrom]
          split_ifs with h1 h2
          · rfl
          · rfl
          · rw [List.length_drop] at h1
            rw [hnext, BitVec.lt_def] at h2
            simp at h2
            omega
        rw [hstop, show 2 ^ 64 - at_.toNat - count = 0 by omega, List.take_zero]
        exact Wrote.refl hpage.wf

/-- **`fill` writes its bytes to the addresses that follow each other, and cuts off what would
go past the end of the address space.** -/
theorem WellFormed.wrote_fill {m : PagedMemory} (h : m.WellFormed) (a : Address)
    (bytes : List Byte) (hsize : bytes.length ≤ 2 ^ 64) :
    Wrote m (span a (bytes.take (2 ^ 64 - a.toNat))) (m.fill a bytes) :=
  h.wrote_fillFrom (le_refl _) (by omega)

end PagedMemory

end BapNative
