import BapNative.Paged.Visit
import BapNative.Paged.Words

/-!
# Whole pages

What goes through every page by the word: `copyFrom`, which copies the pages of another
memory, and `trim`, which gives the pages of a range that hold only zeros back to the host.

A memory that holds only zeros holds what the other does once that is copied into it.  A
page that is given back reads as zeros, which is what it did before, so that `trim` changes
nothing at all.
-/

namespace BapNative

open Block Overwrite

/-- The offsets of so many words. -/
def offsets (words : ℕ) : List ℕ := (List.range words).map (wordSize * ·)

/-- The offsets of the words of a page: the values of `offset` in `copyFrom` and `trim`. -/
def wordOffsets : List ℕ := offsets (pageSize / wordSize)

/-- The host that `trim` runs on. -/
structure Host where
  /-- Whether the system is Linux, which is what `__linux__` says. -/
  linux : Bool
  /-- `sysconf(_SC_PAGESIZE)`. -/
  pageSize : ℕ
  /-- Whether the system does as it is advised of a page. -/
  heeds : HostPtr → Bool

namespace PagedMemory

/-! ## The loops -/

/-- The loop of `copyFrom` over the words of a page. -/
def copyWords (m other : PagedMemory) (from_ to_ : HostPtr) : PagedMemory :=
  wordOffsets.foldl (fun m offset =>
    m.atomicStore (to_.plus offset) (other.atomicLoad (from_.plus offset))) m

/-- What `copyFrom` does with a page of the other memory. -/
def copyPage (other : PagedMemory) (address : Address) (from_ : HostPtr) (m : PagedMemory) :
    PagedMemory :=
  let (found, m) := m.ensure address
  match found with
  | none => m
  | some to_ => m.copyWords other from_ to_

/-- `copyFrom`: every page of another memory. -/
def copyFrom (m other : PagedMemory) : PagedMemory :=
  forEachPage (fun _ => other.entry) (copyPage other) m

/-- `madvise` with `MADV_DONTNEED`, as Linux has it for a private mapping: the start has to be
that of a page of the system, the length is rounded up to such pages, and what was there
reads as zeros. -/
def madviseDontNeed (m : PagedMemory) (host : Host) (page : HostPtr) (size : ℕ) : PagedMemory :=
  if page.offset % host.pageSize = 0 ∧ host.heeds page then
    m.setBytes page (List.replicate ((size + host.pageSize - 1) / host.pageSize * host.pageSize) 0)
  else m

/-- What `trim` does with a page. -/
def trimPage (host : Host) (start last address : Address) (page : HostPtr) (m : PagedMemory) :
    PagedMemory :=
  let top := address + BitVec.ofNat 64 (pageSize - 1)
  if address < start ∨ last < top ∨ top < address then m
  else if wordOffsets.any fun offset => m.atomicLoad (page.plus offset) != 0 then m
  else m.madviseDontNeed host page pageSize

/-- `trim`: gives the host back what holds only zeros of the pages wholly in a range. -/
def trim (m : PagedMemory) (host : Host) (first last : Address) : PagedMemory :=
  if !host.linux then m
  else
    let samePages := host.pageSize == pageSize
    if !samePages || last < first then m
    else
      let start := pageBase (first + BitVec.ofNat 64 pageSize - 1)
      if start < first then m else forEachPage entry (trimPage host start last) m

lemma wordOffsets_eq : wordOffsets = offsets 512 := by
  rw [wordOffsets, show pageSize / wordSize = 512 by simp]

/-! ## Copies -/

/-- Words that are copied one after the other are a copy of their bytes. -/
lemma foldl_atomicStore (m other : PagedMemory) (from_ to_ : HostPtr) (words : ℕ) :
    (offsets words).foldl (fun m offset =>
        m.atomicStore (to_.plus offset) (other.atomicLoad (from_.plus offset))) m =
      m.setBytes to_ (peek other.bytes from_ (8 * words)) := by
  induction words with
  | zero =>
    have hnone : m.setBytes to_ [] = m := by
      simp only [setBytes, show poke m.bytes to_ [] = m.bytes from poke_peek m.bytes to_ 0]
    exact hnone.symm
  | succ words ih =>
    have happend := poke_append m.bytes to_ (peek other.bytes from_ (8 * words))
      (peek other.bytes (from_.plus (8 * words)) 8)
    rw [length_peek] at happend
    rw [offsets, List.range_succ, List.map_append, List.foldl_append, ← offsets, ih, Nat.mul_succ,
      peek_add]
    simp only [List.map_cons, List.map_nil, List.foldl_cons, List.foldl_nil, wordSize]
    rw [atomicStore, wordSize, toBytes_atomicLoad]
    simp only [setBytes]
    rw [happend]

/-- A page of the other memory, with its bytes. -/
lemma WellFormed.wrote_copyPage {m : PagedMemory} (h : m.WellFormed) {other : PagedMemory}
    {a : Address} (ha : a.toNat % 4096 = 0) {from_ : HostPtr} (hfrom : other.find a = some from_) :
    Wrote m (span a (values other.byteAt a 4096)) (copyPage other a from_ m) := by
  obtain ⟨page, hpage, hens⟩ := h.ensure_spec a
  have hvalues : values other.byteAt a 4096 = peek other.bytes from_ 4096 := by
    have hplace := values_of_find hfrom 4096 (by omega)
    rwa [ha, Place.plus_zero] at hplace
  have hwords : (m.ensure a).2.copyWords other from_ page =
      (m.ensure a).2.setBytes (page.plus (a.toNat % 4096)) (values other.byteAt a 4096) := by
    rw [ha, Place.plus_zero, hvalues]
    rw [copyWords, wordOffsets_eq]
    exact foldl_atomicStore _ other from_ page 512
  simp only [copyPage, hpage]
  rw [hwords]
  have hwrote := hens.wrote.trans (hens.wf.wrote_setBytes hens.find_self
    (values other.byteAt a 4096) (by rw [length_values, ha]))
  rwa [List.nil_append] at hwrote

/-- The addresses of a page. -/
def samePage (base : Address) : Set Address := {b | b.toNat / 4096 = base.toNat / 4096}

/-- What was written to a page whole, as a set that is written over. -/
lemma over_of_wrote {m m' other : PagedMemory} {a : Address} (ha : a.toNat % 4096 = 0)
    (h : Wrote m (span a (values other.byteAt a 4096)) m') :
    Over other.byteAt (samePage a) m.byteAt m'.byteAt := by
  have hlt := a.isLt
  have hread : ∀ b, m'.byteAt b = if a.toNat ≤ b.toNat then
      ((values other.byteAt a 4096)[b.toNat - a.toNat]?).getD (m.byteAt b) else m.byteAt b := by
    intro b
    rw [h.byteAt, writes_span_apply _ _ _ _ (by simp; omega)]
  refine ⟨fun b hb => ?_, fun b hb => ?_⟩
  · have hb' : b.toNat / 4096 = a.toNat / 4096 := hb
    have hplace : a + BitVec.ofNat 64 (b.toNat - a.toNat) = b := by
      apply BitVec.eq_of_toNat_eq
      rw [toNat_add_ofNat (by omega)]
      omega
    have hget : (values other.byteAt a 4096)[b.toNat - a.toNat]? = some (other.byteAt b) := by
      simp only [values, List.getElem?_map]
      rw [List.getElem?_range (by omega), Option.map_some, hplace]
    rw [hread, if_pos (by omega), hget, Option.getD_some]
  · have hb' : b.toNat / 4096 ≠ a.toNat / 4096 := hb
    rw [hread]
    split_ifs with hle
    · rw [List.getElem?_eq_none (by simp; omega), Option.getD_none]
    · rfl

/-- **`copyFrom` gives every address that has a page in the other memory what it holds there,
and leaves the others.** -/
theorem WellFormed.copyFrom_spec {m : PagedMemory} (h : m.WellFormed) (other : PagedMemory) :
    (m.copyFrom other).WellFormed ∧ (m.copyFrom other).stepState = m.stepState ∧
      Over other.byteAt {b | (other.find b).isSome} m.byteAt (m.copyFrom other).byteAt := by
  have hfold : m.copyFrom other =
      other.pages.foldl (fun m page => copyPage other page.1 page.2 m) m :=
    @forEachPage_eq_foldl _ (fun _ => other.entry) (copyPage other) (fun _ _ _ => rfl) m
  obtain ⟨⟨hwf, hstep⟩, hover⟩ := Over.foldl (g := other.byteAt) byteAt
    (fun m' => m'.WellFormed ∧ m'.stepState = m.stepState) (fun page => samePage page.1)
    (l := other.pages) (fun page hpage s hs => by
      obtain ⟨ha, hfrom⟩ := mem_pages.mp hpage
      have hwrote := hs.1.wrote_copyPage ha hfrom
      exact ⟨⟨hwrote.wf, hwrote.stepState.trans hs.2⟩, over_of_wrote ha hwrote⟩)
    (s := m) ⟨h, rfl⟩
  rw [hfold]
  refine ⟨hwf, hstep, hover.extend ?_ ?_⟩
  · rintro b ⟨page, hpage, hb⟩
    obtain ⟨-, hfrom⟩ := mem_pages.mp hpage
    exact Option.isSome_iff_exists.mpr ⟨page.2, (find_congr other hb).trans hfrom⟩
  · intro b hb hnot
    obtain ⟨page, hpage⟩ := Option.isSome_iff_exists.mp hb
    have hbase := toNat_pageBase b
    exact absurd ⟨_, pageBase_mem_pages hpage, show b.toNat / 4096 = _ by simp only; omega⟩ hnot

/-- **A memory that holds only zeros is a copy of another after `copyFrom`.** -/
theorem WellFormed.byteAt_copyFrom {m : PagedMemory} (h : m.WellFormed)
    (hzero : ∀ a, m.byteAt a = 0) (other : PagedMemory) :
    (m.copyFrom other).byteAt = other.byteAt := by
  obtain ⟨-, -, hover⟩ := h.copyFrom_spec other
  funext a
  cases hfind : other.find a with
  | none => rw [hover.off a (by simp [hfind]), hzero, byteAt_of_find_none hfind]
  | some page => exact hover.on a (by simp [hfind])

/-! ## Pages that are given back -/

/-- A page all of whose words are zero holds only zeros. -/
lemma peek_eq_zeros {m : PagedMemory} {page : HostPtr} {words : ℕ}
    (hzero : ∀ offset ∈ offsets words, m.atomicLoad (page.plus offset) = 0) :
    peek m.bytes page (8 * words) = List.replicate (8 * words) 0 := by
  induction words with
  | zero => rfl
  | succ words ih =>
    have hlast : m.atomicLoad (page.plus (8 * words)) = 0 :=
      hzero _ (List.mem_map.mpr ⟨words, List.mem_range.mpr (by omega), rfl⟩)
    have hbytes := toBytes_atomicLoad m (page.plus (8 * words))
    rw [hlast, show (0 : BitVec 64) = 0#64 from rfl, toBytes_zero] at hbytes
    rw [Nat.mul_succ, peek_add, ← hbytes, ih, List.replicate_add]
    intro offset hoffset
    refine hzero offset ?_
    simp only [offsets, List.mem_map, List.mem_range] at hoffset ⊢
    obtain ⟨i, hi, rfl⟩ := hoffset
    exact ⟨i, by omega, rfl⟩

/-- A page that is given back reads the same, when the pages of the system are as large. -/
lemma trimPage_eq {host : Host} (hhost : host.pageSize = 4096) (start last a : Address)
    (page : HostPtr) (m : PagedMemory) : trimPage host start last a page m = m := by
  unfold trimPage madviseDontNeed
  simp only
  split_ifs with hout hany hheeds
  · rfl
  · rfl
  · have hzero : ∀ offset ∈ offsets 512, m.atomicLoad (page.plus offset) = 0 := by
      simpa [wordOffsets] using hany
    have hpeek := peek_eq_zeros hzero
    rw [hhost, setBytes]
    norm_num
    norm_num at hpeek
    rw [← hpeek, poke_peek]
  · rfl

/-- **`trim` changes nothing.** -/
theorem trim_eq (m : PagedMemory) (host : Host) (first last : Address) :
    m.trim host first last = m := by
  unfold trim
  simp only
  split_ifs with hlinux hsame hstart
  · rfl
  · rfl
  · rfl
  · have hhost : host.pageSize = 4096 := by
      simp only [Bool.or_eq_true, Bool.not_eq_true', beq_eq_false_iff_ne, not_or, not_not] at hsame
      exact hsame.1
    have hpage := trimPage_eq hhost (pageBase (first + BitVec.ofNat 64 pageSize - 1)) last
    rw [forEachPage_eq_foldl (fun a p s => by rw [hpage])]
    simp only [hpage]
    exact List.foldl_fixed _

end PagedMemory

end BapNative
