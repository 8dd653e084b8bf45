import BapNative.Paged.Steps
import BapNative.Paged.Visit

/-!
# Zeros in a range

`zeroRange` clears the addresses from the first to the last of a range, the last one
included, so that a range can end where the address space does.  It goes through the pages
of the range one after the other, or through all that there are when the range has more,
and through a page by the word; what is zeros already is left alone and is not noted.

Both ways clear the range and nothing else, and an open step knows of what they change.
-/

namespace BapNative

open Block Mask Overwrite

namespace PagedMemory

/-! ## The loops -/

/-- What `zeroRange` does with a word: the bytes of it from an address on are cleared and
noted, unless they are zeros. -/
def zeroWord (m : PagedMemory) (page : HostPtr) (at_ : Address) (count : ℕ) : PagedMemory :=
  let zeros := List.replicate count 0
  let bytes := toBytes wordSize (m.atomicLoad (wordAt page at_))
  if (bytes.drop (wordOffset at_)).take count ≠ zeros then
    (m.storeInWord at_ zeros).noteStep at_ count
  else m

/-- `at | (wordSize - 1)`: the last address of a word. -/
def wordEnd (at_ : Address) : Address := at_ ||| BitVec.ofNat 64 (wordSize - 1)

lemma toNat_wordEnd (at_ : Address) : (wordEnd at_).toNat = at_.toNat / 8 * 8 + 7 :=
  toNat_or_lowMask (k := 3) (by omega) at_

/-- The `end` of a word that is cleared: its last address, or `upper` if that comes before. -/
def endIn (upper at_ : Address) : Address := if wordEnd at_ < upper then wordEnd at_ else upper

lemma toNat_endIn (upper at_ : Address) :
    (endIn upper at_).toNat = min (at_.toNat / 8 * 8 + 7) upper.toNat := by
  have hend := toNat_wordEnd at_
  unfold endIn
  split_ifs with hlt <;> rw [BitVec.lt_def] at hlt <;> omega

lemma toNat_endIn_succ {upper at_ : Address} (hne : endIn upper at_ ≠ upper) :
    (endIn upper at_ + 1).toNat = at_.toNat / 8 * 8 + 8 ∧ at_.toNat / 8 * 8 + 8 ≤ upper.toNat := by
  have hend := toNat_endIn upper at_
  have hupper := upper.isLt
  have hnat : (endIn upper at_).toNat ≠ upper.toNat := fun h => hne (BitVec.eq_of_toNat_eq h)
  rw [show (1 : Address) = BitVec.ofNat 64 1 from rfl, toNat_add_ofNat (by omega)]
  omega

/-- The loop over the words of a page, up to `upper`. -/
def zeroWords (m : PagedMemory) (page : HostPtr) (upper at_ : Address) : PagedMemory :=
  let end_ := endIn upper at_
  let count := (end_ - at_).toNat + 1
  let m := m.zeroWord page at_ count
  if end_ = upper then m else m.zeroWords page upper (end_ + 1)
termination_by upper.toNat - at_.toNat
decreasing_by
  have := toNat_endIn_succ ‹_›
  omega

/-- `zeroInPage`: what a range has of the page at `base`. -/
def zeroInPage (first last base : Address) (page : HostPtr) (m : PagedMemory) : PagedMemory :=
  let top := base + BitVec.ofNat 64 (pageSize - 1)
  let lower := if base < first then first else base
  let upper := if last < top then last else top
  if last < base ∨ top < first then m else m.zeroWords page upper lower

/-- The page at `base`, if there is one. -/
def zeroAtBase (m : PagedMemory) (first last base : Address) : PagedMemory :=
  match m.find base with
  | none => m
  | some page => zeroInPage first last base page m

/-- The loop over the pages of a range, from `base` on. -/
def zeroPages (m : PagedMemory) (first last base : Address) : PagedMemory :=
  let m := m.zeroAtBase first last base
  if pageBase last ≤ base then m
  else m.zeroPages first last (base + BitVec.ofNat 64 pageSize)
termination_by last.toNat - base.toNat
decreasing_by
  rename_i hle
  have hlast := toNat_pageBase last
  have hlt := last.isLt
  rw [BitVec.le_def] at hle
  rw [toNat_add_ofNat (by simp only [pageSize, pageBits]; omega)]
  simp only [pageSize, pageBits]
  omega

/-- The branch of `zeroRange` that goes by the page. -/
def zeroByPage (m : PagedMemory) (first last : Address) : PagedMemory :=
  m.zeroPages first last (pageBase first)

/-- The branch of `zeroRange` that goes through all pages there are. -/
def zeroByVisit (m : PagedMemory) (first last : Address) : PagedMemory :=
  forEachPage entry (zeroInPage first last) m

/-- `zeroRange`: zeros from `first` to `last`. -/
def zeroRange (m : PagedMemory) (first last : Address) : PagedMemory :=
  if last < first then m
  else if (last >>> pageBits) - (first >>> pageBits) < BitVec.ofNat 64 (2 ^ 16) then
    m.zeroByPage first last
  else m.zeroByVisit first last

/-! ## What is zeroed -/

/-- How many addresses hold something else than zero. -/
noncomputable def filled (m : PagedMemory) : ℕ := {a | m.byteAt a ≠ 0}.ncard

/-- There is a note only where an address was cleared that held something else than zero. -/
def NotesCleared (m m' : PagedMemory) : Prop :=
  ∃ count, Notes count m m' ∧ count + m'.filled ≤ m.filled

lemma NotesCleared.refl (m : PagedMemory) : NotesCleared m m :=
  ⟨0, Notes.of_same rfl, by omega⟩

lemma NotesCleared.trans {m m' m'' : PagedMemory} (h : NotesCleared m m')
    (h' : NotesCleared m' m'') : NotesCleared m m'' := by
  obtain ⟨count, hnotes, hle⟩ := h
  obtain ⟨count', hnotes', hle'⟩ := h'
  exact ⟨count + count', hnotes.trans hnotes', by omega⟩

/-- `m'` is `m` with zeros at the addresses of a set, of which an open step knows; the table is
the same. -/
structure Zeroed (m : PagedMemory) (S : Set Address) (m' : PagedMemory) : Prop where
  wf : m'.WellFormed
  entry : m'.entry = m.entry
  logs : Logs m m'
  notes : NotesCleared m m'
  zeros : Over (fun _ => 0) S m.byteAt m'.byteAt

lemma Zeroed.keepsPages {m m' : PagedMemory} {S : Set Address} (h : Zeroed m S m') :
    KeepsPages m m' := by
  intro a page ha
  rw [find_eq, reach] at ha ⊢
  rwa [h.entry]

lemma Zeroed.refl {m : PagedMemory} (h : m.WellFormed) : Zeroed m ∅ m :=
  ⟨h, rfl, Logs.refl m, NotesCleared.refl m, Over.refl _ _⟩

lemma Zeroed.trans {m m' m'' : PagedMemory} {S T : Set Address} (h : Zeroed m S m')
    (h' : Zeroed m' T m'') : Zeroed m (S ∪ T) m'' :=
  ⟨h'.wf, h'.entry.trans h.entry, h.logs.trans h'.logs, h.notes.trans h'.notes,
    h.zeros.trans h'.zeros⟩

/-- What was zero before may be counted or not. -/
lemma Zeroed.extend {m m' : PagedMemory} {S T : Set Address} (h : Zeroed m S m')
    (hsub : S ⊆ T) (hzero : ∀ a ∈ T, a ∉ S → m.byteAt a = 0) : Zeroed m T m' :=
  ⟨h.wf, h.entry, h.logs, h.notes, h.zeros.extend hsub hzero⟩

/-- There are no more notes than addresses of the set that held something else than zero. -/
lemma Zeroed.notes_ncard {m m' : PagedMemory} {S : Set Address} (h : Zeroed m S m') :
    Notes {a | a ∈ S ∧ m.byteAt a ≠ 0}.ncard m m' := by
  obtain ⟨count, hnotes, hle⟩ := h.notes
  have hcleared := h.zeros.ncard_ne
  simp only [filled] at hle
  exact hnotes.mono (by omega)

lemma find_of_entry {m m' : PagedMemory} (h : m'.entry = m.entry) (a : Address) :
    m'.find a = m.find a := by
  rw [find_eq, find_eq, reach, reach, h]

/-! ## The table -/

lemma entry_noteStep (m : PagedMemory) (a : Address) (size : ℕ) :
    (m.noteStep a size).entry = m.entry := by
  unfold noteStep
  split_ifs <;> rfl

/-- Zeros make no page. -/
lemma entry_storeInWord_zeros (m : PagedMemory) (a : Address) (count : ℕ) :
    (m.storeInWord a (List.replicate count 0)).entry = m.entry := by
  have hzero : (List.replicate count (0 : Byte)).all (fun byte => byte == 0) = true := by simp
  simp only [storeInWord, hzero, if_true]
  cases m.find a with
  | none => rfl
  | some page => simp only; split_ifs <;> rfl

lemma entry_zeroWord (m : PagedMemory) (page : HostPtr) (a : Address) (count : ℕ) :
    (m.zeroWord page a count).entry = m.entry := by
  unfold zeroWord
  simp only
  split_ifs
  · rw [entry_noteStep, entry_storeInWord_zeros]
  · rfl

lemma entry_zeroWords (m : PagedMemory) (page : HostPtr) (upper a : Address) :
    (m.zeroWords page upper a).entry = m.entry := by
  fun_induction zeroWords m page upper a with
  | case1 m a end_ count m' hend => exact entry_zeroWord ..
  | case2 m a end_ count m' hend ih => rw [ih, entry_zeroWord]

lemma entry_zeroInPage (first last base : Address) (page : HostPtr) (m : PagedMemory) :
    (zeroInPage first last base page m).entry = m.entry := by
  unfold zeroInPage
  simp only
  split_ifs
  all_goals first | rfl | exact entry_zeroWords ..

/-! ## By the word -/

/-- A word of a page that is found. -/
lemma WellFormed.zeroed_zeroWord {m : PagedMemory} (h : m.WellFormed) {a : Address}
    {page : HostPtr} (hpage : m.find a = some page) (count : ℕ)
    (hcount : a.toNat % 8 + count ≤ 8) :
    Zeroed m {b | a.toNat ≤ b.toNat ∧ b.toNat < a.toNat + count} (m.zeroWord page a count) := by
  have ha := a.isLt
  have hword : wordOffset a + count ≤ 8 := by rw [wordOffset_eq]; exact hcount
  have hbytes := loadWord_drop_take m a hword
  simp only [loadWord, hpage] at hbytes
  have hentry := entry_zeroWord m page a count
  unfold zeroWord at hentry ⊢
  simp only [hbytes] at hentry ⊢
  split_ifs at hentry ⊢ with hzeros
  · have hwrote := h.wrote_storeInWord (a := a) (List.replicate count 0)
      (by simpa using hword)
    have hlogs := hwrote.logs_noteStep (by rw [List.length_replicate]; omega)
    rw [List.length_replicate] at hlogs
    have honly := onlyStep_noteStep (m.storeInWord a (List.replicate count 0)) a count
    have hbyte : ∀ b, ((m.storeInWord a (List.replicate count 0)).noteStep a count).byteAt b =
        if a.toNat ≤ b.toNat then ((List.replicate count (0 : Byte))[b.toNat - a.toNat]?).getD
          (m.byteAt b) else m.byteAt b := by
      intro b
      rw [honly.byteAt, hwrote.byteAt, writes_span_apply _ _ _ _ (by simp; omega)]
    have hover : Over (fun _ => 0) {b | a.toNat ≤ b.toNat ∧ b.toNat < a.toNat + count} m.byteAt
        ((m.storeInWord a (List.replicate count 0)).noteStep a count).byteAt := by
      refine ⟨fun b hb => ?_, fun b hb => ?_⟩
      · obtain ⟨h1, h2⟩ := hb
        rw [hbyte, if_pos h1, List.getElem?_replicate_of_lt (by omega)]
        rfl
      · rw [Set.mem_ofPred_eq, not_and] at hb
        rw [hbyte]
        split_ifs with h1
        · have h2 := hb h1
          rw [List.getElem?_eq_none (by simp; omega)]
          rfl
        · rfl
    refine ⟨honly.wf hwrote.wf, hentry, hlogs, ⟨1, ?_, ?_⟩, hover⟩
    · have hnotes := (Notes.of_same hwrote.stepState).trans (notes_noteStep _ a count)
      exact hnotes.mono (by omega)
    · -- the bytes were compared, and are not all zeros
      obtain ⟨i, hi, hne⟩ : ∃ i < count, m.byteAt (a + BitVec.ofNat 64 i) ≠ 0 := by
        by_contra hnone
        simp only [not_exists, not_and, not_not] at hnone
        refine hzeros (List.eq_replicate_iff.mpr ⟨by simp [values], fun byte hbyte => ?_⟩)
        obtain ⟨i, hi, rfl⟩ := List.mem_map.mp hbyte
        exact hnone i (List.mem_range.mp hi)
      have hsome : 0 < {b | b ∈ {b : Address | a.toNat ≤ b.toNat ∧ b.toNat < a.toNat + count} ∧
          m.byteAt b ≠ 0}.ncard := by
        refine (Set.ncard_pos).mpr ⟨a + BitVec.ofNat 64 i, ⟨?_, ?_⟩, hne⟩ <;>
          rw [toNat_add_ofNat (by omega)] <;> omega
      have hcleared := hover.ncard_ne
      simp only [filled]
      omega
  · -- the bytes were compared, and are zeros already
    rw [not_not] at hzeros
    refine (Zeroed.refl h).extend (Set.empty_subset _) (fun b hb _ => ?_)
    obtain ⟨h1, h2⟩ := hb
    have hb' : a + BitVec.ofNat 64 (b.toNat - a.toNat) = b := by
      apply BitVec.eq_of_toNat_eq
      rw [toNat_add_ofNat (by omega)]
      omega
    have hmem : m.byteAt b ∈ values m.byteAt a count :=
      List.mem_map.mpr ⟨b.toNat - a.toNat, List.mem_range.mpr (by omega), by rw [hb']⟩
    rw [hzeros] at hmem
    exact List.eq_of_mem_replicate hmem

/-- How much of a word is cleared. -/
lemma toNat_endIn_sub {upper a : Address} (hle : a.toNat ≤ upper.toNat) :
    (endIn upper a - a).toNat + 1 = min (a.toNat / 8 * 8 + 7) upper.toNat + 1 - a.toNat := by
  have hend := toNat_endIn upper a
  rw [BitVec.toNat_sub_of_le (by rw [BitVec.le_def]; omega), hend]
  omega

/-- The words of a page from an address on. -/
lemma WellFormed.zeroed_zeroWords {m : PagedMemory} (h : m.WellFormed) {upper a : Address}
    {page : HostPtr} (hpage : m.find a = some page) (hle : a.toNat ≤ upper.toNat)
    (hsame : a.toNat / 4096 = upper.toNat / 4096) :
    Zeroed m {b | a.toNat ≤ b.toNat ∧ b.toNat ≤ upper.toNat} (m.zeroWords page upper a) := by
  fun_induction zeroWords m page upper a with
  | case1 m a end_ count m' hend =>
    have hcount : count = _ := toNat_endIn_sub hle
    have hnat := toNat_endIn upper a
    have hend' : (endIn upper a).toNat = upper.toNat := congrArg _ hend
    refine (h.zeroed_zeroWord hpage count (by omega)).extend ?_ ?_
    · rintro b ⟨h1, h2⟩
      exact ⟨h1, by omega⟩
    · rintro b ⟨h1, h2⟩ hb
      exact absurd ⟨h1, by omega⟩ hb
  | case2 m a end_ count m' hend ih =>
    have hcount : count = _ := toNat_endIn_sub hle
    obtain ⟨hnext, hle'⟩ := toNat_endIn_succ hend
    have hword := h.zeroed_zeroWord hpage count (by omega)
    have hpage' : m'.find (end_ + 1) = some page := by
      rw [find_of_entry hword.entry, ← hpage]
      exact find_congr m (by rw [hnext]; omega)
    have hrest := ih hword.wf hpage' (by rw [hnext]; exact hle') (by rw [hnext]; omega)
    refine (hword.trans hrest).extend ?_ ?_
    · rintro b (⟨h1, h2⟩ | ⟨h1, h2⟩)
      · exact ⟨h1, by omega⟩
      · rw [hnext] at h1
        exact ⟨by omega, h2⟩
    · rintro b ⟨h1, h2⟩ hb
      rw [Set.mem_union, not_or] at hb
      by_cases hlt : b.toNat < a.toNat + count
      · exact absurd ⟨h1, hlt⟩ hb.1
      · exact absurd ⟨by rw [hnext]; omega, h2⟩ hb.2

/-! ## By the page -/

/-- What a range has of a page. -/
def inPage (first last base : Address) : Set Address :=
  {b | b.toNat / 4096 = base.toNat / 4096 ∧ first.toNat ≤ b.toNat ∧ b.toNat ≤ last.toNat}

/-- The addresses of a range. -/
def inRange (first last : Address) : Set Address :=
  {b | first.toNat ≤ b.toNat ∧ b.toNat ≤ last.toNat}

lemma WellFormed.zeroed_zeroInPage {m : PagedMemory} (h : m.WellFormed) {first last base : Address}
    (hrange : first.toNat ≤ last.toNat) (hbase : base.toNat % 4096 = 0) {page : HostPtr}
    (hpage : m.find base = some page) :
    Zeroed m (inPage first last base) (zeroInPage first last base page m) := by
  have hb := base.isLt
  have htop : (base + BitVec.ofNat 64 (pageSize - 1)).toNat = base.toNat + 4095 := by
    rw [toNat_add_ofNat (by simp only [pageSize, pageBits]; omega)]
    rfl
  unfold zeroInPage
  simp only
  generalize base + BitVec.ofNat 64 (pageSize - 1) = top at htop ⊢
  by_cases hout : last < base ∨ top < first
  · rw [if_pos hout]
    refine (Zeroed.refl h).extend (Set.empty_subset _) ?_
    rintro b ⟨h1, h2, h3⟩ -
    rw [BitVec.lt_def, BitVec.lt_def] at hout
    omega
  · rw [if_neg hout]
    rw [BitVec.lt_def, BitVec.lt_def] at hout
    have hlower : (if base < first then first else base).toNat = max first.toNat base.toNat := by
      split_ifs with hlt <;> rw [BitVec.lt_def] at hlt <;> omega
    have hupper : (if last < top then last else top).toNat = min last.toNat top.toNat := by
      split_ifs with hlt <;> rw [BitVec.lt_def] at hlt <;> omega
    generalize (if base < first then first else base) = lower at hlower ⊢
    generalize (if last < top then last else top) = upper at hupper ⊢
    have hfind : m.find lower = some page := by
      rw [← hpage]
      exact find_congr m (by omega)
    refine (h.zeroed_zeroWords hfind (by omega) (by omega)).extend ?_ ?_
    · rintro b ⟨h1, h2⟩
      exact ⟨by omega, by omega, by omega⟩
    · rintro b ⟨h1, h2, h3⟩ hnot
      exact absurd ⟨by omega, by omega⟩ hnot

/-- A page that is not there holds zeros. -/
lemma WellFormed.zeroed_zeroAtBase {m : PagedMemory} (h : m.WellFormed)
    {first last : Address} (base : Address) (hrange : first.toNat ≤ last.toNat)
    (hbase : base.toNat % 4096 = 0) :
    Zeroed m (inPage first last base) (m.zeroAtBase first last base) := by
  unfold zeroAtBase
  cases hfind : m.find base with
  | none =>
    refine (Zeroed.refl h).extend (Set.empty_subset _) ?_
    rintro b ⟨h1, -⟩ -
    exact byteAt_of_find_none ((find_congr m h1).trans hfind)
  | some page => exact h.zeroed_zeroInPage hrange hbase hfind

lemma WellFormed.zeroed_zeroPages {m : PagedMemory} (h : m.WellFormed) {first last : Address}
    (base : Address) (hrange : first.toNat ≤ last.toNat) (hbase : base.toNat % 4096 = 0)
    (hle : base.toNat ≤ last.toNat) :
    Zeroed m {b | b ∈ inRange first last ∧ base.toNat ≤ b.toNat}
      (m.zeroPages first last base) := by
  fun_induction zeroPages m first last base with
  | case1 m base m' hlast =>
    rw [BitVec.le_def, toNat_pageBase] at hlast
    refine (h.zeroed_zeroAtBase base hrange hbase).extend ?_ ?_
    · rintro b ⟨h1, h2, h3⟩
      exact ⟨⟨h2, h3⟩, by omega⟩
    · rintro b ⟨⟨h1, h2⟩, h3⟩ hnot
      exact absurd ⟨by omega, h1, h2⟩ hnot
  | case2 m base m' hlast ih =>
    have hlt := last.isLt
    rw [BitVec.le_def, toNat_pageBase] at hlast
    have hnext : (base + BitVec.ofNat 64 pageSize).toNat = base.toNat + 4096 :=
      toNat_add_ofNat (by simp only [pageSize, pageBits]; omega)
    have hpage := h.zeroed_zeroAtBase base hrange hbase
    have hrest := ih hpage.wf (by omega) (by omega)
    rw [hnext] at hrest
    refine (hpage.trans hrest).extend ?_ ?_
    · rintro b (⟨h1, h2, h3⟩ | ⟨h1, h2⟩)
      · exact ⟨⟨h2, h3⟩, by omega⟩
      · exact ⟨h1, by omega⟩
    · rintro b ⟨h1, h2⟩ hnot
      rw [Set.mem_union, not_or] at hnot
      by_cases hin : b.toNat < base.toNat + 4096
      · exact absurd ⟨by omega, h1⟩ hnot.1
      · exact absurd ⟨h1, by omega⟩ hnot.2

/-- **The branch that goes by the page clears the range.** -/
theorem WellFormed.zeroed_zeroByPage {m : PagedMemory} (h : m.WellFormed) {first last : Address}
    (hrange : first.toNat ≤ last.toNat) :
    Zeroed m (inRange first last) (m.zeroByPage first last) := by
  have hbase := toNat_pageBase first
  refine (h.zeroed_zeroPages (pageBase first) hrange (by omega) (by omega)).extend
    (fun b hb => hb.1) ?_
  rintro b ⟨h1, h2⟩ hnot
  exact absurd ⟨⟨h1, h2⟩, by omega⟩ hnot

/-! ## By all pages -/

/-- A fold over pages that are there. -/
lemma WellFormed.zeroed_foldl {m : PagedMemory} (h : m.WellFormed) {first last : Address}
    (hrange : first.toNat ≤ last.toNat) {l : List (Address × HostPtr)}
    (hl : ∀ page ∈ l, page.1.toNat % 4096 = 0 ∧ m.find page.1 = some page.2) :
    Zeroed m {b | ∃ page ∈ l, b ∈ inPage first last page.1}
      (l.foldl (fun m page => zeroInPage first last page.1 page.2 m) m) := by
  -- the table stays, so that every page is still where it was when its turn comes
  obtain ⟨⟨hwf, hentry, hlogs, hnotes⟩, hover⟩ := Over.foldl (g := fun _ => 0) byteAt
    (fun m' => m'.WellFormed ∧ m'.entry = m.entry ∧ Logs m m' ∧ NotesCleared m m')
    (fun page => inPage first last page.1) (l := l) (fun page hpage s hs => by
      obtain ⟨hwf, hentry, hlogs, hnotes⟩ := hs
      obtain ⟨hbase, hfind⟩ := hl page hpage
      have hzero := hwf.zeroed_zeroInPage hrange hbase ((find_of_entry hentry _).trans hfind)
      exact ⟨⟨hzero.wf, hzero.entry.trans hentry, hlogs.trans hzero.logs,
        hnotes.trans hzero.notes⟩, hzero.zeros⟩)
    ⟨h, rfl, Logs.refl m, NotesCleared.refl m⟩
  exact ⟨hwf, hentry, hlogs, hnotes, hover⟩

/-- **The branch that goes through all pages clears the range.** -/
theorem WellFormed.zeroed_zeroByVisit {m : PagedMemory} (h : m.WellFormed) {first last : Address}
    (hrange : first.toNat ≤ last.toNat) :
    Zeroed m (inRange first last) (m.zeroByVisit first last) := by
  have hfold : m.zeroByVisit first last =
      m.pages.foldl (fun m page => zeroInPage first last page.1 page.2 m) m :=
    forEachPage_eq_foldl (entry_zeroInPage first last) m
  rw [hfold]
  refine (h.zeroed_foldl hrange (fun page hpage => mem_pages.mp hpage)).extend ?_ ?_
  · rintro b ⟨page, -, -, hb⟩
    exact hb
  · -- an address of the range that no page has
    rintro b hb hnot
    have hbase := toNat_pageBase b
    cases hfind : m.find b with
    | none => exact byteAt_of_find_none hfind
    | some page =>
      exact absurd ⟨(pageBase b, page), pageBase_mem_pages hfind, by simp only; omega, hb⟩ hnot

/-- **`zeroRange` clears the addresses from the first to the last, and nothing else.** -/
theorem WellFormed.zeroed_zeroRange {m : PagedMemory} (h : m.WellFormed) (first last : Address) :
    Zeroed m (inRange first last) (m.zeroRange first last) := by
  unfold zeroRange
  split_ifs with hempty hfew
  · refine (Zeroed.refl h).extend (Set.empty_subset _) ?_
    rintro b ⟨h1, h2⟩ -
    rw [BitVec.lt_def] at hempty
    omega
  · rw [BitVec.lt_def] at hempty
    exact h.zeroed_zeroByPage (by omega)
  · rw [BitVec.lt_def] at hempty
    exact h.zeroed_zeroByVisit (by omega)

end PagedMemory

end BapNative
