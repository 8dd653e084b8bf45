import BapNative.Lib.Bits
import BapNative.Lib.Endian
import BapNative.Paged.Words

/-!
# The bytes that a run stored

`StoreLog` of `native/bap_jit.cpp`: the bytes that the stores of a run wrote, each once with
the last value written to it.  A page of the log has a bit for each of its bytes, in words
of 64, and the bytes; a store that is aligned to its size marks its bytes with one mask, and
any other marks them one at a time.

Both ways write the bytes of the store over what the log has, so that in the end it has
what was last stored at each address that was stored to.
-/

namespace BapNative.Jit

open Bits Endian Mask Overwrite PagedMemory

/-- A `Page` of the log. -/
structure LogPage where
  /-- A bit for each byte that was written, in 64 words. -/
  written : ℕ → BitVec 64
  /-- The bytes. -/
  values : ℕ → Byte

/-- `make_unique<Page>()`. -/
def LogPage.new : LogPage := ⟨fun _ => 0#64, fun _ => 0⟩

/-- A `StoreLog`. -/
structure StoreLog where
  /-- The pages, by their number. -/
  pages : Address → Option LogPage
  /-- The numbers that have a page, the last made first. -/
  numbers : List Address
  /-- The number of the page that `last` points to. -/
  lastNumber : Address
  /-- How many bytes were written. -/
  count : ℕ

namespace StoreLog

/-- A log of no store. -/
def new : StoreLog := ⟨fun _ => none, [], BitVec.allOnes 64, 0⟩

/-- `pageOf`: the page of a number, made if it isn't there, and remembered. -/
def pageOf (log : StoreLog) (number : Address) : LogPage × StoreLog :=
  -- no page has the number that the log starts with, so that what is remembered is there
  if number = log.lastNumber then ((log.pages number).getD LogPage.new, log)
  else
    match log.pages number with
    | some page => (page, { log with lastNumber := number })
    | none =>
      (LogPage.new,
        { log with
          pages := Function.update log.pages number (some LogPage.new)
          numbers := number :: log.numbers
          lastNumber := number })

/-- The part of `note` for a store that is aligned: one mask and one copy. -/
def noteAligned (log : StoreLog) (address : Address) (bytes : List Byte) : StoreLog :=
  let number := address >>> 12
  let (page, log) := log.pageOf number
  let offset := pageOffset address
  let mask := ((1#64 <<< bytes.length) - 1#64) <<< (offset % 64)
  let word := page.written (offset / 64)
  let page : LogPage :=
    { written := Function.update page.written (offset / 64) (word ||| mask)
      values := fun i => if offset ≤ i then (bytes[i - offset]?).getD (page.values i)
        else page.values i }
  { log with
    pages := Function.update log.pages number (some page)
    count := log.count + popcount (mask &&& ~~~word) }

/-- The body of the loop of `note` for any other store. -/
def noteByte (log : StoreLog) (at_ : Address) (byte : Byte) : StoreLog :=
  let number := at_ >>> 12
  let (page, log) := log.pageOf number
  let offset := pageOffset at_
  let bit := 1#64 <<< (offset % 64)
  let word := page.written (offset / 64)
  let unwritten := word &&& bit == 0#64
  let page : LogPage :=
    { written := if unwritten then Function.update page.written (offset / 64) (word ||| bit)
        else page.written
      values := Function.update page.values offset byte }
  { log with
    pages := Function.update log.pages number (some page)
    count := if unwritten then log.count + 1 else log.count }

/-- `note`: the bytes of a store. -/
def note (log : StoreLog) (address : Address) (size : ℕ) (bigEndian : Bool) (value : BitVec 64) :
    StoreLog :=
  let bytes := split bigEndian size value
  if (size = 1 ∨ size = 2 ∨ size = 4 ∨ size = 8) ∧
      address &&& BitVec.ofNat 64 (size - 1) = 0#64 then
    log.noteAligned address bytes
  else (span address bytes).foldl (fun log cell => log.noteByte cell.1 cell.2) log

/-- What `forEach` has of a page. -/
def pageCells (number : Address) (page : LogPage) : List (Address × Byte) :=
  (List.range 64).flatMap fun word => (bitsOf (page.written word)).map fun bit =>
    ((number <<< 12) + BitVec.ofNat 64 (word * 64 + bit), page.values (word * 64 + bit))

/-- `forEach`: each byte written, with its value, in the order of the map, which is any. -/
def forEach (log : StoreLog) (order : List Address) : List (Address × Byte) :=
  order.flatMap fun number =>
    ((log.pages number).map fun page => pageCells number page).getD []

end StoreLog

/-! ## What a page has -/

namespace LogPage

/-- What was written at an offset of a page, if anything was. -/
def valueIn (page : LogPage) (offset : ℕ) : Option Byte :=
  if (page.written (offset / 64)).getLsbD (offset % 64) then some (page.values offset) else none

/-- How many bytes of a page were written. -/
def bitCount (page : LogPage) : ℕ := ∑ word ∈ Finset.range 64, popcount (page.written word)

@[simp] lemma valueIn_new (offset : ℕ) : LogPage.new.valueIn offset = none := by
  simp [valueIn, LogPage.new]

@[simp] lemma bitCount_new : LogPage.new.bitCount = 0 := by simp [bitCount, LogPage.new]

/-- A page with the bits of a mask set in a word, and bytes copied to an offset. -/
def marked (page : LogPage) (word : ℕ) (mask : BitVec 64) (offset : ℕ) (bytes : List Byte) :
    LogPage :=
  { written := Function.update page.written word (page.written word ||| mask)
    values := fun i => if offset ≤ i then (bytes[i - offset]?).getD (page.values i)
      else page.values i }

lemma bitCount_marked (page : LogPage) {word : ℕ} (hword : word < 64) (mask : BitVec 64)
    (offset : ℕ) (bytes : List Byte) :
    (page.marked word mask offset bytes).bitCount =
      page.bitCount + popcount (mask &&& ~~~(page.written word)) := by
  have hmem : word ∈ Finset.range 64 := Finset.mem_range.mpr hword
  have hself : (page.marked word mask offset bytes).written word =
      page.written word ||| mask := by simp [marked]
  have hother : ∀ i ∈ (Finset.range 64).erase word,
      popcount ((page.marked word mask offset bytes).written i) = popcount (page.written i) := by
    intro i hi
    simp [marked, Finset.ne_of_mem_erase hi]
  rw [bitCount, ← Finset.add_sum_erase _ _ hmem, hself, Finset.sum_congr rfl hother, popcount_or,
    bitCount, ← Finset.add_sum_erase _ (fun i => popcount (page.written i)) hmem]
  omega

end LogPage

/-- The bits of the mask of a store. -/
lemma getLsbD_mask {len k i : ℕ} (hlen : len < 64) (hi : i < 64) :
    (((1#64 <<< len) - 1#64) <<< k).getLsbD i = decide (k ≤ i ∧ i < k + len) := by
  have hpow : 2 ^ len < 2 ^ 64 := Nat.pow_lt_pow_right (by omega) hlen
  have hpos : 0 < 2 ^ len := Nat.two_pow_pos len
  have hone : (1#64 <<< len).toNat = 2 ^ len := by
    rw [BitVec.toNat_shiftLeft, Nat.shiftLeft_eq, show (1#64).toNat = 1 from rfl, Nat.one_mul,
      Nat.mod_eq_of_lt hpow]
  have hlow : ((1#64 <<< len) - 1#64).toNat = 2 ^ len - 1 := by
    rw [BitVec.toNat_sub_of_le (by rw [BitVec.le_def, hone]; exact hpos), hone]
    rfl
  rw [BitVec.getLsbD_shiftLeft, ← BitVec.testBit_toNat, hlow, Nat.testBit_two_pow_sub_one]
  by_cases hki : k ≤ i
  · simp only [hi, decide_true, Bool.true_and, hki, true_and, not_lt.mpr hki, decide_false,
      Bool.not_false]
    congr 1
    exact propext ⟨fun h => by omega, fun h => by omega⟩
  · simp [hki, not_le.mp hki]

/-- A page with bytes marked in one of its words has them there, and the rest as before. -/
lemma LogPage.valueIn_marked (page : LogPage) {offset : ℕ} {bytes : List Byte}
    (hlen : bytes.length < 64) (hin : offset % 64 + bytes.length ≤ 64) (i : ℕ) :
    (page.marked (offset / 64) (((1#64 <<< bytes.length) - 1#64) <<< (offset % 64)) offset
        bytes).valueIn i =
      if offset ≤ i then ((bytes.map some)[i - offset]?).getD (page.valueIn i)
      else page.valueIn i := by
  have hbit := getLsbD_mask (k := offset % 64) hlen (Nat.mod_lt i (show 64 > 0 by omega))
  by_cases hword : i / 64 = offset / 64
  · -- in the word of the mask, its bits decide
    have hwritten : (page.marked (offset / 64) (((1#64 <<< bytes.length) - 1#64) <<< (offset % 64))
        offset bytes).written (i / 64) = page.written (i / 64) |||
          ((1#64 <<< bytes.length) - 1#64) <<< (offset % 64) := by simp [marked, hword]
    rw [valueIn, hwritten, BitVec.getLsbD_or, hbit]
    by_cases hle : offset ≤ i
    · rw [if_pos hle, List.getElem?_map]
      by_cases hlt : i < offset + bytes.length
      · have hget : bytes[i - offset]? = some (bytes[i - offset]) :=
          List.getElem?_eq_getElem (by omega)
        rw [decide_eq_true (by omega), Bool.or_true, if_pos rfl, hget]
        simp [marked, hle, hget]
      · have hnone : bytes[i - offset]? = none := List.getElem?_eq_none (by omega)
        rw [decide_eq_false (by omega), Bool.or_false, hnone]
        simp [valueIn, marked, hle, hnone]
    · rw [if_neg hle, decide_eq_false (by omega), Bool.or_false]
      simp [valueIn, marked, hle]
  · -- another word has neither a bit nor a byte of it
    have hwritten : (page.marked (offset / 64) (((1#64 <<< bytes.length) - 1#64) <<< (offset % 64))
        offset bytes).written (i / 64) = page.written (i / 64) := by simp [marked, hword]
    rw [valueIn, hwritten]
    by_cases hle : offset ≤ i
    · have hnone : bytes[i - offset]? = none := List.getElem?_eq_none (by omega)
      rw [if_pos hle, List.getElem?_map, hnone]
      simp [valueIn, marked, hle, hnone]
    · rw [if_neg hle]
      simp [valueIn, marked, hle]

namespace StoreLog

/-! ## The pages of a log -/

/-- What a log has of an address: the byte last written to it, if any was. -/
def valueAt (log : StoreLog) (a : Address) : Option Byte :=
  (log.pages (a >>> 12)).bind fun page => page.valueIn (a.toNat % 4096)

/-- How many bytes of the page of a number were written. -/
def countOf (log : StoreLog) (number : Address) : ℕ :=
  ((log.pages number).map LogPage.bitCount).getD 0

/-- The invariant of a log. -/
structure WellFormed (log : StoreLog) : Prop where
  last : log.lastNumber = BitVec.allOnes 64 ∨ (log.pages log.lastNumber).isSome
  nodup : log.numbers.Nodup
  mem_iff : ∀ number, number ∈ log.numbers ↔ (log.pages number).isSome
  number_lt : ∀ number ∈ log.numbers, number.toNat < 2 ^ 52
  count_eq : log.count = ∑ number ∈ log.numbers.toFinset, log.countOf number

lemma wellFormed_new : new.WellFormed := by
  refine ⟨Or.inl rfl, List.nodup_nil, ?_, ?_, ?_⟩ <;> simp [new]

lemma toNat_pageNumber (a : Address) : (a >>> 12).toNat = a.toNat / 4096 := by
  rw [BitVec.toNat_ushiftRight, Nat.shiftRight_eq_div_pow]

lemma pageNumber_eq_iff {a b : Address} :
    a >>> 12 = b >>> 12 ↔ a.toNat / 4096 = b.toNat / 4096 := by
  rw [← BitVec.toNat_inj, toNat_pageNumber, toNat_pageNumber]

/-- What `pageOf` leaves: the page of the number is there, with what was written to it, and
all else as it was. -/
structure PageOf (log : StoreLog) (number : Address) (page : LogPage) (log' : StoreLog) :
    Prop where
  wf : log'.WellFormed
  pages : log'.pages = Function.update log.pages number (some page)
  last : log'.lastNumber = number
  value : ∀ offset, page.valueIn offset = (log.pages number).bind fun page => page.valueIn offset

/-- A page that is there. -/
lemma WellFormed.pageOf_found {log : StoreLog} (h : log.WellFormed) {number : Address}
    {page : LogPage} (hpage : log.pages number = some page) :
    PageOf log number page { log with lastNumber := number } := by
  refine ⟨⟨Or.inr (by simp [hpage]), h.nodup, h.mem_iff, h.number_lt, h.count_eq⟩, ?_, rfl, ?_⟩
  · rw [← hpage, Function.update_eq_self]
  · intro offset
    rw [hpage, Option.bind_some]

lemma WellFormed.pageOf_spec {log : StoreLog} (h : log.WellFormed) {number : Address}
    (hnumber : number.toNat < 2 ^ 52) :
    PageOf log number (log.pageOf number).1 (log.pageOf number).2 := by
  unfold pageOf
  split_ifs with hlast
  · obtain hall | hsome := h.last
    · -- the number that the log starts with is none of a page
      rw [hlast, hall, BitVec.toNat_allOnes] at hnumber
      omega
    · obtain ⟨page, hpage⟩ := Option.isSome_iff_exists.mp hsome
      rw [← hlast] at hpage
      have hfound := h.pageOf_found hpage
      simp only [hpage, Option.getD_some]
      rwa [show ({ log with lastNumber := number } : StoreLog) = log by rw [hlast]] at hfound
  · cases hpage : log.pages number with
    | some page => exact h.pageOf_found hpage
    | none =>
      have hnot : number ∉ log.numbers := by
        rw [h.mem_iff, hpage]
        simp
      refine ⟨⟨Or.inr (by simp), List.nodup_cons.mpr ⟨hnot, h.nodup⟩, ?_, ?_, ?_⟩, rfl, rfl, ?_⟩
      · intro n
        by_cases hn : n = number
        · simp [hn]
        · simp [hn, h.mem_iff]
      · intro n hn
        rcases List.mem_cons.mp hn with rfl | hn
        · exact hnumber
        · exact h.number_lt n hn
      · have hsame : ∀ n ∈ log.numbers.toFinset, log.countOf n =
            ((Function.update log.pages number (some LogPage.new) n).map
              LogPage.bitCount).getD 0 := by
          intro n hn
          have hne : n ≠ number := fun heq => hnot (heq ▸ List.mem_toFinset.mp hn)
          rw [countOf, Function.update_of_ne hne]
        simp only [countOf, List.toFinset_cons]
        rw [Finset.sum_insert (by simpa using hnot), ← Finset.sum_congr rfl hsame, h.count_eq]
        simp
      · intro offset
        simp [hpage]

/-- A page of a log may be replaced, with what that adds to its bits added to the count. -/
lemma WellFormed.replace {log : StoreLog} (h : log.WellFormed) {number : Address}
    {page page' : LogPage} {added : ℕ} (hpage : log.pages number = some page)
    (hadded : page'.bitCount = page.bitCount + added) :
    WellFormed { log with
      pages := Function.update log.pages number (some page')
      count := log.count + added } := by
  have hthere : ∀ n, (Function.update log.pages number (some page') n).isSome =
      (log.pages n).isSome := by
    intro n
    by_cases hn : n = number
    · simp [hn, hpage]
    · rw [Function.update_of_ne hn]
  refine ⟨?_, h.nodup, ?_, h.number_lt, ?_⟩
  · rcases h.last with hall | hsome
    · exact Or.inl hall
    · exact Or.inr ((hthere _).trans hsome)
  · intro n
    exact (h.mem_iff n).trans (by rw [hthere])
  · have hmem : number ∈ log.numbers.toFinset := by
      rw [List.mem_toFinset, h.mem_iff, hpage]
      rfl
    have hother : ∀ n ∈ log.numbers.toFinset.erase number, log.countOf n =
        ((Function.update log.pages number (some page') n).map LogPage.bitCount).getD 0 := by
      intro n hn
      rw [countOf, Function.update_of_ne (Finset.ne_of_mem_erase hn)]
    simp only [countOf]
    rw [h.count_eq, ← Finset.add_sum_erase _ _ hmem, ← Finset.add_sum_erase _ _ hmem,
      Finset.sum_congr rfl hother, countOf, hpage, Function.update_self]
    simp only [Option.map_some, Option.getD_some, hadded]
    omega

/-! ## What a store leaves -/

/-- What a log has after cells were noted. -/
structure Noted (log : StoreLog) (cells : List (Address × Byte)) (log' : StoreLog) : Prop where
  wf : log'.WellFormed
  value : log'.valueAt = writes log.valueAt (cells.map fun cell => (cell.1, some cell.2))

lemma Noted.refl {log : StoreLog} (h : log.WellFormed) : Noted log [] log := ⟨h, rfl⟩

lemma Noted.trans {log log' log'' : StoreLog} {cells cells' : List (Address × Byte)}
    (h : Noted log cells log') (h' : Noted log' cells' log'') :
    Noted log (cells ++ cells') log'' := by
  refine ⟨h'.wf, ?_⟩
  rw [h'.value, h.value, List.map_append, writes_append]

lemma map_some_span (a : Address) (bytes : List Byte) :
    (span a bytes).map (fun cell => (cell.1, some cell.2)) = span a (bytes.map some) := by
  induction bytes generalizing a with
  | nil => rfl
  | cons byte bytes ih => rw [span_cons, List.map_cons, List.map_cons, span_cons, ih]

/-- **A store whose bytes are in one word of the bits is noted with one mask.** -/
theorem WellFormed.noted_noteAligned {log : StoreLog} (h : log.WellFormed) {address : Address}
    {bytes : List Byte} (hlen : bytes.length < 64)
    (hin : address.toNat % 64 + bytes.length ≤ 64) :
    Noted log (span address bytes) (log.noteAligned address bytes) := by
  have hnumber : (address >>> 12).toNat < 2 ^ 52 := by
    have hlt := address.isLt
    rw [toNat_pageNumber]
    omega
  have hpage := h.pageOf_spec hnumber
  have hoffset : pageOffset address = address.toNat % 4096 := pageOffset_eq address
  have hword : pageOffset address / 64 < 64 := by omega
  have hthere : (log.pageOf (address >>> 12)).2.pages (address >>> 12) =
      some (log.pageOf (address >>> 12)).1 := by
    rw [hpage.pages, Function.update_self]
  refine ⟨hpage.wf.replace hthere (LogPage.bitCount_marked _ hword _ _ bytes), ?_⟩
  rw [map_some_span]
  ext1 b
  rw [writes_span_apply _ _ _ _ (by have hlt := address.isLt; rw [List.length_map]; omega)]
  -- the page of the address is the marked one, and the others are as they were
  have hpages : (log.noteAligned address bytes).pages = Function.update log.pages (address >>> 12)
      (some ((log.pageOf (address >>> 12)).1.marked (pageOffset address / 64)
        (((1#64 <<< bytes.length) - 1#64) <<< (pageOffset address % 64)) (pageOffset address)
        bytes)) := by
    rw [← Function.update_idem, ← hpage.pages]
    rfl
  rw [valueAt, hpages]
  by_cases hb : b >>> 12 = address >>> 12
  · have hvalue : (log.pageOf (address >>> 12)).1.valueIn (b.toNat % 4096) = log.valueAt b := by
      rw [valueAt, hb, hpage.value]
    rw [hb, Function.update_self, Option.bind_some, LogPage.valueIn_marked _ hlen (by omega),
      hvalue, hoffset]
    rw [pageNumber_eq_iff] at hb
    by_cases hle : address.toNat ≤ b.toNat
    · rw [if_pos hle, if_pos (by omega),
        show b.toNat % 4096 - address.toNat % 4096 = b.toNat - address.toNat by omega]
    · rw [if_neg hle, if_neg (by omega)]
  · rw [Function.update_of_ne hb, ← valueAt]
    rw [pageNumber_eq_iff] at hb
    by_cases hle : address.toNat ≤ b.toNat
    · rw [if_pos hle, List.getElem?_eq_none (by rw [List.length_map]; omega), Option.getD_none]
    · rw [if_neg hle]

/-- A byte is noted as a store of one byte is, though its bit is looked at first. -/
lemma noteByte_eq (log : StoreLog) (at_ : Address) (byte : Byte) :
    log.noteByte at_ byte = log.noteAligned at_ [byte] := by
  have hoffset : pageOffset at_ % 64 < 64 := by omega
  have hmask : ((1#64 <<< 1) - 1#64) <<< (pageOffset at_ % 64) =
      BitVec.twoPow 64 (pageOffset at_ % 64) := rfl
  have hone : 1#64 <<< (pageOffset at_ % 64) = BitVec.twoPow 64 (pageOffset at_ % 64) := rfl
  unfold noteByte noteAligned
  simp only [List.length_singleton, hmask, hone, popcount_twoPow_and_not _ hoffset,
    BitVec.and_twoPow]
  have hvalues : ∀ page : LogPage, Function.update page.values (pageOffset at_) byte = fun i =>
      if pageOffset at_ ≤ i then ([byte][i - pageOffset at_]?).getD (page.values i)
      else page.values i := by
    intro page
    ext1 i
    rcases lt_trichotomy i (pageOffset at_) with hi | rfl | hi
    · rw [Function.update_of_ne (by omega), if_neg (by omega)]
    · simp
    · rw [Function.update_of_ne (by omega), if_pos (by omega),
        List.getElem?_eq_none (by rw [List.length_singleton]; omega), Option.getD_none]
  have hne : BitVec.twoPow 64 (pageOffset at_ % 64) ≠ 0#64 := by
    intro hzero
    have hcount := popcount_twoPow hoffset
    rw [hzero, popcount_zero] at hcount
    omega
  cases hbit : ((log.pageOf (at_ >>> 12)).1.written (pageOffset at_ / 64)).getLsbD
      (pageOffset at_ % 64) with
  | true =>
    -- the bit is set, so that setting it changes nothing
    simp [hne, hvalues, or_twoPow_of_getLsbD hbit]
  | false => simp [hvalues]

lemma WellFormed.noted_noteByte {log : StoreLog} (h : log.WellFormed) (at_ : Address)
    (byte : Byte) : Noted log [(at_, byte)] (log.noteByte at_ byte) := by
  have hlen : [byte].length = 1 := rfl
  rw [noteByte_eq]
  exact h.noted_noteAligned (show [byte].length < 64 by omega) (by omega)

lemma WellFormed.noted_foldl {log : StoreLog} (h : log.WellFormed)
    (cells : List (Address × Byte)) :
    Noted log cells (cells.foldl (fun log cell => log.noteByte cell.1 cell.2) log) := by
  induction cells generalizing log with
  | nil => exact Noted.refl h
  | cons cell cells ih =>
    have hcell := h.noted_noteByte cell.1 cell.2
    exact hcell.trans (ih hcell.wf)

/-- An access that is aligned to its size is in one word of the bits. -/
lemma mod_add_le_of_aligned {address : Address} {size : ℕ}
    (hsize : size = 1 ∨ size = 2 ∨ size = 4 ∨ size = 8)
    (haligned : address &&& BitVec.ofNat 64 (size - 1) = 0#64) :
    address.toNat % 64 + size ≤ 64 := by
  have hmod : ∀ k ≤ 64, address &&& BitVec.ofNat 64 (2 ^ k - 1) = 0#64 →
      address.toNat % 2 ^ k = 0 := by
    intro k hk hzero
    rw [← toNat_and_lowMask hk, hzero]
    rfl
  rcases hsize with rfl | rfl | rfl | rfl
  · omega
  · have := hmod 1 (by omega) haligned
    omega
  · have := hmod 2 (by omega) haligned
    omega
  · have := hmod 3 (by omega) haligned
    omega

/-- **A store of any size, to any address, is noted as its bytes at the addresses from it on,
whichever way it goes.** -/
theorem WellFormed.noted_note {log : StoreLog} (h : log.WellFormed) (address : Address)
    (size : ℕ) (bigEndian : Bool) (value : BitVec 64) :
    Noted log (span address (split bigEndian size value))
      (log.note address size bigEndian value) := by
  have hlength := length_split bigEndian size value
  unfold note
  split_ifs with haligned
  · obtain ⟨hsize, hmask⟩ := haligned
    refine h.noted_noteAligned (by omega) ?_
    rw [hlength]
    exact mod_add_le_of_aligned hsize hmask
  · exact h.noted_foldl _

/-! ## What a log is read as -/

/-- The address of an offset of a page. -/
lemma toNat_place {number : Address} (hnumber : number.toNat < 2 ^ 52) {offset : ℕ}
    (hoffset : offset < 4096) :
    ((number <<< 12) + BitVec.ofNat 64 offset).toNat = number.toNat * 4096 + offset := by
  rw [BitVec.toNat_add, BitVec.toNat_shiftLeft, Nat.shiftLeft_eq, BitVec.toNat_ofNat]
  omega

lemma mem_pageCells {number a : Address} {page : LogPage} {v : Byte}
    (hnumber : number.toNat < 2 ^ 52) :
    (a, v) ∈ pageCells number page ↔
      a >>> 12 = number ∧ page.valueIn (a.toNat % 4096) = some v := by
  simp only [pageCells, List.mem_flatMap, List.mem_map, List.mem_range, Prod.mk.injEq, mem_bitsOf]
  constructor
  · rintro ⟨word, hword, bit, hbit, rfl, rfl⟩
    have hlt := BitVec.lt_of_getLsbD hbit
    have hnat := toNat_place hnumber (show word * 64 + bit < 4096 by omega)
    refine ⟨?_, ?_⟩
    · rw [← BitVec.toNat_inj, toNat_pageNumber, hnat]
      omega
    · have hmod : ((number <<< 12) + BitVec.ofNat 64 (word * 64 + bit)).toNat % 4096 =
          word * 64 + bit := by omega
      rw [hmod, LogPage.valueIn, show (word * 64 + bit) / 64 = word by omega,
        show (word * 64 + bit) % 64 = bit by omega, if_pos hbit]
  · rintro ⟨rfl, hvalue⟩
    rw [LogPage.valueIn] at hvalue
    split_ifs at hvalue with hbit
    have hoffset : a.toNat % 4096 / 64 * 64 + a.toNat % 4096 % 64 = a.toNat % 4096 := by omega
    refine ⟨a.toNat % 4096 / 64, by omega, a.toNat % 4096 % 64, hbit, ?_, ?_⟩
    · rw [hoffset, ← BitVec.toNat_inj, toNat_place hnumber (by omega), toNat_pageNumber]
      omega
    · rw [hoffset]
      exact Option.some.inj hvalue

lemma length_pageCells (number : Address) (page : LogPage) :
    (pageCells number page).length = page.bitCount := by
  simp only [pageCells, List.length_flatMap, List.length_map, length_bitsOf]
  rw [LogPage.bitCount, ← List.toFinset_range, List.sum_toFinset _ List.nodup_range]

/-- The cells of a page come by ascending address. -/
lemma pairwise_pageCells {number : Address} (hnumber : number.toNat < 2 ^ 52) (page : LogPage) :
    (pageCells number page).Pairwise fun cell cell' => cell.1 < cell'.1 := by
  have hlt : ∀ offset offset', offset < offset' → offset' < 4096 →
      (number <<< 12) + BitVec.ofNat 64 offset < (number <<< 12) + BitVec.ofNat 64 offset' := by
    intro offset offset' hlt hoffset
    rw [BitVec.lt_def, toNat_place hnumber hoffset, toNat_place hnumber (by omega)]
    omega
  have hbit : ∀ word, ∀ bit ∈ bitsOf (page.written word), bit < 64 := fun word bit hmem =>
    BitVec.lt_of_getLsbD (mem_bitsOf.mp hmem)
  rw [pageCells, List.pairwise_flatMap]
  constructor
  · intro word hword
    rw [List.pairwise_map]
    refine (pairwise_bitsOf (page.written word)).imp_of_mem ?_
    intro bit bit' hmem hmem' hbits
    have hbit' := hbit word bit' hmem'
    rw [List.mem_range] at hword
    exact hlt _ _ (by omega) (by omega)
  · refine List.pairwise_lt_range.imp_of_mem ?_
    intro word word' hword hword' hwords cell hcell cell' hcell'
    obtain ⟨bit, hmem, rfl⟩ := List.mem_map.mp hcell
    obtain ⟨bit', hmem', rfl⟩ := List.mem_map.mp hcell'
    have hbits := hbit word bit hmem
    have hbits' := hbit word' bit' hmem'
    rw [List.mem_range] at hword'
    exact hlt _ _ (by omega) (by omega)

section ForEach

variable {log : StoreLog} {order : List Address}

/-- **`forEach` has each address that was stored to, with the byte last stored there.** -/
theorem WellFormed.mem_forEach (h : log.WellFormed) (horder : order.Perm log.numbers)
    {a : Address} {v : Byte} : (a, v) ∈ log.forEach order ↔ log.valueAt a = some v := by
  rw [forEach, List.mem_flatMap, valueAt]
  constructor
  · rintro ⟨number, hmem, hcell⟩
    have hnumber := h.number_lt number (horder.mem_iff.mp hmem)
    cases hpage : log.pages number with
    | none => simp [hpage] at hcell
    | some page =>
      rw [hpage, Option.map_some, Option.getD_some, mem_pageCells hnumber] at hcell
      rw [hcell.1, hpage, Option.bind_some, hcell.2]
  · intro hvalue
    obtain ⟨page, hpage, hvalue⟩ := Option.bind_eq_some_iff.mp hvalue
    have hmem : a >>> 12 ∈ log.numbers := by
      rw [h.mem_iff, hpage]
      rfl
    refine ⟨a >>> 12, horder.mem_iff.mpr hmem, ?_⟩
    rw [hpage, Option.map_some, Option.getD_some, mem_pageCells (h.number_lt _ hmem)]
    exact ⟨rfl, hvalue⟩

/-- **`forEach` has no address twice.** -/
theorem WellFormed.nodup_forEach (h : log.WellFormed) (horder : order.Perm log.numbers) :
    ((log.forEach order).map Prod.fst).Nodup := by
  rw [List.Nodup, List.pairwise_map, forEach, List.pairwise_flatMap]
  constructor
  · intro number hmem
    cases log.pages number with
    | none => exact List.Pairwise.nil
    | some page =>
      have hcells := pairwise_pageCells (h.number_lt number (horder.mem_iff.mp hmem)) page
      exact hcells.imp BitVec.ne_of_lt
  · -- an address is of the page of its number, and of no other
    have hof : ∀ number ∈ order, ∀ cell ∈
        ((log.pages number).map fun page => pageCells number page).getD [],
        cell.1 >>> 12 = number := by
      intro number hmem cell hcell
      cases hpage : log.pages number with
      | none => simp [hpage] at hcell
      | some page =>
        rw [hpage, Option.map_some, Option.getD_some] at hcell
        exact ((mem_pageCells (h.number_lt number (horder.mem_iff.mp hmem))).mp hcell).1
    refine (horder.nodup_iff.mpr h.nodup).imp_of_mem ?_
    intro number number' hmem hmem' hne cell hcell cell' hcell' heq
    rw [← hof number hmem cell hcell, ← hof number' hmem' cell' hcell', heq] at hne
    exact hne rfl

/-- **`size` is how many bytes `forEach` has.** -/
theorem WellFormed.length_forEach (h : log.WellFormed) (horder : order.Perm log.numbers) :
    (log.forEach order).length = log.count := by
  have hlength : ∀ number,
      (((log.pages number).map fun page => pageCells number page).getD []).length =
        log.countOf number := by
    intro number
    rw [countOf]
    cases log.pages number with
    | none => rfl
    | some page => exact length_pageCells number page
  simp only [forEach, List.length_flatMap, hlength]
  rw [h.count_eq, ← List.toFinset_eq_of_perm _ _ horder,
    List.sum_toFinset _ (horder.nodup_iff.mpr h.nodup)]

end ForEach

/-- The calls of `note` of a run, one after another. -/
def noteAll (log : StoreLog) (stores : List (Address × ℕ × Bool × BitVec 64)) : StoreLog :=
  stores.foldl (fun log store => log.note store.1 store.2.1 store.2.2.1 store.2.2.2) log

/-- The bytes of a store, by their addresses. -/
def cellsOf (store : Address × ℕ × Bool × BitVec 64) : List (Address × Byte) :=
  span store.1 (split store.2.2.1 store.2.1 store.2.2.2)

lemma WellFormed.noted_noteAll {log : StoreLog} (h : log.WellFormed)
    (stores : List (Address × ℕ × Bool × BitVec 64)) :
    Noted log (stores.flatMap cellsOf) (log.noteAll stores) := by
  induction stores generalizing log with
  | nil => exact Noted.refl h
  | cons store stores ih =>
    have hnoted := h.noted_note store.1 store.2.1 store.2.2.1 store.2.2.2
    exact hnoted.trans (ih hnoted.wf)

/-- **A log has each byte that was stored, once, as it was stored last.**  That is so whatever was
stored, aligned or across words and pages and the end of the address space, and in whichever order
its pages come, and `size` is how many there are. -/
theorem forEach_noteAll (stores : List (Address × ℕ × Bool × BitVec 64)) {order : List Address}
    (horder : order.Perm (new.noteAll stores).numbers) :
    (((new.noteAll stores).forEach order).map Prod.fst).Nodup ∧
      ((new.noteAll stores).forEach order).length = (new.noteAll stores).count ∧
      ∀ a v, (a, v) ∈ (new.noteAll stores).forEach order ↔
        writes (fun _ => none) ((stores.flatMap cellsOf).map fun cell => (cell.1, some cell.2)) a =
          some v := by
  have hnoted := wellFormed_new.noted_noteAll stores
  refine ⟨hnoted.wf.nodup_forEach horder, hnoted.wf.length_forEach horder, fun a v => ?_⟩
  have hempty : new.valueAt = fun _ => none := rfl
  rw [hnoted.wf.mem_forEach horder, hnoted.value, hempty]

theorem forEach_noteAll_acrossPages :
    (0x2000, 4) ∈ (new.noteAll [(0x1FFE, 4, false, 0x04030201), (0x2000, 2, true, 0x0405)]).forEach
      [0x1, 0x2] :=
  ((forEach_noteAll [(0x1FFE, 4, false, 0x04030201), (0x2000, 2, true, 0x0405)]
    (by decide +kernel)).2.2 0x2000 4).mpr (by decide +kernel)

end StoreLog

end BapNative.Jit
