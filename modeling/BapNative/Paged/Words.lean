import BapNative.Paged.Pages

/-!
# Access by the word

`loadWord` and `storeInWord`, which load a word of eight bytes whole and exchange it for
one with a few bytes replaced, and `load` and `store`, which go through the words of a
range.  Addresses go on modulo `2^64`.

A load gives what the addresses hold.  A store within a word writes its bytes and nothing
else, whether or not the page is there: what is all zeros makes no page, and is what an
address without a page holds.
-/

namespace BapNative

open Block Overwrite

namespace PagedMemory

/-- `__atomic_load_n` of a word of the host. -/
def atomicLoad (m : PagedMemory) (word : HostPtr) : BitVec 64 :=
  ofBytes 64 (peek m.bytes word wordSize)

/-- `__atomic_store_n` of a word of the host. -/
def atomicStore (m : PagedMemory) (word : HostPtr) (value : BitVec 64) : PagedMemory :=
  m.setBytes word (toBytes wordSize value)

/-- `loadWord`: what is in the word of an address, as bytes in memory order. -/
def loadWord (m : PagedMemory) (address : Address) : List Byte :=
  let word : BitVec 64 :=
    match m.find address with
    | none => 0
    | some page => m.atomicLoad (wordAt page address)
  toBytes wordSize word

/-- `storeInWord`: bytes into the word of an address, with its other bytes as they are. -/
def storeInWord (m : PagedMemory) (address : Address) (bytes : List Byte) : PagedMemory :=
  let zero := bytes.all fun byte => byte == 0
  let (found, m) := if zero then (m.find address, m) else m.ensure address
  match found with
  | none => m
  | some page =>
    let word := wordAt page address
    let offset := wordOffset address
    if bytes.length = wordSize then m.atomicStore word (ofBytes 64 bytes)
    else
      -- with one thread the exchange finds what was loaded, and the loop runs once
      let expected := m.atomicLoad word
      let desired := ofBytes 64 (splice (toBytes wordSize expected) offset bytes)
      m.atomicStore word desired

/-- How much of `size` bytes from an address on is in its word: the `count` of `load` and
`store`. -/
def wordCount (address : Address) (size : ℕ) : ℕ :=
  if wordSize - wordOffset address < size then wordSize - wordOffset address else size

lemma wordOffset_add_wordCount_le (address : Address) (size : ℕ) :
    wordOffset address + wordCount address size ≤ 8 := by
  have h : wordOffset address < 8 := by rw [wordOffset_eq]; omega
  unfold wordCount
  split_ifs <;> simp only [wordSize] at * <;> omega

lemma wordCount_le (address : Address) (size : ℕ) : wordCount address size ≤ size := by
  unfold wordCount
  split_ifs <;> omega

lemma wordCount_pos (address : Address) {size : ℕ} (hsize : size ≠ 0) :
    0 < wordCount address size := by
  have h : wordOffset address < 8 := by rw [wordOffset_eq]; omega
  unfold wordCount
  split_ifs <;> simp only [wordSize] at * <;> omega

/-- `load`: the bytes of a range, a word at a time. -/
def load (m : PagedMemory) (address : Address) (size : ℕ) : List Byte :=
  if size = 0 then []
  else
    let count := wordCount address size
    ((m.loadWord address).drop (wordOffset address)).take count ++
      m.load (address + BitVec.ofNat 64 count) (size - count)
termination_by size
decreasing_by
  have := wordCount_pos address ‹_›
  omega

/-- `store`: bytes to a range, a word at a time. -/
def store (m : PagedMemory) (address : Address) (bytes : List Byte) : PagedMemory :=
  if bytes.length = 0 then m
  else
    let count := wordCount address bytes.length
    (m.storeInWord address (bytes.take count)).store (address + BitVec.ofNat 64 count)
      (bytes.drop count)
termination_by bytes.length
decreasing_by
  have := wordCount_pos address ‹_›
  simp only [List.length_drop]
  omega

/-- `read`: a byte. -/
def read (m : PagedMemory) (address : Address) : Byte := (m.load address 1).headI

/-- `readRange`. -/
def readRange (m : PagedMemory) (address : Address) (size : ℕ) : List Byte := m.load address size

/-! ## Addresses of one page -/

lemma toNat_add_ofNat {a : Address} {i : ℕ} (h : a.toNat + i < 2 ^ 64) :
    (a + BitVec.ofNat 64 i).toNat = a.toNat + i := by
  rw [BitVec.toNat_add, BitVec.toNat_ofNat, Nat.add_mod_mod, Nat.mod_eq_of_lt h]

/-- What addresses that follow each other in one page hold: the bytes of the page. -/
lemma values_of_find {m : PagedMemory} {a : Address} {page : HostPtr}
    (hpage : m.find a = some page) (count : ℕ) (hcount : a.toNat % 4096 + count ≤ 4096) :
    values m.byteAt a count = peek m.bytes (page.plus (a.toNat % 4096)) count := by
  have ha := a.isLt
  apply List.map_congr_left
  intro i hi
  rw [List.mem_range] at hi
  have hnat := toNat_add_ofNat (a := a) (i := i) (by omega)
  have hfind : m.find (a + BitVec.ofNat 64 i) = some page :=
    (find_congr m (by omega)).trans hpage
  rw [byteAt_of_find hfind, hnat, Place.plus_plus]
  congr 2
  omega

lemma values_of_find_none {m : PagedMemory} {a : Address} (hnone : m.find a = none) {count : ℕ}
    (hcount : a.toNat % 4096 + count ≤ 4096) :
    values m.byteAt a count = List.replicate count 0 := by
  have ha := a.isLt
  refine List.eq_replicate_iff.mpr ⟨by simp, fun v hv => ?_⟩
  obtain ⟨i, hi, rfl⟩ := List.mem_map.mp hv
  rw [List.mem_range] at hi
  have hnat := toNat_add_ofNat (a := a) (i := i) (by omega)
  exact byteAt_of_find_none ((find_congr m (by omega)).trans hnone)

/-! ## Loads -/

lemma toBytes_atomicLoad (m : PagedMemory) (word : HostPtr) :
    toBytes 8 (m.atomicLoad word) = peek m.bytes word 8 := by
  have h := toBytes_ofBytes (w := 64) (peek m.bytes word 8) (by simp)
  rwa [length_peek] at h

lemma wordAt_plus_wordOffset (page : HostPtr) (a : Address) :
    (wordAt page a).plus (wordOffset a) = page.plus (a.toNat % 4096) := by
  rw [wordAt_eq, wordOffset_eq, Place.plus_plus]
  congr 1
  omega

/-- The bytes of a word, from an address on. -/
lemma loadWord_drop_take (m : PagedMemory) (a : Address) {count : ℕ}
    (hcount : wordOffset a + count ≤ 8) :
    ((m.loadWord a).drop (wordOffset a)).take count = values m.byteAt a count := by
  have hpage : a.toNat % 4096 + count ≤ 4096 := by
    rw [wordOffset_eq] at hcount
    omega
  cases hfind : m.find a with
  | none =>
    rw [values_of_find_none hfind hpage]
    simp only [loadWord, hfind, wordSize]
    rw [show (0 : BitVec 64) = 0#64 from rfl, toBytes_zero, List.drop_replicate,
      List.take_replicate, min_eq_left (by omega)]
  | some page =>
    rw [values_of_find hfind count hpage]
    simp only [loadWord, hfind, wordSize]
    rw [toBytes_atomicLoad, take_drop_peek _ _ hcount, wordAt_plus_wordOffset]

/-- **A load gives what the addresses hold, modulo `2^64`.** -/
theorem load_eq (m : PagedMemory) (a : Address) (size : ℕ) :
    m.load a size = values m.byteAt a size := by
  induction size using Nat.strongRecOn generalizing a with
  | ind size ih =>
    rw [load]
    split_ifs with hsize
    · rw [hsize]
      rfl
    · have hpos := wordCount_pos a hsize
      have hle := wordCount_le a size
      simp only
      rw [loadWord_drop_take m a (wordOffset_add_wordCount_le a size), ih _ (by omega),
        ← values_add, Nat.add_sub_cancel' hle]

lemma read_eq (m : PagedMemory) (a : Address) : m.read a = m.byteAt a := by
  simp [read, load_eq, values, List.headI]

/-! ## Stores -/

/-- `m'` is `m` with the cells of a list written, and the same step. -/
structure Wrote (m : PagedMemory) (cells : List (Address × Byte)) (m' : PagedMemory) : Prop where
  wf : m'.WellFormed
  byteAt : m'.byteAt = writes m.byteAt cells
  stepState : m'.stepState = m.stepState
  keeps : KeepsPages m m'

lemma Wrote.refl {m : PagedMemory} (h : m.WellFormed) : Wrote m [] m :=
  ⟨h, rfl, rfl, KeepsPages.refl m⟩

lemma Wrote.trans {m m' m'' : PagedMemory} {cells cells' : List (Address × Byte)}
    (h : Wrote m cells m') (h' : Wrote m' cells' m'') : Wrote m (cells ++ cells') m'' :=
  ⟨h'.wf, by rw [writes_append, h'.byteAt, h.byteAt], h'.stepState.trans h.stepState,
    h.keeps.trans h'.keeps⟩

lemma Ensured.wrote {m m' : PagedMemory} {a : Address} {page : HostPtr}
    (h : Ensured m a page m') : Wrote m [] m' :=
  ⟨h.wf, funext h.byteAt, h.stepState, h.keeps⟩

lemma Ensured.find_self {m m' : PagedMemory} {a : Address} {page : HostPtr}
    (h : Ensured m a page m') : m'.find a = some page := by
  rw [h.find, if_pos rfl]

/-- A copy into the page of an address. -/
lemma WellFormed.wrote_setBytes {m : PagedMemory} (h : m.WellFormed) {a : Address}
    {page : HostPtr} (hpage : m.find a = some page) (values : List Byte)
    (hlen : a.toNat % 4096 + values.length ≤ 4096) :
    Wrote m (span a values) (m.setBytes (page.plus (a.toNat % 4096)) values) :=
  ⟨h.setBytes hpage hlen, h.byteAt_setBytes hpage hlen, rfl, KeepsPages.refl m⟩

/-- The exchange of a word is a copy of the bytes that are replaced in it. -/
lemma atomicStore_splice (m : PagedMemory) (page : HostPtr) (a : Address) {bytes : List Byte}
    (hlen : wordOffset a + bytes.length ≤ 8) :
    m.atomicStore (wordAt page a)
        (ofBytes 64 (splice (toBytes 8 (m.atomicLoad (wordAt page a))) (wordOffset a) bytes)) =
      m.setBytes (page.plus (a.toNat % 4096)) bytes := by
  have hsplice : (splice (peek m.bytes (wordAt page a) 8) (wordOffset a) bytes).length = 8 := by
    rw [length_splice (by simpa using hlen), length_peek]
  have hround := toBytes_ofBytes (w := 64)
    (splice (peek m.bytes (wordAt page a) 8) (wordOffset a) bytes) (by omega)
  rw [hsplice] at hround
  rw [atomicStore, toBytes_atomicLoad, wordSize, hround, setBytes, poke_splice_peek _ _ hlen,
    wordAt_plus_wordOffset]
  rfl

/-- A store of a whole word is a copy of its bytes. -/
lemma atomicStore_whole (m : PagedMemory) (page : HostPtr) (a : Address) {bytes : List Byte}
    (hsize : bytes.length = 8) (hlen : wordOffset a + bytes.length ≤ 8) :
    m.atomicStore (wordAt page a) (ofBytes 64 bytes) =
      m.setBytes (page.plus (a.toNat % 4096)) bytes := by
  have hround := toBytes_ofBytes (w := 64) bytes (by omega)
  have hoffset : wordOffset a = 0 := by omega
  have hplace := wordAt_plus_wordOffset page a
  rw [hoffset, Place.plus_zero] at hplace
  rw [atomicStore, wordSize, ← hsize, hround, hplace]

/-- A store within a word, once the page is there. -/
lemma WellFormed.wrote_word {m : PagedMemory} (h : m.WellFormed) {a : Address} {page : HostPtr}
    (hpage : m.find a = some page) {bytes : List Byte} (hlen : wordOffset a + bytes.length ≤ 8) :
    Wrote m (span a bytes)
      (if bytes.length = wordSize then m.atomicStore (wordAt page a) (ofBytes 64 bytes)
      else m.atomicStore (wordAt page a)
        (ofBytes 64 (splice (toBytes wordSize (m.atomicLoad (wordAt page a)))
          (wordOffset a) bytes))) := by
  have hin : a.toNat % 4096 + bytes.length ≤ 4096 := by
    rw [wordOffset_eq] at hlen
    omega
  split_ifs with hsize
  · rw [atomicStore_whole m page a hsize hlen]
    exact h.wrote_setBytes hpage bytes hin
  · rw [wordSize, atomicStore_splice m page a hlen]
    exact h.wrote_setBytes hpage bytes hin

/-- **A store within a word writes its bytes and nothing else.** -/
theorem WellFormed.wrote_storeInWord {m : PagedMemory} (h : m.WellFormed) {a : Address}
    (bytes : List Byte) (hlen : wordOffset a + bytes.length ≤ 8) :
    Wrote m (span a bytes) (m.storeInWord a bytes) := by
  have hin : a.toNat % 4096 + bytes.length ≤ 4096 := by
    rw [wordOffset_eq] at hlen
    omega
  by_cases hzero : bytes.all (fun byte => byte == 0) = true
  · have hall : ∀ byte ∈ bytes, byte = 0 := by simpa using hzero
    cases hfind : m.find a with
    | none =>
      -- zeros where there is no page make none, and were there before
      have heq : m.storeInWord a bytes = m := by
        simp only [storeInWord, hzero, hfind, if_true]
      rw [heq]
      exact ⟨h, byteAt_eq_writes_zeros hfind hall hin, rfl, KeepsPages.refl m⟩
    | some page =>
      simp only [storeInWord, hzero, hfind, if_true]
      exact h.wrote_word hfind hlen
  · obtain ⟨page, hpage, hens⟩ := h.ensure_spec a
    simp only [storeInWord, hzero, Bool.false_eq_true, if_false, hpage]
    have hwrote := hens.wrote.trans (hens.wf.wrote_word hens.find_self hlen)
    rwa [List.nil_append] at hwrote

/-- **A store writes its bytes to the addresses that follow each other, modulo `2^64`.** -/
theorem WellFormed.wrote_store {m : PagedMemory} (h : m.WellFormed) (a : Address)
    (bytes : List Byte) : Wrote m (span a bytes) (m.store a bytes) := by
  induction hn : bytes.length using Nat.strongRecOn generalizing m a bytes with
  | ind n ih =>
    rw [store]
    split_ifs with hsize
    · rw [List.length_eq_zero_iff.mp hsize]
      exact Wrote.refl h
    · have hpos := wordCount_pos a hsize
      have hle := wordCount_le a bytes.length
      have hcount := wordOffset_add_wordCount_le a bytes.length
      have htake : (bytes.take (wordCount a bytes.length)).length = wordCount a bytes.length := by
        rw [List.length_take, min_eq_left hle]
      have hword := h.wrote_storeInWord (bytes.take (wordCount a bytes.length))
        (by rw [htake]; exact hcount)
      have hrest := ih (bytes.drop (wordCount a bytes.length)).length
        (by rw [List.length_drop]; omega) hword.wf
        (a + BitVec.ofNat 64 (wordCount a bytes.length)) _ rfl
      have hboth := hword.trans hrest
      nth_rewrite 2 [← htake] at hboth
      rwa [← span_append, List.take_append_drop] at hboth

end PagedMemory

end BapNative
