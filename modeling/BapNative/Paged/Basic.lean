import BapNative.Lib.Block
import BapNative.Lib.Mask
import BapNative.Lib.Overwrite
import BapNative.Lib.PointerTree

/-!
# The data of a paged memory

A guest address space of 64-bit addresses (`native/paged_memory.h`): pages of the host,
found through a table of four levels.  This file has the constants, the state of a
memory and the arithmetic of addresses: which entry of the table an address has at each
level, and where it is in its page and in its word.

The model is that of one thread.  What the source does with an atomic operation is a read
or a write of the state, and a lock is nothing.  The host has memory to give: the failures
of its allocator are not modelled.
-/

namespace BapNative

open Block Mask

/-! ## Constants -/

/-- `pageBits`: a page has `2^12` bytes. -/
def pageBits : ℕ := 12

/-- `pageSize`, which is `1 << pageBits`. -/
def pageSize : ℕ := 2 ^ pageBits

/-- `wordSize`, which is `sizeof(uint64_t)`. -/
def wordSize : ℕ := 8

/-- `levelBits`: how many bits of an address a level of the table is indexed by. -/
def levelBits : ℕ := 13

/-- `levels` of the table. -/
def levels : ℕ := 4

/-- `fanout`, the entries of a node. -/
def fanout : ℕ := 2 ^ levelBits

/-- `chunkPages`: how many pages the host is asked for at once. -/
def chunkPages : ℕ := 256

/-- `stepLimit`: how many writes of a step are remembered. -/
def stepLimit : ℕ := 2 ^ 22

attribute [simp] pageBits pageSize wordSize levelBits levels fanout chunkPages

/-! ## The state -/

/-- `uint64_t`, an address of the guest. -/
abbrev Address := BitVec 64

/-- `uint8_t`, a byte of the guest. -/
abbrev Byte := BitVec 8

/-- An index into the entries of a node, of which there are `fanout`. -/
abbrev Index := BitVec 13

/-- `uint8_t *`: a byte of the host, by the chunk that it is in and how far into it. -/
abbrev HostPtr := Place ℕ

/-- `void *`, which an entry of a node holds: a node of the next level, or a page. -/
inductive Pointer where
  /-- A node, by the order in which they were made. -/
  | node (id : ℕ)
  /-- A page. -/
  | page (p : HostPtr)
deriving DecidableEq

/-- `static_cast<uint8_t *>` of an entry of the last level. -/
def Pointer.asPage : Pointer → Option HostPtr
  | node _ => none
  | page p => some p

/-- The node that every address starts at. -/
def rootNode : Pointer := .node 0

/-- A `PagedMemory`. -/
structure PagedMemory where
  /-- The entries of the nodes: `root`, which is the first of them, and what `new Node` made. -/
  nodes : ℕ → Index → Option Pointer
  /-- How many nodes there are. -/
  nodeCount : ℕ
  /-- What the chunks hold. -/
  bytes : HostPtr → Byte
  /-- How many `chunks` there are. -/
  chunks : ℕ
  /-- Pages that were taken from a chunk and not used, the last of the vector first. -/
  unused : List HostPtr
  /-- How many pages of the last chunk are taken. -/
  chunkUsed : ℕ
  /-- Whether a step is open. -/
  stepOpen : Bool
  /-- What has been written since the step began, in order: where, and how many bytes. -/
  stepWrites : List (Address × BitVec 8)
  /-- Whether that was too much to remember. -/
  stepOverflowed : Bool

namespace PagedMemory

/-- `PagedMemory()`: a root without entries, no chunk, no step. -/
def empty : PagedMemory where
  nodes := fun _ _ => none
  nodeCount := 1
  bytes := fun _ => 0
  chunks := 0
  unused := []
  chunkUsed := chunkPages
  stepOpen := false
  stepWrites := []
  stepOverflowed := false

/-- `node->entries[index].load()`.  A page has no entries. -/
def entry (m : PagedMemory) : Pointer → Index → Option Pointer
  | .node id, index => m.nodes id index
  | .page _, _ => none

end PagedMemory

/-! ## Indices -/

/-- How far an address is shifted for its index at a level. -/
def shiftAt (level : ℕ) : ℕ := pageBits + (levels - 1 - level) * levelBits

/-- `indexAt`: which entry an address has in its node of a level. -/
def indexAt (address : Address) (level : ℕ) : Index :=
  ((address >>> shiftAt level) &&& BitVec.ofNat 64 (fanout - 1)).setWidth 13

lemma toNat_indexAt (address : Address) (level : ℕ) :
    (indexAt address level).toNat = address.toNat / 2 ^ shiftAt level % 8192 := by
  have h := toNat_and_lowMask (k := 13) (by omega : 13 ≤ 64) (address >>> shiftAt level)
  rw [indexAt, BitVec.toNat_setWidth, show fanout - 1 = 2 ^ 13 - 1 from rfl, h,
    BitVec.toNat_ushiftRight, Nat.shiftRight_eq_div_pow]
  norm_num

/-- The indices of an address, from the root on. -/
def path (address : Address) : List Index := (List.range levels).map (indexAt address)

@[simp] lemma length_path (address : Address) : (path address).length = 4 := by simp [path]

/-- Two addresses have the same indices when they are in the same page. -/
lemma path_eq_iff {a b : Address} : path a = path b ↔ a.toNat / 4096 = b.toNat / 4096 := by
  have ha := a.isLt
  have hb := b.isLt
  have hidx : path a = path b ↔ ∀ level < 4, (indexAt a level).toNat = (indexAt b level).toNat := by
    simp only [path, List.map_inj_left, List.mem_range, levels]
    exact ⟨fun h level hl => congrArg _ (h level hl),
      fun h level hl => BitVec.eq_of_toNat_eq (h level hl)⟩
  rw [hidx]
  simp only [toNat_indexAt]
  constructor
  · intro h
    have h0 := h 0 (by omega)
    have h1 := h 1 (by omega)
    have h2 := h 2 (by omega)
    have h3 := h 3 (by omega)
    simp only [shiftAt, pageBits, levels, levelBits] at h0 h1 h2 h3
    norm_num at h0 h1 h2 h3
    omega
  · intro h level hl
    have hshift : shiftAt level = 12 + (shiftAt level - 12) := by simp [shiftAt]
    rw [hshift, pow_add, ← Nat.div_div_eq_div_mul, ← Nat.div_div_eq_div_mul]
    norm_num [h]

/-! ## Pages and words -/

/-- `address & (pageSize - 1)`: where an address is in its page. -/
def pageOffset (address : Address) : ℕ := (address &&& BitVec.ofNat 64 (pageSize - 1)).toNat

/-- `address & ~(pageSize - 1)`: where the page of an address starts. -/
def pageBase (address : Address) : Address := address &&& ~~~(BitVec.ofNat 64 (pageSize - 1))

/-- `address & (wordSize - 1)`: where an address is in its word. -/
def wordOffset (address : Address) : ℕ := (address &&& BitVec.ofNat 64 (wordSize - 1)).toNat

/-- `wordAt`: the word of an address, in its page. -/
def wordAt (page : HostPtr) (address : Address) : HostPtr :=
  page.plus (address &&& BitVec.ofNat 64 (pageSize - wordSize)).toNat

lemma pageOffset_eq (a : Address) : pageOffset a = a.toNat % 4096 :=
  toNat_and_lowMask (k := 12) (by omega) a

lemma toNat_pageBase (a : Address) : (pageBase a).toNat = a.toNat / 4096 * 4096 :=
  toNat_and_not_lowMask (k := 12) (by omega) a

lemma wordOffset_eq (a : Address) : wordOffset a = a.toNat % 8 :=
  toNat_and_lowMask (k := 3) (by omega) a

/-- The word of an address starts at the last multiple of eight before it in its page. -/
lemma wordAt_eq (page : HostPtr) (a : Address) :
    wordAt page a = page.plus (a.toNat % 4096 / 8 * 8) := by
  have hmask : BitVec.ofNat 64 (pageSize - wordSize) =
      BitVec.ofNat 64 (2 ^ 12 - 1) &&& ~~~(BitVec.ofNat 64 (2 ^ 3 - 1)) := by decide
  rw [wordAt, hmask, ← BitVec.and_assoc, toNat_and_not_lowMask (by omega),
    toNat_and_lowMask (by omega)]
  norm_num

end BapNative
