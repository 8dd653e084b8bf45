import BapNative.Jit.Filter
import BapNative.Jit.StoreLog
import BapNative.Paged.Run

/-!
# The memory of a run

`BapCells` of `native/bap_jit.cpp`, through which the code of a program has its memory while
it runs: the functions that it calls, and what `compile` emits for an access.  An access
tells the observer first, unless the last range that the filter let one through in is known
to cover it, and then goes by one instruction of the host where it is aligned and the page
is known or can be had, and byte by byte otherwise.  What was stored is noted in a log.

`Flat` is what an access is to be, as the obligations of `Bap/Jit.lean` have it: a flat map,
and no page, no entry and no range that is remembered.  Every function here keeps an
invariant of what is remembered, and does to the flat map what `Flat` says.
-/

namespace BapNative.Jit

open Block Endian Overwrite PagedMemory

/-! ## What a run is given -/

/-- What Lean code has done when it returns to the run that called it. -/
structure Reaction (W E : Type) where
  /-- The world after it. -/
  world : W
  /-- What it did to the memory of the run. -/
  ops : List MemoryOp
  /-- All that it can do to a memory that a run has tells an open step. -/
  logged : ∀ op ∈ ops, op.Logged
  /-- What it made of the filter. -/
  filter : MemoryFilter → MemoryFilter
  /-- What it threw, if it did. -/
  error : Option E

/-- What a run is given, and doesn't change. -/
structure Setup (W E : Type) where
  host : Host
  /-- `llvm::sys::IsBigEndianHost`. -/
  bigEndianHost : Bool
  /-- The memory observer, if there is one, which may read the memory: of a store or not, the
  address, the size and the value. -/
  observer : Option (W → (Address → Byte) → Bool → Address → ℕ → BitVec 64 → Reaction W E)
  /-- The code observer, if there is one, which may stop the run. -/
  codeObserver : Option (W → (Address → Byte) → Address → Reaction W E × Bool)
  quietSites : Bool
  /-- `lean_mk_io_user_error`. -/
  userError : String → E

/-- `BapPageEntry`: a tag is one more than the number of a page, so that 0 is none. -/
structure PageEntry where
  tag : BitVec 64
  page : HostPtr

/-- `BapCells`, of a run with pages and a log. -/
structure Cells (W E : Type) where
  world : W
  pages : PagedMemory
  changes : StoreLog
  filter : Option MemoryFilter
  error : Option E
  leanRan : Bool
  pendingSite : Bool
  pendingPc : Address
  /-- The first address of the range that the filter last let a read, or a write, through in. -/
  quietFirst : Bool → Address
  /-- Its last address. -/
  quietLast : Bool → Address
  pageEntries : ℕ → PageEntry

/-- `pageEntryCount`. -/
def pageEntryCount : ℕ := 64

variable {W E : Type} (setup : Setup W E)

namespace Cells

/-! ## The functions of the run -/

/-- `forgetQuiet`. -/
def forgetQuiet (cells : Cells W E) : Cells W E :=
  { cells with quietFirst := fun _ => 1, quietLast := fun _ => 0 }

/-- `failCells`: once there is an error nothing takes effect. -/
def failCells (cells : Cells W E) (error : E) : Cells W E :=
  { cells with error := some error, pageEntries := fun _ => ⟨0, ⟨0, 0⟩⟩ }.forgetQuiet

/-- What is left of the call of an observer, before its error is looked at. -/
def react (cells : Cells W E) (reaction : Reaction W E) : Cells W E :=
  { cells with
    world := reaction.world
    pages := reaction.ops.foldl (PagedMemory.apply setup.host) cells.pages
    filter := cells.filter.map reaction.filter }

/-- The call of an observer: nothing is known to be quiet after it, and what it throws is the
error of the run. -/
def called (cells : Cells W E) (reaction : Reaction W E) : Cells W E :=
  let cells := cells.forgetQuiet.react setup reaction
  match reaction.error with
  | some error => cells.failCells error
  | none => cells

/-- `callCodeObserver`: whether it stops the run. -/
def callCodeObserver (cells : Cells W E) (pc : Address) : Bool × Cells W E :=
  match setup.codeObserver with
  | none => (false, cells)
  | some observer =>
    let (reaction, stop) := observer cells.world cells.pages.read pc
    (reaction.error.isSome || stop, cells.called setup reaction)

/-- The part of `bap_jit_memory_notify` that calls the observer. -/
def callObserver
    (observer : W → (Address → Byte) → Bool → Address → ℕ → BitVec 64 → Reaction W E)
    (cells : Cells W E) (write : Bool) (address : Address) (size : ℕ) (value : BitVec 64) :
    Cells W E :=
  { cells with leanRan := true }.called setup
    (observer cells.world cells.pages.read write address size value)

/-- The part of `bap_jit_memory_notify` that tells of the site that waited, and whether that
fails the run. -/
def callPending (cells : Cells W E) : Bool × Cells W E :=
  if cells.pendingSite then
    let (stop, cells) := { cells with pendingSite := false, leanRan := true }.callCodeObserver setup
      cells.pendingPc
    (stop, if stop && cells.error.isNone then
        cells.failCells (setup.userError "a code site that waited stops the run")
      else cells)
  else (false, cells)

/-- `bap_jit_memory_notify`. -/
def memoryNotify (cells : Cells W E) (write : Bool) (address : Address) (size : ℕ)
    (value : BitVec 64) : Cells W E :=
  match setup.observer with
  | none => cells
  | some observer =>
    if cells.error.isSome then cells
    else
      match cells.filter.bind fun filter => filter.quietRange address size write with
      | some range =>
        { cells with
          quietFirst := Function.update cells.quietFirst write range.first
          quietLast := Function.update cells.quietLast write range.last }
      | none =>
        match cells.callPending setup with
        | (true, cells) => cells
        | (false, cells) => cells.callObserver setup observer write address size value

/-- `bap_jit_code_notify`. -/
def codeNotify (cells : Cells W E) (pc : Address) : Bool × Cells W E :=
  if setup.codeObserver.isNone || cells.error.isSome then (cells.error.isSome, cells)
  else if setup.quietSites && !cells.leanRan then
    (false, { cells with pendingSite := true, pendingPc := pc })
  else cells.callCodeObserver setup pc

/-- `bap_jit_memory_load_bytes`. -/
def loadBytes (cells : Cells W E) (address : Address) (size : ℕ) (bigEndian : Bool) : BitVec 64 :=
  if cells.error.isSome then 0 else join 64 bigEndian (cells.pages.load address size)

/-- `bap_jit_memory_note`. -/
def memoryNote (cells : Cells W E) (address : Address) (size : ℕ) (bigEndian : Bool)
    (value : BitVec 64) : Cells W E :=
  { cells with changes := cells.changes.note address size bigEndian value }

/-- `bap_jit_memory_store_bytes`. -/
def storeBytes (cells : Cells W E) (address : Address) (size : ℕ) (bigEndian : Bool)
    (value : BitVec 64) : Cells W E :=
  if cells.error.isSome then cells
  else { cells with pages := cells.pages.store address (split bigEndian size value) }.memoryNote
    address size bigEndian value

/-- `bap_jit_memory_page`: the page of an address, which is remembered.  Only a store makes
one. -/
def memoryPage (cells : Cells W E) (address : Address) (write : Bool) :
    Option HostPtr × Cells W E :=
  if cells.error.isSome then (none, cells)
  else
    let (page, pages) :=
      if write then cells.pages.ensure address else (cells.pages.find address, cells.pages)
    match page with
    | none => (none, { cells with pages := pages })
    | some page =>
      let number := address >>> 12
      (some page, { cells with
        pages := pages
        pageEntries := Function.update cells.pageEntries
          (number &&& BitVec.ofNat 64 (pageEntryCount - 1)).toNat ⟨number + 1, page⟩ })

/-! ## What is emitted for an access -/

/-- `notifyAccess`: the observer, unless the access lies within the range that is known. -/
def notifyAccess (cells : Cells W E) (write : Bool) (base : Address) (size : ℕ)
    (value : BitVec 64) : Cells W E :=
  let end_ := base + BitVec.ofNat 64 (size - 1)
  if cells.quietFirst write ≤ base ∧ end_ ≤ cells.quietLast write ∧ base ≤ end_ then cells
  else cells.memoryNotify setup write base size value

/-- `hasInstruction`: the sizes that the host has an instruction for. -/
def hasInstruction (size : ℕ) : Bool := size == 1 || size == 2 || size == 4 || size == 8

/-- `pageForAccess`: the page of an access that an instruction can do, if it can be had. -/
def pageForAccess (cells : Cells W E) (base : Address) (size : ℕ) (write : Bool) :
    Option HostPtr × Cells W E :=
  let aligned := base &&& BitVec.ofNat 64 (size - 1) == 0#64
  let number := base >>> 12
  let entry := cells.pageEntries (number &&& BitVec.ofNat 64 (pageEntryCount - 1)).toNat
  if aligned && entry.tag == number + 1 then (some entry.page, cells)
  else if aligned then cells.memoryPage base write
  else (none, cells)

/-- What is emitted for `memLoad`. -/
def memLoad (cells : Cells W E) (base : Address) (size : ℕ) (bigEndian : Bool) :
    BitVec 64 × Cells W E :=
  let cells := cells.notifyAccess setup false base size 0
  if hasInstruction size then
    match cells.pageForAccess base size false with
    | (some page, cells) =>
      let loaded := hostLoad setup.bigEndianHost size
        (peek cells.pages.bytes (page.plus (pageOffset base)) size)
      ((swapped setup.bigEndianHost bigEndian loaded).setWidth 64, cells)
    | (none, cells) => (cells.loadBytes base size bigEndian, cells)
  else (cells.loadBytes base size bigEndian, cells)

/-- What is emitted for `memStore`. -/
def memStore (cells : Cells W E) (base : Address) (stored : BitVec 64) (size : ℕ)
    (bigEndian : Bool) : Cells W E :=
  let cells := cells.notifyAccess setup true base size stored
  if hasInstruction size then
    match cells.pageForAccess base size true with
    | (some page, cells) =>
      let written := hostStore setup.bigEndianHost
        (swapped setup.bigEndianHost bigEndian (stored.setWidth (8 * size)))
      { cells with pages := cells.pages.setBytes (page.plus (pageOffset base)) written }.memoryNote
        base size bigEndian stored
    | (none, cells) => cells.storeBytes base size bigEndian stored
  else cells.storeBytes base size bigEndian stored

/-- What is emitted for `code`: whether the run stops at a site.  What `codeNotify` does
without running Lean code is done without a call of it. -/
def code (cells : Cells W E) (pc : Address) : Bool × Cells W E :=
  let observed := setup.codeObserver.isSome
  let fine := cells.error.isNone
  let waits := setup.quietSites && !cells.leanRan
  if fine && !observed then (false, cells)
  else if fine && waits then (false, { cells with pendingSite := true, pendingPc := pc })
  else cells.codeNotify setup pc

end Cells

/-! ## What an access is to be -/

/-- A run as it is seen from outside. -/
structure Flat (W E : Type) where
  world : W
  /-- What the memory holds. -/
  memory : Address → Byte
  /-- What the stores of the run last wrote, where they did. -/
  stored : Address → Option Byte
  filter : Option MemoryFilter
  error : Option E
  leanRan : Bool
  /-- The code site that waits for the memory observer to be called. -/
  pending : Option Address

namespace Flat

/-- What Lean code that is called leaves. -/
def react (flat : Flat W E) (reaction : Reaction W E) : Flat W E :=
  { flat with
    world := reaction.world
    memory := (reaction.ops.map MemoryOp.written).foldl patch flat.memory
    filter := flat.filter.map reaction.filter
    error := reaction.error.or flat.error }

/-- Whether an access lies wholly within a range of the filter that lets its kind through. -/
def Quiet (flat : Flat W E) (write : Bool) (address : Address) (size : ℕ) : Prop :=
  ∃ filter, flat.filter = some filter ∧ ∃ range ∈ filter.ranges,
    range.Within address size ∧ range.quiet write = true

/-- The code observer is called: whether it stops the run, which it does when it throws. -/
def callCode (flat : Flat W E) (pc : Address) : Bool × Flat W E :=
  match setup.codeObserver with
  | none => (false, flat)
  | some observer =>
    let (reaction, stop) := observer flat.world flat.memory pc
    (reaction.error.isSome || stop, flat.react reaction)

/-- The site that waits, if one does, is told of first, and fails the run if it stops it. -/
def callPending (flat : Flat W E) : Flat W E :=
  match flat.pending with
  | none => flat
  | some pc =>
    let (stop, flat) := { flat with pending := none, leanRan := true }.callCode setup pc
    if stop && flat.error.isNone then
      { flat with error := some (setup.userError "a code site that waited stops the run") }
    else flat

/-- The observer is called, after the site that waits, unless that fails the run. -/
def callObserver
    (observer : W → (Address → Byte) → Bool → Address → ℕ → BitVec 64 → Reaction W E)
    (flat : Flat W E) (write : Bool) (address : Address) (size : ℕ) (value : BitVec 64) :
    Flat W E :=
  let flat := flat.callPending setup
  if flat.error.isSome then flat
  else { flat with leanRan := true }.react
    (observer flat.world flat.memory write address size value)

open Classical in
/-- The observer is called once before an access, unless there is an error or the access is
quiet. -/
noncomputable def notify (flat : Flat W E) (write : Bool) (address : Address) (size : ℕ)
    (value : BitVec 64) : Flat W E :=
  match setup.observer with
  | none => flat
  | some observer =>
    if flat.error.isSome ∨ flat.Quiet write address size then flat
    else flat.callObserver setup observer write address size value

/-- What is loaded: the bytes at the addresses from the base on, in their order. -/
def loaded (flat : Flat W E) (base : Address) (size : ℕ) (bigEndian : Bool) : BitVec 64 :=
  if flat.error.isSome then 0
  else ofBytes 64 (ordered bigEndian (values flat.memory base size))

/-- A load, after the observer was told. -/
noncomputable def load (flat : Flat W E) (base : Address) (size : ℕ) (bigEndian : Bool) :
    BitVec 64 × Flat W E :=
  let flat := flat.notify setup false base size 0
  (flat.loaded base size bigEndian, flat)

/-- What is stored: the bytes of the value, in their order, at the addresses from the base on. -/
def afterStore (flat : Flat W E) (base : Address) (value : BitVec 64) (size : ℕ)
    (bigEndian : Bool) : Flat W E :=
  let cells := span base (ordered bigEndian (toBytes size value))
  if flat.error.isSome then flat
  else { flat with
    memory := writes flat.memory cells
    stored := writes flat.stored (cells.map fun cell => (cell.1, some cell.2)) }

/-- A store, after the observer was told. -/
noncomputable def store (flat : Flat W E) (base : Address) (value : BitVec 64) (size : ℕ)
    (bigEndian : Bool) : Flat W E :=
  (flat.notify setup true base size value).afterStore base value size bigEndian

/-- A code site: whether the run stops there. -/
def code (flat : Flat W E) (pc : Address) : Bool × Flat W E :=
  if flat.error.isSome then (true, flat)
  else if setup.codeObserver.isNone then (false, flat)
  else if setup.quietSites && !flat.leanRan then (false, { flat with pending := some pc })
  else flat.callCode setup pc

end Flat

/-! ## What is remembered -/

namespace Cells

/-- A run as it is seen from outside. -/
def abs (cells : Cells W E) : Flat W E where
  world := cells.world
  memory := cells.pages.byteAt
  stored := cells.changes.valueAt
  filter := cells.filter
  error := cells.error
  leanRan := cells.leanRan
  pending := if cells.pendingSite then some cells.pendingPc else none

/-- What is remembered is so: an entry has the page of its number, and the range that is known
to be quiet is one of the filter.  With an error nothing is remembered. -/
structure Inv (cells : Cells W E) : Prop where
  pages : cells.pages.WellFormed
  changes : cells.changes.WellFormed
  entries : ∀ (i : ℕ) (a : Address), (cells.pageEntries i).tag = (a >>> 12) + 1 →
    cells.error = none ∧ cells.pages.find a = some (cells.pageEntries i).page
  quiet : ∀ write, cells.quietFirst write ≤ cells.quietLast write →
    setup.observer.isSome ∧ cells.error = none ∧ ∃ filter, cells.filter = some filter ∧
      ∃ range ∈ filter.ranges, range.first = cells.quietFirst write ∧
        range.last = cells.quietLast write ∧ range.quiet write = true

/-- What a run owes to the step of the memory that it started with: an address whose byte is
another is known to the step or in the log, from which the step is told in the end. -/
structure Owes (m : PagedMemory) (cells : Cells W E) : Prop where
  stepOpen : cells.pages.stepOpen = m.stepOpen
  overflowed : cells.pages.stepOverflowed = false → m.stepOverflowed = false
  keeps : cells.pages.stepOverflowed = false → ∀ a ∈ m.noted, a ∈ cells.pages.noted
  notes : m.stepOpen = true → cells.pages.stepOverflowed = false → ∀ a,
    cells.pages.byteAt a ≠ m.byteAt a → a ∈ cells.pages.noted ∨ (cells.changes.valueAt a).isSome

/-- Cells come to others, which are seen as a flat run. -/
structure Refines (cells cells' : Cells W E) (flat : Flat W E) : Prop where
  inv : cells'.Inv setup
  abs : cells'.abs = flat
  owes : ∀ m, Owes m cells → Owes m cells'

variable {setup} {cells cells' cells'' : Cells W E}

lemma Inv.refines (h : cells.Inv setup) : Refines setup cells cells cells.abs :=
  ⟨h, rfl, fun _ => id⟩

lemma Refines.trans {flat flat' : Flat W E} (h : Refines setup cells cells' flat)
    (h' : Refines setup cells' cells'' flat') : Refines setup cells cells'' flat' :=
  ⟨h'.inv, h'.abs, fun m hm => h'.owes m (h.owes m hm)⟩

lemma Refines.self {flat : Flat W E} (h : Refines setup cells cells' flat) :
    Refines setup cells cells' cells'.abs := ⟨h.inv, rfl, h.owes⟩

lemma Refines.of_owes {flat : Flat W E} (h : Refines setup cells' cells'' flat)
    (howes : ∀ m, Owes m cells → Owes m cells') : Refines setup cells cells'' flat :=
  ⟨h.inv, h.abs, fun m hm => h.owes m (howes m hm)⟩

/-- What only changes what is remembered, or the site that waits, owes what it did. -/
lemma Owes.of_same {m : PagedMemory} (h : Owes m cells) (hpages : cells'.pages = cells.pages)
    (hchanges : cells'.changes = cells.changes) : Owes m cells' := by
  obtain ⟨hopen, hover, hkeeps, hnotes⟩ := h
  refine ⟨?_, ?_, ?_, ?_⟩ <;> rw [hpages]
  · exact hopen
  · exact hover
  · exact hkeeps
  · rw [hchanges]
    exact hnotes

/-- What tells the step of what it does owes no more. -/
lemma Owes.logs {m : PagedMemory} (h : Owes m cells) (hlogs : Logs cells.pages cells'.pages)
    (hchanges : cells'.changes = cells.changes) : Owes m cells' := by
  refine ⟨hlogs.stepOpen.trans h.stepOpen, fun ho => h.overflowed (hlogs.overflowed ho),
    fun ho a ha => hlogs.keeps ho a (h.keeps (hlogs.overflowed ho) a ha), fun hopen ho a ha => ?_⟩
  rw [hchanges]
  by_cases hsame : cells'.pages.byteAt a = cells.pages.byteAt a
  · rw [hsame] at ha
    rcases h.notes hopen (hlogs.overflowed ho) a ha with hnoted | hstored
    · exact Or.inl (hlogs.keeps ho a hnoted)
    · exact Or.inr hstored
  · exact Or.inl (hlogs.notes (h.stepOpen.trans hopen) ho a hsame)

/-! ## Calls of Lean code -/

lemma Inv.forgetQuiet (h : cells.Inv setup) : cells.forgetQuiet.Inv setup := by
  refine ⟨h.pages, h.changes, h.entries, fun write hle => ?_⟩
  simp [Cells.forgetQuiet] at hle

/-- No page has the number before 0, so that the tag 0 is none. -/
lemma zero_ne_tag (a : Address) : 0#64 ≠ (a >>> 12) + 1 := by
  intro htag
  have hnat := congrArg BitVec.toNat htag
  have hlt := a.isLt
  rw [BitVec.toNat_add, StoreLog.toNat_pageNumber] at hnat
  simp at hnat
  omega

lemma Inv.failCells (h : cells.Inv setup) (error : E) : (cells.failCells error).Inv setup := by
  refine ⟨h.pages, h.changes, fun _ a htag => absurd htag (zero_ne_tag a), fun write hle => ?_⟩
  simp [Cells.failCells, Cells.forgetQuiet] at hle

/-- What Lean code does to the memory of a run, all together. -/
lemma foldl_apply_spec {m : PagedMemory} (h : m.WellFormed) (host : Host) {ops : List MemoryOp}
    (hops : ∀ op ∈ ops, op.Logged) :
    (ops.foldl (PagedMemory.apply host) m).WellFormed ∧
    (ops.foldl (PagedMemory.apply host) m).byteAt =
      (ops.map MemoryOp.written).foldl patch m.byteAt ∧
    Logs m (ops.foldl (PagedMemory.apply host) m) ∧
    KeepsPages m (ops.foldl (PagedMemory.apply host) m) := by
  induction ops generalizing m with
  | nil => exact ⟨h, rfl, Logs.refl m, KeepsPages.refl m⟩
  | cons op ops ih =>
    have hop := hops op List.mem_cons_self
    have hallowed : op.Allowed m.byteAt := by
      cases op <;> trivial
    obtain ⟨hwf, hbyte, hlogs, hkeeps⟩ :=
      ih (h.apply host op) fun op' hop' => hops op' (List.mem_cons_of_mem _ hop')
    refine ⟨hwf, ?_, (h.logs_apply host hop).trans hlogs,
      (h.keepsPages_apply host hop).trans hkeeps⟩
    rw [List.foldl_cons, hbyte, h.byteAt_apply host hallowed, List.map_cons, List.foldl_cons]

lemma Inv.refines_called (h : cells.Inv setup) (reaction : Reaction W E) :
    Refines setup cells (cells.called setup reaction) (cells.abs.react reaction) := by
  obtain ⟨hwf, hbyte, hlogs, hkeeps⟩ := foldl_apply_spec h.pages setup.host reaction.logged
  have hinv : (cells.forgetQuiet.react setup reaction).Inv setup := by
    refine ⟨hwf, h.changes, fun i a htag => ?_, fun write hle => ?_⟩
    · obtain ⟨herror, hfind⟩ := h.entries i a htag
      exact ⟨herror, hkeeps a _ hfind⟩
    · simp [Cells.react, Cells.forgetQuiet] at hle
  have howes : ∀ m, Owes m cells → Owes m (cells.forgetQuiet.react setup reaction) :=
    fun m hm => hm.logs hlogs rfl
  unfold called
  cases herror : reaction.error with
  | none =>
    refine ⟨hinv, ?_, howes⟩
    simp only [Cells.abs, Flat.react, Cells.react, Cells.forgetQuiet, hbyte, herror, Option.none_or]
    rfl
  | some error =>
    refine ⟨hinv.failCells error, ?_, fun m hm => (howes m hm).of_same rfl rfl⟩
    simp only [Cells.abs, Flat.react, Cells.react, Cells.forgetQuiet, Cells.failCells, hbyte,
      herror, Option.some_or]
    rfl

/-- What an observer reads of the memory is the flat map. -/
lemma read_eq_abs (cells : Cells W E) : cells.pages.read = cells.abs.memory :=
  funext cells.pages.read_eq

lemma Inv.refines_callCodeObserver (h : cells.Inv setup) (pc : Address) :
    (cells.callCodeObserver setup pc).1 = (cells.abs.callCode setup pc).1 ∧
    Refines setup cells (cells.callCodeObserver setup pc).2 (cells.abs.callCode setup pc).2 := by
  unfold callCodeObserver Flat.callCode
  cases setup.codeObserver with
  | none => exact ⟨rfl, h.refines⟩
  | some observer =>
    simp only [read_eq_abs]
    exact ⟨rfl, h.refines_called _⟩

/-- The error of a run is the first that was thrown. -/
lemma Inv.refines_failCells (h : cells.Inv setup) (error : E) :
    Refines setup cells (cells.failCells error) { cells.abs with error := some error } :=
  ⟨h.failCells error, rfl, fun _ hm => hm.of_same rfl rfl⟩

lemma Inv.refines_callObserver (h : cells.Inv setup)
    (observer : W → (Address → Byte) → Bool → Address → ℕ → BitVec 64 → Reaction W E)
    (write : Bool) (address : Address) (size : ℕ) (value : BitVec 64) :
    Refines setup cells (cells.callObserver setup observer write address size value)
      ({ cells.abs with leanRan := true }.react
        (observer cells.abs.world cells.abs.memory write address size value)) := by
  have hran : ({ cells with leanRan := true } : Cells W E).Inv setup :=
    ⟨h.pages, h.changes, h.entries, h.quiet⟩
  have hcalled := hran.refines_called
    (observer cells.world cells.pages.read write address size value)
  rw [read_eq_abs] at hcalled
  unfold callObserver
  rw [read_eq_abs]
  exact ⟨hcalled.inv, hcalled.abs, fun m hm => hcalled.owes m (hm.of_same rfl rfl)⟩

/-- What the filter finds is what lets an access through. -/
lemma quietRange_isSome_iff (cells : Cells W E) (write : Bool) (address : Address) {size : ℕ}
    (hsize : size < 2 ^ 64) :
    (cells.filter.bind fun filter => filter.quietRange address size write).isSome ↔
      cells.abs.Quiet write address size := by
  rw [Option.isSome_iff_exists]
  constructor
  · rintro ⟨range, hrange⟩
    obtain ⟨filter, hfilter, hrange⟩ := Option.bind_eq_some_iff.mp hrange
    exact ⟨filter, hfilter, range, (MemoryFilter.quietRange_eq_some_iff hsize).mp hrange⟩
  · rintro ⟨filter, hfilter, range, hrange⟩
    exact ⟨range, Option.bind_eq_some_iff.mpr
      ⟨filter, hfilter, (MemoryFilter.quietRange_eq_some_iff hsize).mpr hrange⟩⟩

/-- A code observer that doesn't stop the run hasn't thrown. -/
lemma error_callCode {flat : Flat W E} {pc : Address} (h : (flat.callCode setup pc).1 = false) :
    (flat.callCode setup pc).2.error = flat.error := by
  unfold Flat.callCode at h ⊢
  cases hobserver : setup.codeObserver with
  | none => rfl
  | some observer =>
    simp only [hobserver, Bool.or_eq_false_iff, Option.isSome_eq_false_iff,
      Option.isNone_iff_eq_none] at h
    simp only [Flat.react, h.1, Option.none_or]

/-- The site that waits is told of, and fails the run exactly if there is an error after it. -/
lemma Inv.refines_callPending (h : cells.Inv setup) (herror : cells.error = none) :
    (cells.callPending setup).1 = (cells.abs.callPending setup).error.isSome ∧
    Refines setup cells (cells.callPending setup).2 (cells.abs.callPending setup) := by
  unfold callPending Flat.callPending
  cases hsite : cells.pendingSite with
  | false => simpa [Cells.abs, hsite, herror] using h.refines
  | true =>
    have hpending : cells.abs.pending = some cells.pendingPc := by simp [Cells.abs, hsite]
    have hran : ({ cells with pendingSite := false, leanRan := true } : Cells W E).Inv setup :=
      ⟨h.pages, h.changes, h.entries, h.quiet⟩
    have habs : ({ cells with pendingSite := false, leanRan := true } : Cells W E).abs =
        { cells.abs with pending := none, leanRan := true } := rfl
    obtain ⟨hstop, hcode⟩ := hran.refines_callCodeObserver cells.pendingPc
    have hfine := @error_callCode _ _ setup
      ({ cells with pendingSite := false, leanRan := true } : Cells W E).abs cells.pendingPc
    rw [← hstop, hcode.abs.symm] at hfine
    simp only [hpending, if_true, ← habs, ← hstop]
    rw [← hcode.abs]
    have hcode' := hcode.self.of_owes fun m (hm : Owes m cells) => hm.of_same rfl rfl
    generalize callCodeObserver setup { cells with pendingSite := false, leanRan := true }
      cells.pendingPc = result at hcode' hfine ⊢
    obtain ⟨stop, cells'⟩ := result
    have habs' : cells'.abs.error = cells'.error := rfl
    by_cases hfails : (stop && cells'.error.isNone) = true
    · -- it stops the run without an error of its own
      simp only [habs', hfails, if_true]
      have hstop' : stop = true := (Bool.and_eq_true_iff.mp hfails).1
      exact ⟨by simp [hstop'], hcode'.trans (hcode'.inv.refines_failCells _)⟩
    · simp only [habs', hfails, Bool.false_eq_true, if_false]
      refine ⟨?_, hcode'⟩
      cases stop with
      | true => simpa [Option.isSome_iff_ne_none] using hfails
      | false =>
        have hnone : cells'.error = none := (hfine rfl).trans herror
        rw [hnone]
        rfl

/-- **`bap_jit_memory_notify` calls the observer once, after the site that waits, unless there
is an error or the access is quiet.** -/
theorem Inv.refines_memoryNotify (h : cells.Inv setup) (write : Bool) (address : Address)
    {size : ℕ} (hsize : size < 2 ^ 64) (value : BitVec 64) :
    Refines setup cells (cells.memoryNotify setup write address size value)
      (cells.abs.notify setup write address size value) := by
  have hquiet := cells.quietRange_isSome_iff write address hsize
  unfold memoryNotify Flat.notify
  cases hobserver : setup.observer with
  | none => exact h.refines
  | some observer =>
    simp only
    by_cases herror : cells.error.isSome
    · have habs : cells.abs.error.isSome := herror
      rw [if_pos herror, if_pos (Or.inl habs)]
      exact h.refines
    · rw [if_neg herror]
      have hnone : cells.error = none := by simpa using herror
      cases hrange : cells.filter.bind fun filter => filter.quietRange address size write with
      | some range =>
        rw [if_pos (Or.inr (hquiet.mp (by rw [hrange]; rfl)))]
        obtain ⟨filter, hfilter, hfound⟩ := Option.bind_eq_some_iff.mp hrange
        obtain ⟨hmem, -, hkind⟩ := (MemoryFilter.quietRange_eq_some_iff hsize).mp hfound
        refine ⟨⟨h.pages, h.changes, h.entries, fun kind hle => ?_⟩, rfl, fun m hm =>
          hm.of_same rfl rfl⟩
        -- the range of this kind is the one found, and that of the other is as it was
        by_cases hsame : kind = write
        · subst hsame
          simp only [Function.update_self]
          exact ⟨by simp [hobserver], hnone, filter, hfilter, range, hmem, rfl, rfl, hkind⟩
        · simp only [Function.update_of_ne hsame] at hle ⊢
          exact h.quiet kind hle
      | none =>
        have hloud : ¬ (cells.abs.error.isSome ∨ cells.abs.Quiet write address size) := by
          rw [not_or, ← hquiet, hrange]
          exact ⟨herror, by simp⟩
        obtain ⟨hfailed, hpending⟩ := h.refines_callPending hnone
        rw [if_neg hloud]
        unfold Flat.callObserver
        simp only [← hfailed]
        rw [← hpending.abs]
        replace hpending := hpending.self
        generalize callPending setup cells = result at hpending ⊢
        obtain ⟨failed, cells'⟩ := result
        cases failed with
        | true => exact hpending
        | false =>
          exact hpending.trans
            (hpending.inv.refines_callObserver observer write address size value)

/-- **An access that isn't told of, as it is within the range that is known to be quiet, is one
that `bap_jit_memory_notify` would do nothing for.** -/
theorem Inv.notifyAccess_eq (h : cells.Inv setup) (write : Bool) (base : Address) {size : ℕ}
    (hpos : 0 < size) (hsize : size ≤ 8) (value : BitVec 64) :
    cells.notifyAccess setup write base size value =
      cells.memoryNotify setup write base size value := by
  unfold notifyAccess
  simp only
  split_ifs with hknown
  · obtain ⟨hfirst, hlast, hend⟩ := hknown
    simp only [BitVec.le_def, BitVec.toNat_add, BitVec.toNat_ofNat] at hfirst hlast hend
    have hlt := base.isLt
    obtain ⟨hobserver, herror, filter, hfilter, range, hmem, hfirst', hlast', hkind⟩ :=
      h.quiet write (by rw [BitVec.le_def]; omega)
    obtain ⟨observer, hobserver⟩ := Option.isSome_iff_exists.mp hobserver
    have hwithin : range.Within base size := by
      refine ⟨hpos, ?_, ?_, ?_⟩
      · omega
      · rw [hfirst']
        omega
      · rw [hlast']
        omega
    have hrange : filter.quietRange base size write = some range :=
      (MemoryFilter.quietRange_eq_some_iff (by omega)).mpr ⟨hmem, hwithin, hkind⟩
    simp only [memoryNotify, hobserver, herror, hfilter, Option.isSome_none, Bool.false_eq_true,
      if_false, Option.bind_some, hrange, hfirst', hlast', Function.update_eq_self]
    rw [← hfilter, ← herror]
  · rfl

/-- **What is emitted for a code site is what the call does.** -/
theorem code_eq (cells : Cells W E) (pc : Address) :
    cells.code setup pc = cells.codeNotify setup pc := by
  unfold code codeNotify
  generalize hwaits : (setup.quietSites && !cells.leanRan) = waits
  cases setup.codeObserver with
  | none => cases cells.error <;> simp
  | some observer => cases cells.error <;> cases waits <;> simp

/-- **A code site is told of, waits, or stops the run, as it is to.** -/
theorem Inv.refines_code (h : cells.Inv setup) (pc : Address) :
    (cells.code setup pc).1 = (cells.abs.code setup pc).1 ∧
    Refines setup cells (cells.code setup pc).2 (cells.abs.code setup pc).2 := by
  have herror : cells.abs.error = cells.error := rfl
  have hran : cells.abs.leanRan = cells.leanRan := rfl
  rw [code_eq]
  unfold codeNotify Flat.code
  rw [herror, hran]
  by_cases hfailed : cells.error.isSome = true
  · rw [hfailed, Bool.or_true, if_pos rfl, if_pos rfl]
    exact ⟨rfl, h.refines⟩
  · rw [Bool.not_eq_true] at hfailed
    rw [hfailed, Bool.or_false, if_neg Bool.false_ne_true]
    by_cases hobserved : setup.codeObserver.isNone = true
    · rw [if_pos hobserved, if_pos hobserved]
      exact ⟨rfl, h.refines⟩
    · rw [if_neg hobserved, if_neg hobserved]
      by_cases hwaits : (setup.quietSites && !cells.leanRan) = true
      · rw [if_pos hwaits, if_pos hwaits]
        exact ⟨rfl, ⟨h.pages, h.changes, h.entries, h.quiet⟩, rfl, fun m hm => hm.of_same rfl rfl⟩
      · rw [if_neg hwaits, if_neg hwaits]
        exact h.refines_callCodeObserver pc

/-! ## Pages -/

/-- The page of an address may be remembered, once it is there. -/
lemma Inv.refines_remember (h : cells.Inv setup) (herror : cells.error = none) {base : Address}
    {page : HostPtr} {pages : PagedMemory} (hens : Ensured cells.pages base page pages) (i : ℕ) :
    Refines setup cells { cells with
      pages := pages
      pageEntries := Function.update cells.pageEntries i ⟨(base >>> 12) + 1, page⟩ } cells.abs := by
  have hlogs : Logs cells.pages pages := Logs.of_same (funext hens.byteAt) hens.stepState
  refine ⟨⟨hens.wf, h.changes, fun j a htag => ⟨herror, ?_⟩, h.quiet⟩, ?_, fun m hm =>
    hm.logs hlogs rfl⟩
  · by_cases hj : j = i
    · subst hj
      simp only [Function.update_self] at htag ⊢
      have hnumber := (StoreLog.pageNumber_eq_iff.mp (add_right_cancel htag)).symm
      rw [hens.find, if_pos hnumber]
    · simp only [Function.update_of_ne hj] at htag ⊢
      exact hens.keeps a _ (h.entries j a htag).2
  · simp only [Cells.abs, funext hens.byteAt]

/-- A page that is given for an access is that of its base, and no error has been. -/
structure Given (cells : Cells W E) (base : Address) (given : Option HostPtr) : Prop where
  fine : given.isSome → cells.error = none
  find : ∀ page, given = some page → cells.pages.find base = some page

lemma given_none (cells : Cells W E) (base : Address) : Given cells base none :=
  ⟨fun h => by simp at h, fun _ h => by simp at h⟩

lemma Inv.memoryPage_spec (h : cells.Inv setup) (base : Address) (write : Bool) :
    Refines setup cells (cells.memoryPage base write).2 cells.abs ∧
    Given (cells.memoryPage base write).2 base (cells.memoryPage base write).1 := by
  unfold memoryPage
  by_cases hfailed : cells.error.isSome = true
  · rw [if_pos hfailed]
    exact ⟨h.refines, given_none cells base⟩
  · rw [if_neg hfailed]
    have hfine : cells.error = none := by simpa using hfailed
    cases write with
    | true =>
      obtain ⟨page, hpage, hens⟩ := h.pages.ensure_spec base
      simp only [if_true, hpage]
      refine ⟨h.refines_remember hfine hens _, fun _ => hfine, fun page' hpage' => ?_⟩
      obtain rfl := Option.some.inj hpage'
      exact hens.find_self
    | false =>
      simp only [Bool.false_eq_true, if_false]
      cases hfind : cells.pages.find base with
      | none => exact ⟨h.refines, given_none cells base⟩
      | some page =>
        refine ⟨h.refines_remember hfine (Ensured.of_found h.pages hfind) _, fun _ => hfine,
          fun page' hpage' => ?_⟩
        obtain rfl := Option.some.inj hpage'
        exact hfind

/-- The page for an access is remembered or had, and is that of its base. -/
lemma Inv.pageForAccess_spec (h : cells.Inv setup) (base : Address) (size : ℕ) (write : Bool) :
    Refines setup cells (cells.pageForAccess base size write).2 cells.abs ∧
    Given (cells.pageForAccess base size write).2 base
      (cells.pageForAccess base size write).1 ∧
    ((cells.pageForAccess base size write).1.isSome →
      base &&& BitVec.ofNat 64 (size - 1) = 0#64) := by
  unfold pageForAccess
  simp only
  split_ifs with hknown haligned
  · rw [Bool.and_eq_true, beq_iff_eq, beq_iff_eq] at hknown
    obtain ⟨hfine, hfind⟩ := h.entries _ base hknown.2
    refine ⟨h.refines, ⟨fun _ => hfine, fun page hpage => ?_⟩, fun _ => hknown.1⟩
    obtain rfl := Option.some.inj hpage
    exact hfind
  · rw [beq_iff_eq] at haligned
    obtain ⟨hrefines, hgiven⟩ := h.memoryPage_spec base write
    exact ⟨hrefines, hgiven, fun _ => haligned⟩
  · exact ⟨h.refines, given_none cells base, fun hnone => by simp at hnone⟩

/-! ## Loads and stores -/

/-- An access that an instruction does is in one page. -/
lemma mod_add_le_of_instruction {base : Address} {size : ℕ} (hsize : hasInstruction size = true)
    (haligned : base &&& BitVec.ofNat 64 (size - 1) = 0#64) :
    base.toNat % 4096 + size ≤ 4096 := by
  have hsizes : size = 1 ∨ size = 2 ∨ size = 4 ∨ size = 8 := by
    simpa [hasInstruction, or_assoc] using hsize
  have := StoreLog.mod_add_le_of_aligned hsizes haligned
  omega

lemma loadBytes_eq (cells : Cells W E) (base : Address) {size : ℕ} (hsize : size ≤ 8)
    (bigEndian : Bool) :
    cells.loadBytes base size bigEndian = cells.abs.loaded base size bigEndian := by
  have hlength := length_values cells.pages.byteAt base size
  have herror : cells.abs.error = cells.error := rfl
  unfold loadBytes Flat.loaded
  rw [herror, load_eq, join_eq bigEndian (by omega)]
  rfl

/-- **A load by an instruction of the host gives the bytes in their order.** -/
theorem hostLoad_page (hostBig : Bool) (hfine : cells.error = none) {base : Address}
    {page : HostPtr} (hpage : cells.pages.find base = some page) {size : ℕ}
    (hin : base.toNat % 4096 + size ≤ 4096) (bigEndian : Bool) :
    (swapped hostBig bigEndian (hostLoad hostBig size
      (peek cells.pages.bytes (page.plus (pageOffset base)) size))).setWidth 64 =
        cells.abs.loaded base size bigEndian := by
  have herror : cells.abs.error = none := hfine
  rw [swapped_hostLoad _ _ (length_peek _ _ _), setWidth_ofBytes (by simp), pageOffset_eq,
    ← values_of_find hpage size hin, Flat.loaded, herror]
  rfl

/-- **What is emitted for `memLoad` is a load of the flat memory, by whichever way it goes.** -/
theorem Inv.refines_memLoad (h : cells.Inv setup) (base : Address) {size : ℕ} (hpos : 0 < size)
    (hsize : size ≤ 8) (bigEndian : Bool) :
    (cells.memLoad setup base size bigEndian).1 = (cells.abs.load setup base size bigEndian).1 ∧
    Refines setup cells (cells.memLoad setup base size bigEndian).2
      (cells.abs.load setup base size bigEndian).2 := by
  have hnotify := h.refines_memoryNotify false base (show size < 2 ^ 64 by omega) 0
  unfold memLoad Flat.load
  simp only [h.notifyAccess_eq false base hpos hsize, ← hnotify.abs]
  replace hnotify := hnotify.self
  generalize cells.memoryNotify setup false base size 0 = told at hnotify ⊢
  by_cases hinstruction : hasInstruction size = true
  · rw [if_pos hinstruction]
    obtain ⟨hrefines, hgiven, haligned⟩ := hnotify.inv.pageForAccess_spec base size false
    generalize told.pageForAccess base size false = result at hrefines hgiven haligned ⊢
    obtain ⟨given, later⟩ := result
    cases given with
    | none =>
      simp only [loadBytes_eq later base hsize]
      exact ⟨by rw [hrefines.abs], hnotify.trans hrefines⟩
    | some page =>
      have hin := mod_add_le_of_instruction hinstruction (haligned rfl)
      simp only [hostLoad_page setup.bigEndianHost (hgiven.fine rfl) (hgiven.find page rfl) hin]
      exact ⟨by rw [hrefines.abs], hnotify.trans hrefines⟩
  · rw [if_neg hinstruction]
    exact ⟨loadBytes_eq told base hsize bigEndian, hnotify⟩

/-- What a run owes after a store, of which the log has the bytes. -/
lemma Owes.stored {m : PagedMemory} (h : Owes m cells) {stores : List (Address × Byte)}
    (hwrote : Wrote cells.pages stores cells'.pages)
    (hnoted : StoreLog.Noted cells.changes stores cells'.changes) : Owes m cells' := by
  obtain ⟨hopen, hwrites, hover⟩ := stepState_eq_iff.mp hwrote.stepState
  have hsame : cells'.pages.noted = cells.pages.noted := by rw [noted, noted, hwrites]
  refine ⟨hopen.trans h.stepOpen, fun ho => h.overflowed (hover.symm.trans ho),
    fun ho a ha => hsame ▸ h.keeps (hover.symm.trans ho) a ha, fun hstep ho a ha => ?_⟩
  rw [hsame, hnoted.value]
  by_cases hmem : a ∈ stores.map Prod.fst
  · exact Or.inr (isSome_writes (Or.inl hmem))
  · rw [hwrote.byteAt, writes_of_notMem _ hmem] at ha
    exact (h.notes hstep (hover.symm.trans ho) a ha).imp_right fun hsome =>
      isSome_writes (Or.inr hsome)

/-- Bytes that were written and noted. -/
lemma Inv.refines_stored (h : cells.Inv setup) (hfine : cells.error = none) {base : Address}
    {size : ℕ} {bigEndian : Bool} {value : BitVec 64} {pages : PagedMemory}
    (hwrote : Wrote cells.pages (span base (split bigEndian size value)) pages) :
    Refines setup cells ({ cells with pages := pages }.memoryNote base size bigEndian value)
      (cells.abs.afterStore base value size bigEndian) := by
  have hnoted := h.changes.noted_note base size bigEndian value
  refine ⟨⟨hwrote.wf, hnoted.wf, fun i a htag => ?_, h.quiet⟩, ?_, fun m hm =>
    hm.stored hwrote hnoted⟩
  · obtain ⟨-, hfind⟩ := h.entries i a htag
    exact ⟨hfine, hwrote.keeps a _ hfind⟩
  · simp only [Flat.afterStore, Option.isSome_none, Bool.false_eq_true, if_false,
      memoryNote, Cells.abs, hwrote.byteAt, hnoted.value, split_eq, hfine]

lemma Inv.refines_storeBytes (h : cells.Inv setup) (base : Address) (size : ℕ)
    (bigEndian : Bool) (value : BitVec 64) :
    Refines setup cells (cells.storeBytes base size bigEndian value)
      (cells.abs.afterStore base value size bigEndian) := by
  unfold storeBytes
  split_ifs with hfailed
  · have herror : cells.abs.error.isSome = true := hfailed
    rw [Flat.afterStore, if_pos herror]
    exact h.refines
  · exact h.refines_stored (by simpa using hfailed) (h.pages.wrote_store base _)

/-- **What is emitted for `memStore` is a store to the flat memory, by whichever way it goes,
and is noted.** -/
theorem Inv.refines_memStore (h : cells.Inv setup) (base : Address) (stored : BitVec 64)
    {size : ℕ} (hpos : 0 < size) (hsize : size ≤ 8) (bigEndian : Bool) :
    Refines setup cells (cells.memStore setup base stored size bigEndian)
      (cells.abs.store setup base stored size bigEndian) := by
  have hnotify := h.refines_memoryNotify true base (show size < 2 ^ 64 by omega) stored
  unfold memStore Flat.store
  simp only [h.notifyAccess_eq true base hpos hsize, ← hnotify.abs]
  replace hnotify := hnotify.self
  generalize cells.memoryNotify setup true base size stored = told at hnotify ⊢
  by_cases hinstruction : hasInstruction size = true
  · rw [if_pos hinstruction]
    obtain ⟨hrefines, hgiven, haligned⟩ := hnotify.inv.pageForAccess_spec base size true
    rw [← hrefines.abs]
    replace hnotify := hnotify.trans hrefines.self
    generalize told.pageForAccess base size true = result at hnotify hgiven haligned ⊢
    obtain ⟨given, later⟩ := result
    cases given with
    | none => exact hnotify.trans (hnotify.inv.refines_storeBytes base size bigEndian stored)
    | some page =>
      have hin := mod_add_le_of_instruction hinstruction (haligned rfl)
      simp only [hostStore_swapped, toBytes_setWidth, ← split_eq, pageOffset_eq]
      refine hnotify.trans (hnotify.inv.refines_stored (hgiven.fine rfl) ?_)
      exact hnotify.inv.pages.wrote_setBytes (hgiven.find page rfl) _
        (by rw [length_split]; exact hin)
  · rw [if_neg hinstruction]
    exact hnotify.trans (hnotify.inv.refines_storeBytes base size bigEndian stored)

end Cells

end BapNative.Jit
