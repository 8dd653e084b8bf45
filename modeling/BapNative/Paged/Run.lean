import BapNative.Paged.Fill
import BapNative.Paged.WholePages
import BapNative.Paged.Zero

/-!
# Runs

A memory with its invariant, the operations that change one, and runs of them.

What a memory is for is a flat map from addresses to bytes: an operation writes bytes to
some addresses, and an address holds what was last written to it, or zero.  Every operation
does to what the memory reads as just what it says it writes, so that a run does too,
whatever pages there are and however the words and pages of a range lie.
-/

namespace BapNative

open Overwrite

/-- A memory, as its users can have one. -/
structure Memory where
  /-- What the host has of it. -/
  state : PagedMemory
  /-- It is well formed. -/
  wf : state.WellFormed

/-- `new PagedMemory`. -/
def Memory.empty : Memory := ⟨PagedMemory.empty, PagedMemory.wellFormed_empty⟩

/-- What can be done to a memory. -/
inductive MemoryOp where
  | writeAll (cells : List (Address × Byte))
  | store (address : Address) (bytes : List Byte)
  | fill (address : Address) (bytes : List Byte)
  | zeroRange (first last : Address)
  | trim (first last : Address)
  | copyFrom (other : Memory)
  | ensure (address : Address)
  | beginStep
  | endStep
  | noteStep (address : Address) (size : ℕ)

namespace PagedMemory

/-- What an operation does. -/
def apply (host : Host) (m : PagedMemory) : MemoryOp → PagedMemory
  | .writeAll cells => m.writeAll cells
  | .store address bytes => m.store address bytes
  | .fill address bytes => m.fill address bytes
  | .zeroRange first last => m.zeroRange first last
  | .trim first last => m.trim host first last
  | .copyFrom other => m.copyFrom other.state
  | .ensure address => (m.ensure address).2
  | .beginStep => m.beginStep
  | .endStep => m.endStep
  | .noteStep address size => m.noteStep address size

/-- Every operation keeps the invariant. -/
lemma WellFormed.apply {m : PagedMemory} (h : m.WellFormed) (host : Host) (op : MemoryOp) :
    (m.apply host op).WellFormed := by
  cases op with
  | writeAll cells => exact (h.writeAll_spec cells).1
  | store address bytes => exact (h.wrote_store address bytes).wf
  | fill address bytes => exact h.wf_fill address bytes
  | zeroRange first last => exact (h.zeroed_zeroRange first last).wf
  | trim first last =>
    rw [PagedMemory.apply, trim_eq]
    exact h
  | copyFrom other => exact (h.copyFrom_spec other.state).1
  | ensure address =>
    obtain ⟨page, -, hens⟩ := h.ensure_spec address
    exact hens.wf
  | beginStep => exact (onlyStep_beginStep m).wf h
  | endStep => exact (onlyStep_endStep m).wf h
  | noteStep address size => exact (onlyStep_noteStep m address size).wf h

end PagedMemory

namespace Memory

/-- A memory after an operation. -/
def apply (host : Host) (m : Memory) (op : MemoryOp) : Memory :=
  ⟨m.state.apply host op, m.wf.apply host op⟩

/-- A memory after a run. -/
def run (host : Host) (m : Memory) (ops : List MemoryOp) : Memory := ops.foldl (apply host) m

end Memory

/-! ## The flat map -/

namespace MemoryOp

/-- What an operation writes: which byte, at the addresses that it writes to.  A copy is
meant for a memory without a byte, and gives it all that the other one has. -/
def written : MemoryOp → Address → Option Byte
  | writeAll cells => lastCell cells
  | store address bytes => lastCell (span address bytes)
  | fill address bytes => lastCell (span address bytes)
  | zeroRange first last => fun a => if first ≤ a ∧ a ≤ last then some 0 else none
  | copyFrom other => fun a => some (other.state.read a)
  | trim _ _ | ensure _ | beginStep | endStep | noteStep _ _ => fun _ => none

/-- What is asked of who calls an operation: a fill ends within the address space, and a copy
goes to a memory that is empty, where every address is zero. -/
def Allowed : MemoryOp → (Address → Byte) → Prop
  | fill address bytes, _ => address.toNat + bytes.length ≤ 2 ^ 64
  | copyFrom _, flat => ∀ a, flat a = 0
  | _, _ => True

end MemoryOp

/-- A run in which every operation is allowed, from a flat map on. -/
def Admissible : (Address → Byte) → List MemoryOp → Prop
  | _, [] => True
  | flat, op :: ops => op.Allowed flat ∧ Admissible (patch flat op.written) ops

/-- The byte that a run last wrote to an address, or zero. -/
def lastByte (ops : List MemoryOp) (a : Address) : Byte := (lastWritten (ops.map MemoryOp.written) a).getD 0

namespace PagedMemory

/-- **An operation writes over the flat map what it says that it writes.** -/
theorem WellFormed.byteAt_apply {m : PagedMemory} (h : m.WellFormed) (host : Host) {op : MemoryOp}
    (hop : op.Allowed m.byteAt) : (m.apply host op).byteAt = patch m.byteAt op.written := by
  cases op with
  | writeAll cells =>
    funext a
    exact (congrFun (h.writeAll_spec cells).2.1 a).trans (writes_apply _ _ _)
  | store address bytes =>
    funext a
    exact (congrFun (h.wrote_store address bytes).byteAt a).trans (writes_apply _ _ _)
  | fill address bytes =>
    have hend : address.toNat + bytes.length ≤ 2 ^ 64 := hop
    have hwrote := h.wrote_fill address bytes (by omega)
    rw [List.take_of_length_le (by omega)] at hwrote
    funext a
    exact (congrFun hwrote.byteAt a).trans (writes_apply _ _ _)
  | zeroRange first last =>
    have hzero := (h.zeroed_zeroRange first last).zeros
    funext a
    by_cases ha : first ≤ a ∧ a ≤ last
    · exact (hzero.on a ha).trans (by simp [patch, MemoryOp.written, ha])
    · exact (hzero.off a ha).trans (by simp [patch, MemoryOp.written, ha])
  | trim first last => exact congrArg byteAt (m.trim_eq host first last)
  | copyFrom other =>
    funext a
    exact (congrFun (h.byteAt_copyFrom hop other.state) a).trans (other.state.read_eq a).symm
  | ensure address =>
    obtain ⟨page, -, hens⟩ := h.ensure_spec address
    exact funext hens.byteAt
  | beginStep => exact (onlyStep_beginStep m).byteAt
  | endStep => exact (onlyStep_endStep m).byteAt
  | noteStep address size => exact (onlyStep_noteStep m address size).byteAt

end PagedMemory

namespace Memory

/-- **A run does to what a memory reads as what its operations write, one after the other.** -/
theorem byteAt_run (host : Host) (m : Memory) {ops : List MemoryOp}
    (hops : Admissible m.state.byteAt ops) :
    (m.run host ops).state.byteAt = (ops.map MemoryOp.written).foldl patch m.state.byteAt := by
  induction ops generalizing m with
  | nil => rfl
  | cons op ops ih =>
    obtain ⟨hop, hrest⟩ := hops
    have hstep : (m.apply host op).state.byteAt = patch m.state.byteAt op.written :=
      m.wf.byteAt_apply host hop
    rw [← hstep] at hrest
    rw [List.map_cons, List.foldl_cons, ← hstep]
    exact ih (m.apply host op) hrest

/-- What a run of an empty memory leaves at an address. -/
lemma byteAt_run_empty (host : Host) {ops : List MemoryOp} (hops : Admissible (fun _ => 0) ops) :
    (empty.run host ops).state.byteAt = lastByte ops := by
  funext a
  rw [byteAt_run host empty hops, foldl_patch_apply]
  rfl

end Memory

/-! ## What a step knows of a run -/

/-- The operations that tell an open step what they change, or change nothing. -/
def MemoryOp.Logged : MemoryOp → Prop
  | writeAll _ | zeroRange _ _ | trim _ _ | ensure _ | noteStep _ _ => True
  | store _ _ | fill _ _ | copyFrom _ | beginStep | endStep => False

namespace PagedMemory

lemma WellFormed.logs_apply {m : PagedMemory} (h : m.WellFormed) (host : Host) {op : MemoryOp}
    (hop : op.Logged) : Logs m (m.apply host op) := by
  cases op with
  | writeAll cells => exact (h.writeAll_spec cells).2.2.1
  | zeroRange first last => exact (h.zeroed_zeroRange first last).logs
  | trim first last =>
    rw [PagedMemory.apply, trim_eq]
    exact Logs.refl m
  | ensure address =>
    obtain ⟨page, -, hens⟩ := h.ensure_spec address
    exact Logs.of_same (funext hens.byteAt) hens.stepState
  | noteStep address size => exact logs_noteStep m address size
  | store | fill | copyFrom | beginStep | endStep => exact hop.elim

/-- An operation of a step leaves the pages that there are where they are. -/
lemma WellFormed.keepsPages_apply {m : PagedMemory} (h : m.WellFormed) (host : Host) {op : MemoryOp}
    (hop : op.Logged) : KeepsPages m (m.apply host op) := by
  cases op with
  | writeAll cells => exact (h.writeAll_spec cells).2.2.2.1
  | zeroRange first last => exact (h.zeroed_zeroRange first last).keepsPages
  | trim first last =>
    rw [PagedMemory.apply, trim_eq]
    exact KeepsPages.refl m
  | ensure address =>
    obtain ⟨page, -, hens⟩ := h.ensure_spec address
    exact hens.keeps
  | noteStep address size => exact (onlyStep_noteStep m address size).keepsPages
  | store | fill | copyFrom | beginStep | endStep => exact hop.elim

end PagedMemory

namespace Memory

open PagedMemory

lemma logs_run (host : Host) (m : Memory) {ops : List MemoryOp} (hops : ∀ op ∈ ops, op.Logged) :
    Logs m.state (m.run host ops).state := by
  induction ops generalizing m with
  | nil => exact Logs.refl m.state
  | cons op ops ih =>
    have hop := m.wf.logs_apply host (hops op List.mem_cons_self)
    exact hop.trans (ih (m.apply host op) fun op' hop' => hops op' (List.mem_cons_of_mem _ hop'))

end Memory

/-! ## How much a step knows of a run -/

/-- How many notes an operation leaves in an open step: one for a pair that is written at most,
and for an address that is cleared of something else than zero. -/
noncomputable def MemoryOp.notes (flat : Address → Byte) : MemoryOp → ℕ
  | writeAll cells => cells.length
  | zeroRange first last => {a | (first ≤ a ∧ a ≤ last) ∧ flat a ≠ 0}.ncard
  | noteStep _ _ => 1
  | store _ _ | fill _ _ | trim _ _ | copyFrom _ | ensure _ | beginStep | endStep => 0

/-- How many notes a run leaves, from a flat map on. -/
noncomputable def notesOf : (Address → Byte) → List MemoryOp → ℕ
  | _, [] => 0
  | flat, op :: ops => op.notes flat + notesOf (patch flat op.written) ops

/-- A range has no more addresses to clear than there are from its first to its last. -/
lemma MemoryOp.notes_zeroRange_le (flat : Address → Byte) (first last : Address) :
    (zeroRange first last).notes flat ≤ last.toNat + 1 - first.toNat := by
  rw [← Nat.card_Icc, ← Set.ncard_coe_finset]
  refine Set.ncard_le_ncard_of_injOn BitVec.toNat ?_ fun _ _ _ _ => BitVec.eq_of_toNat_eq
  rintro a ⟨⟨hfirst, hlast⟩, -⟩
  exact Finset.mem_coe.mpr (Finset.mem_Icc.mpr ⟨hfirst, hlast⟩)

lemma MemoryOp.Logged.allowed {op : MemoryOp} (h : op.Logged) (flat : Address → Byte) :
    op.Allowed flat := by
  cases op with
  | fill | copyFrom => exact h.elim
  | _ => trivial

lemma PagedMemory.WellFormed.notes_apply {m : PagedMemory} (h : m.WellFormed) (host : Host)
    {op : MemoryOp} (hop : op.Logged) : Notes (op.notes m.byteAt) m (m.apply host op) := by
  cases op with
  | writeAll cells => exact (h.writeAll_spec cells).2.2.2.2
  | zeroRange first last => exact (h.zeroed_zeroRange first last).notes_ncard
  | trim first last =>
    rw [PagedMemory.apply, trim_eq]
    exact Notes.of_same rfl
  | ensure address =>
    obtain ⟨page, -, hens⟩ := h.ensure_spec address
    exact Notes.of_same hens.stepState
  | noteStep address size => exact notes_noteStep m address size
  | store | fill | copyFrom | beginStep | endStep => exact hop.elim

namespace Memory

open PagedMemory

lemma notes_run (host : Host) (m : Memory) {ops : List MemoryOp} (hops : ∀ op ∈ ops, op.Logged) :
    Notes (notesOf m.state.byteAt ops) m.state (m.run host ops).state := by
  induction ops generalizing m with
  | nil => exact Notes.of_same rfl
  | cons op ops ih =>
    have hop := hops op List.mem_cons_self
    have hrest := ih (m.apply host op) fun op' hop' => hops op' (List.mem_cons_of_mem _ hop')
    have hbyte : (m.apply host op).state.byteAt = patch m.state.byteAt op.written :=
      m.wf.byteAt_apply host (hop.allowed _)
    rw [hbyte] at hrest
    exact (m.wf.notes_apply host hop).trans hrest

/-- **A step that doesn't write too much is known.**  As long as the pairs that it writes, the
addresses that it clears and the notes of others are no more than `stepLimit`, `stepAddresses`
lists in ascending order and once each addresses among which is every one whose byte is not what
it was when the step began. -/
theorem stepAddresses_of_few (host : Host) (m : Memory) {steps : List MemoryOp}
    (hsteps : ∀ op ∈ steps, op.Logged) (hfew : notesOf m.state.byteAt steps ≤ stepLimit)
    (known : List Address) :
    ∃ addresses,
      ((m.apply host .beginStep).run host steps).state.stepAddresses known = (true, addresses) ∧
      addresses.Pairwise (· < ·) ∧
      ∀ a, ((m.apply host .beginStep).run host steps).state.read a ≠ m.state.read a →
        a ∈ addresses := by
  have hlogs := logs_run host (m.apply host .beginStep) hsteps
  have hbegin : (m.apply host .beginStep).state.byteAt = m.state.byteAt :=
    (onlyStep_beginStep m.state).byteAt
  have hnotes := notes_run host (m.apply host .beginStep) hsteps
  rw [hbegin] at hnotes
  obtain ⟨hover, -⟩ := hnotes rfl ((Nat.zero_add _).trans_le hfew)
  have hknown := (stepAddresses_isKnown _ known).mpr ⟨hlogs.stepOpen, hover⟩
  simp only [read_eq]
  exact ⟨_, Prod.ext hknown rfl, stepAddresses_spec hlogs (Prod.ext hknown rfl)⟩

/-- A Linux host with pages of the usual size. -/
def linuxHost : Host := ⟨true, 4096, fun _ => true⟩

theorem stepAddresses_of_few_fill :
    let m := empty.run linuxHost [.fill 0x1000 [5, 6]]
    let m' := (m.apply linuxHost .beginStep).run linuxHost
      [.writeAll [(0x2000, 9)], .zeroRange 0x1001 0x1003]
    ∃ addresses, m'.state.stepAddresses [] = (true, addresses) ∧ addresses.Pairwise (· < ·) ∧
      0x1001 ∈ addresses ∧ 0x2000 ∈ addresses := by
  intro m m'
  have hfew : notesOf m.state.byteAt [.writeAll [(0x2000, 9)], .zeroRange 0x1001 0x1003] ≤
      stepLimit := by
    have hrange := MemoryOp.notes_zeroRange_le
      (patch m.state.byteAt (MemoryOp.writeAll [(0x2000, 9)]).written) 0x1001 0x1003
    calc notesOf m.state.byteAt [.writeAll [(0x2000, 9)], .zeroRange 0x1001 0x1003]
        ≤ 1 + (3 + 0) := Nat.add_le_add_left (Nat.add_le_add_right hrange 0) 1
      _ ≤ stepLimit := by decide
  obtain ⟨addresses, hknown, hsorted, hall⟩ := stepAddresses_of_few linuxHost m
    (by simp [MemoryOp.Logged]) hfew []
  exact ⟨addresses, hknown, hsorted, hall 0x1001 (by decide +kernel),
    hall 0x2000 (by decide +kernel)⟩

end Memory

/-! ## The memory is the flat map -/

namespace PagedMemory

/-- However a memory is read, it gives the bytes of a flat map, modulo `2^64`. -/
structure ReadsAs (m : PagedMemory) (flat : Address → Byte) : Prop where
  read : ∀ a, m.read a = flat a
  load : ∀ a size, m.load a size = values flat a size
  readRange : ∀ a size, m.readRange a size = values flat a size

lemma readsAs_iff {m : PagedMemory} {flat : Address → Byte} :
    m.ReadsAs flat ↔ m.byteAt = flat := by
  constructor
  · intro h
    funext a
    rw [← read_eq, h.read]
  · rintro rfl
    exact ⟨m.read_eq, m.load_eq, m.load_eq⟩

end PagedMemory

/-- A flat map with the addresses of a range cleared. -/
def cleared (flat : Address → Byte) (first last : Address) (a : Address) : Byte :=
  if first ≤ a ∧ a ≤ last then 0 else flat a

lemma PagedMemory.Zeroed.readsAs {m m' : PagedMemory} {first last : Address}
    (h : Zeroed m (inRange first last) m') {flat : Address → Byte} (hm : m.ReadsAs flat) :
    m'.ReadsAs (cleared flat first last) := by
  rw [readsAs_iff] at hm ⊢
  funext a
  unfold cleared
  split_ifs with ha
  · exact h.zeros.on a ha
  · exact (h.zeros.off a ha).trans (congrFun hm a)

namespace Memory

open PagedMemory

/-- **A memory is a flat byte map.**  After any run of a new memory, every way to read it
gives at every address the byte that was last written there, or zero.  `zeroRange` clears
the addresses of its range and no other, whichever of its branches is taken.  And when
`stepAddresses` knows of a step, it lists in ascending order and once each addresses among
which is every one whose byte is not what it was when the step began. -/
theorem flat_byte_map (host : Host) (ops : List MemoryOp) (hops : Admissible (fun _ => 0) ops) :
    (empty.run host ops).state.ReadsAs (lastByte ops) ∧
    (∀ first last : Address,
      ((empty.run host ops).state.zeroRange first last).ReadsAs
        (cleared (lastByte ops) first last)) ∧
    (∀ first last : Address, first ≤ last →
      ((empty.run host ops).state.zeroByPage first last).ReadsAs
        (cleared (lastByte ops) first last) ∧
      ((empty.run host ops).state.zeroByVisit first last).ReadsAs
        (cleared (lastByte ops) first last)) ∧
    (∀ steps : List MemoryOp, (∀ op ∈ steps, op.Logged) → ∀ known addresses : List Address,
      ((empty.run host (ops ++ .beginStep :: steps)).state.stepAddresses known) =
        (true, addresses) →
      addresses.Pairwise (· < ·) ∧
      ∀ a, (empty.run host (ops ++ .beginStep :: steps)).state.read a ≠
        (empty.run host ops).state.read a → a ∈ addresses) := by
  have hreads : (empty.run host ops).state.ReadsAs (lastByte ops) :=
    readsAs_iff.mpr (byteAt_run_empty host hops)
  have hwf := (empty.run host ops).wf
  refine ⟨hreads, fun first last => ?_, fun first last hle => ⟨?_, ?_⟩, ?_⟩
  · exact (hwf.zeroed_zeroRange first last).readsAs hreads
  · exact (hwf.zeroed_zeroByPage hle).readsAs hreads
  · exact (hwf.zeroed_zeroByVisit hle).readsAs hreads
  · intro steps hsteps known addresses hknown
    have hrun : empty.run host (ops ++ .beginStep :: steps) =
        ((empty.run host ops).apply host .beginStep).run host steps := by
      rw [run, List.foldl_append, List.foldl_cons]
      rfl
    rw [hrun] at hknown ⊢
    simp only [read_eq]
    exact stepAddresses_spec
      (logs_run host ((empty.run host ops).apply host .beginStep) hsteps) hknown

/-- A run with every kind of write: a copy of what was stored across the end of the address
space, of which one byte is cleared again. -/
def wrappingRun : List MemoryOp :=
  [.copyFrom (empty.run linuxHost [.store 0xFFFFFFFFFFFFFFFE [1, 2, 3, 4]]),
    .fill 0x1000 [5, 6], .writeAll [(0x1001, 7), (0x1002, 8)],
    .zeroRange 0xFFFFFFFFFFFFFFFF 0xFFFFFFFFFFFFFFFF, .trim 0 0xFFFFFFFFFFFFFFFF]

theorem flat_byte_map_wrappingRun :
    (empty.run linuxHost wrappingRun).state.load 0xFFFFFFFFFFFFFFFD 6 = [0, 1, 0, 3, 4, 0] ∧
    (empty.run linuxHost wrappingRun).state.readRange 0x1000 4 = [5, 7, 8, 0] ∧
    ∀ a, (empty.run linuxHost ([.fill 0x1000 [5, 6]] ++ .beginStep ::
          [.writeAll [(0x2000, 9)], .zeroRange 0x1001 0x1003])).state.read a ≠
        (empty.run linuxHost [.fill 0x1000 [5, 6]]).state.read a →
      a ∈ ([0x1001, 0x1002, 0x1003, 0x2000] : List Address) := by
  obtain ⟨hreads, -⟩ := flat_byte_map linuxHost wrappingRun
    ⟨fun _ => rfl, by simp [MemoryOp.Allowed], trivial, trivial, trivial, trivial⟩
  obtain ⟨-, -, -, hstep⟩ := flat_byte_map linuxHost [.fill 0x1000 [5, 6]]
    ⟨by simp [MemoryOp.Allowed], trivial⟩
  refine ⟨?_, ?_, ?_⟩
  · rw [hreads.load]
    decide +kernel
  · rw [hreads.readRange]
    decide +kernel
  · exact (hstep [.writeAll [(0x2000, 9)], .zeroRange 0x1001 0x1003] (by simp [MemoryOp.Logged]) [] _
      (by decide +kernel)).2

end Memory

end BapNative
