import BapNative.Jit.Execute

/-!
# What a run gives back

`runMemoryObject` of `native/bap_jit.cpp`: a program runs on a vector with the slots that it is
given and on a memory that lives on between runs, and gives back where it went, its slots, and
the cells that its stores wrote, or the error that an observer threw.  The step of the memory
is told of these cells in either case.

A run leaves what the operations of its program are to leave, and whatever it does in a step of
its memory can be taken back: what the step knows has every address whose byte is another.
-/

namespace BapNative.Jit

open Lockstep PagedMemory

variable {W E : Type} (setup : Setup W E)

/-! ## The call of a program -/

/-- What `forEach` goes through the pages of a log by: they are in a map without an order. -/
abbrev LogOrder : Type := (log : StoreLog) → { order : List Address // order.Perm log.numbers }

/-- What a run gives back. -/
structure RunResult where
  /-- Where it went. -/
  next : BitVec 64
  state : List (BitVec 64)
  addresses : List Address
  values : List Byte

/-- What is there after a run. -/
structure After (W E : Type) where
  world : W
  pages : PagedMemory
  filter : Option MemoryFilter
  result : Except E RunResult

/-- The cells of a run at its start. -/
def Cells.start (world : W) (filter : Option MemoryFilter) (pages : PagedMemory) : Cells W E where
  world := world
  pages := pages
  changes := .new
  filter := filter
  error := none
  leanRan := false
  pendingSite := false
  pendingPc := 0
  quietFirst := fun _ => 1
  quietLast := fun _ => 0
  pageEntries := fun _ => ⟨0, ⟨0, 0⟩⟩

/-- The step of a memory is told of the cells that a run wrote. -/
def noteChanges (pages : PagedMemory) (cells : List (Address × Byte)) : PagedMemory :=
  if pages.stepActive then cells.foldl (fun pages cell => pages.noteStep cell.1 1) pages
  else pages

/-- `lean_alloc_array` of a size, filled from its start: a cell too many would be outside of it,
and one too few would leave some of it as the host has it. -/
def fillArray {α : Type} (size : ℕ) (elements : List α) : Option (List α) :=
  if elements.length = size then some elements else none

/-- The error of a run, or what it gives back. -/
def resultOf (next : BitVec 64) (native : Native W E) (changed : List (Address × Byte)) :
    Option (Except E RunResult) :=
  match native.cells.error with
  | some error => some (.error error)
  | none => do
    let addresses ← fillArray native.cells.changes.count (changed.map Prod.fst)
    let values ← fillArray native.cells.changes.count (changed.map Prod.snd)
    return .ok ⟨next, native.state, addresses, values⟩

/-- What `runMemoryObject` does after the call. -/
def finish (order : LogOrder) (next : BitVec 64) (native : Native W E) : Option (After W E) := do
  let cells := native.cells
  let changed := cells.changes.forEach (order cells.changes)
  let pages := noteChanges cells.pages changed
  let result ← resultOf next native changed
  return ⟨cells.world, pages, cells.filter, result⟩

/-- `runMemoryObject`, for so many steps of the code: undefined, somewhere in the code still, or
what is there after it. -/
def runMemoryObject (order : LogOrder) (program : Program) (world : W)
    (filter : Option MemoryFilter) (state : List (BitVec 64)) (pages : PagedMemory) (fuel : ℕ) :
    Option ((List Op × Native W E) ⊕ After W E) :=
  if state.length < program.maxSlot then
    some (.inr ⟨world, pages, filter,
      .error (setup.userError "JIT state has fewer slots than its program requires")⟩)
  else
    match run (program.step setup) fuel
      (program.blocks none, ⟨state, Cells.start world filter pages⟩) with
    | none => none
    | some (.inl point) => some (.inl point)
    | some (.inr (next, native)) => (finish order next native).map .inr

/-! ## What it is to leave -/

/-- A machine with the slots and the memory that a run is given. -/
def Machine.start (world : W) (filter : Option MemoryFilter) (state : List (BitVec 64))
    (memory : Address → Byte) : Machine W E where
  slots := fun slot => state.getD slot 0
  flat :=
    { world := world, memory := memory, stored := fun _ => none, filter := filter, error := none,
      leanRan := false, pending := none }

/-- What a run that returned leaves, as its operations have it. -/
structure Leaves (count : ℕ) (start : PagedMemory) (after : After W E)
    (result : BitVec 64 × Machine W E) : Prop where
  wf : after.pages.WellFormed
  byteAt : after.pages.byteAt = result.2.flat.memory
  world : after.world = result.2.flat.world
  filter : after.filter = result.2.flat.filter
  /-- What the step of the memory knows, as for an operation on it. -/
  logs : Logs start after.pages
  /-- It knows every address that was stored to. -/
  noted : start.stepOpen = true → after.pages.stepOverflowed = false →
    ∀ a, (result.2.flat.stored a).isSome → a ∈ after.pages.noted
  /-- The error is that of the first observer that threw. -/
  failed : ∀ error, result.2.flat.error = some error → after.result = .error error
  /-- The changed cells have each address that was stored to, once, with its last byte. -/
  returned : result.2.flat.error = none → ∃ cells : List (Address × Byte),
    after.result = .ok ⟨result.1, (List.range count).map result.2.slots, cells.map Prod.fst,
      cells.map Prod.snd⟩ ∧
    (cells.map Prod.fst).Nodup ∧ ∀ a v, (a, v) ∈ cells ↔ result.2.flat.stored a = some v

variable {setup} {count : ℕ} {start : PagedMemory}

/-! ## After the call -/

lemma noteChanges_spec (pages : PagedMemory) (cells : List (Address × Byte)) :
    Logs pages (noteChanges pages cells) ∧
    (noteChanges pages cells).byteAt = pages.byteAt ∧
    (pages.WellFormed → (noteChanges pages cells).WellFormed) ∧
    (pages.stepOpen = true → (noteChanges pages cells).stepOverflowed = false →
      ∀ a ∈ cells.map Prod.fst, a ∈ (noteChanges pages cells).noted) := by
  unfold noteChanges
  by_cases hactive : pages.stepActive = true
  · rw [if_pos hactive]
    clear hactive
    induction cells generalizing pages with
    | nil => exact ⟨Logs.refl pages, rfl, id, by simp⟩
    | cons cell cells ih =>
      obtain ⟨hlogs, hbyte, hwf, hnoted⟩ := ih (pages.noteStep cell.1 1)
      have hnote := logs_noteStep pages cell.1 1
      have honly := onlyStep_noteStep pages cell.1 1
      refine ⟨hnote.trans hlogs, hbyte.trans honly.byteAt, fun h => hwf (honly.wf h),
        fun hopen hover a ha => ?_⟩
      rcases List.mem_cons.mp ha with rfl | ha
      · have hmem := mem_noted_noteStep hopen (hlogs.overflowed hover) (show 1 < 256 by omega)
          (show 0 < 1 by omega)
        exact hlogs.keeps hover _ (by simpa using hmem)
      · exact hnoted (hnote.stepOpen.trans hopen) hover a ha
  · rw [if_neg hactive]
    exact ⟨Logs.refl pages, rfl, id, fun hopen => absurd hopen hactive⟩

/-- What a run owes is paid when the step is told of what it stored. -/
lemma Cells.Owes.logs_noteChanges {cells : Cells W E} (h : cells.Owes start)
    {changed : List (Address × Byte)}
    (hchanged : ∀ a, (cells.changes.valueAt a).isSome → a ∈ changed.map Prod.fst) :
    Logs start (noteChanges cells.pages changed) := by
  obtain ⟨hlogs, hbyte, -, hnoted⟩ := noteChanges_spec cells.pages changed
  refine ⟨hlogs.stepOpen.trans h.stepOpen, fun hover => h.overflowed (hlogs.overflowed hover),
    fun hover a ha => hlogs.keeps hover a (h.keeps (hlogs.overflowed hover) a ha),
    fun hopen hover a ha => ?_⟩
  rw [hbyte] at ha
  rcases h.notes hopen (hlogs.overflowed hover) a ha with hknown | hstored
  · exact hlogs.keeps hover a hknown
  · exact hnoted (h.stepOpen.trans hopen) hover a (hchanged a hstored)

/-- The arrays of the changed cells are as long as the log says that they are. -/
lemma fillArray_map_forEach {log : StoreLog} (h : log.WellFormed) {numbers : List Address}
    (hnumbers : numbers.Perm log.numbers) {α : Type} (f : Address × Byte → α) :
    fillArray log.count ((log.forEach numbers).map f) = some ((log.forEach numbers).map f) :=
  if_pos (by rw [List.length_map, h.length_forEach hnumbers])

lemma resultOf_spec {native : Native W E} (hlog : native.cells.changes.WellFormed)
    {numbers : List Address} (hnumbers : numbers.Perm native.cells.changes.numbers)
    (next : BitVec 64) : resultOf next native (native.cells.changes.forEach numbers) =
      some (match native.cells.error with
        | some error => .error error
        | none => .ok ⟨next, native.state,
          (native.cells.changes.forEach numbers).map Prod.fst,
          (native.cells.changes.forEach numbers).map Prod.snd⟩) := by
  unfold resultOf
  cases native.cells.error with
  | some error => rfl
  | none =>
    simp only [fillArray_map_forEach hlog hnumbers]
    rfl

/-- **What is done after the call is defined, and leaves what the operations are to.** -/
theorem finish_spec (order : LogOrder) (next : BitVec 64) {native : Native W E}
    {machine : Machine W E} (h : Agrees setup count start native machine) :
    ∃ after, finish order next native = some after ∧ Leaves count start after (next, machine) := by
  obtain ⟨slots, flat⟩ := machine
  obtain ⟨hstate, hinv, rfl, howes⟩ := h
  have hnumbers := (order native.cells.changes).property
  have hchanged : ∀ a, (native.cells.changes.valueAt a).isSome →
      a ∈ (native.cells.changes.forEach (order native.cells.changes)).map Prod.fst := by
    intro a ha
    obtain ⟨v, hv⟩ := Option.isSome_iff_exists.mp ha
    exact List.mem_map.mpr ⟨(a, v), (hinv.changes.mem_forEach hnumbers).mpr hv, rfl⟩
  obtain ⟨-, hbyte, hwf, hnoted⟩ := noteChanges_spec native.cells.pages
    (native.cells.changes.forEach (order native.cells.changes))
  unfold finish
  simp only [resultOf_spec hinv.changes hnumbers, Option.bind_eq_bind, Option.bind_some]
  refine ⟨_, rfl, hwf hinv.pages, hbyte, rfl, rfl, howes.logs_noteChanges hchanged,
    fun hopen hover a ha => hnoted (howes.stepOpen.trans hopen) hover a (hchanged a ha),
    fun error herror => ?_, fun hfine => ?_⟩
  · have herror' : native.cells.error = some error := herror
    simp only [herror']
  · have hfine' : native.cells.error = none := hfine
    refine ⟨native.cells.changes.forEach (order native.cells.changes), ?_,
      hinv.changes.nodup_forEach hnumbers, fun a v => hinv.changes.mem_forEach hnumbers⟩
    simp only [hfine', hstate]

/-! ## The whole call -/

lemma Cells.inv_start (world : W) (filter : Option MemoryFilter) {pages : PagedMemory}
    (h : pages.WellFormed) : (Cells.start world filter pages : Cells W E).Inv setup := by
  refine ⟨h, StoreLog.wellFormed_new, fun _ a htag => absurd htag (zero_ne_tag a),
    fun write hle => ?_⟩
  simp [Cells.start] at hle

lemma Cells.owes_start (world : W) (filter : Option MemoryFilter) (pages : PagedMemory) :
    (Cells.start world filter pages : Cells W E).Owes pages :=
  ⟨rfl, id, fun _ _ => id, fun _ _ _ h => absurd rfl h⟩

/-- A run starts with what it is given. -/
lemma agrees_start (world : W) (filter : Option MemoryFilter) (state : List (BitVec 64))
    {pages : PagedMemory} (h : pages.WellFormed) :
    Agrees setup state.length pages ⟨state, Cells.start world filter pages⟩
      (Machine.start world filter state pages.byteAt) := by
  refine ⟨List.ext_getElem (by simp) fun i hi _ => ?_, Cells.inv_start world filter h, rfl,
    Cells.owes_start world filter pages⟩
  rw [List.getElem_map, List.getElem_range]
  exact (List.getD_eq_getElem state 0 hi).symm

variable {ops : List Op} {program : Program}

/-- **A run of a compiled program, on a state with as many slots as it requires, is never
undefined.  It is over if and only if its operations have returned, and then leaves what they
are to leave.** -/
theorem Compiled.runMemoryObject_spec (h : Compiled ops program) (setup : Setup W E)
    (order : LogOrder) (world : W) (filter : Option MemoryFilter) {state : List (BitVec 64)}
    (hstate : program.maxSlot ≤ state.length) {pages : PagedMemory} (hpages : pages.WellFormed)
    (fuel : ℕ) :
    Both (InStep setup ops state.length pages) (Leaves state.length pages)
      (runMemoryObject setup order program world filter state pages fuel)
      (run (nextCfg setup ops) fuel
        (ops, Machine.start world filter state pages.byteAt)) := by
  obtain ⟨x, y, hx, hy, hrel⟩ := h.both_run hstate (agrees_start world filter state hpages) fuel
  rw [runMemoryObject, if_neg (Nat.not_lt.mpr hstate), hx, hy]
  cases hrel with
  | inl hin => exact both_inl hin
  | @inr result result' hreturn =>
    obtain ⟨next, native⟩ := result
    obtain ⟨next', machine⟩ := result'
    obtain ⟨rfl, hagrees⟩ := hreturn
    obtain ⟨after, hafter, hleaves⟩ := finish_spec order next hagrees
    simp only [hafter, Option.map_some]
    exact both_inr hleaves

/-- **What `compile` accepts runs as its operations are to.**  On a state with as many slots as it
requires, and on any memory, it is never undefined, is over after as many operations as they
return after, and leaves what they leave: where it went, the slots, the memory and each cell that
was stored to once, with its last byte, or the error of the first observer that threw. -/
theorem compile_run {blockName : List Op → String} {ops : List Op} {program : Program}
    (hcompile : compile blockName ops = .ok program) (setup : Setup W E) (order : LogOrder)
    (world : W) (filter : Option MemoryFilter) {state : List (BitVec 64)}
    (hstate : program.maxSlot ≤ state.length) {pages : PagedMemory} (hpages : pages.WellFormed)
    (fuel : ℕ) :
    Both (InStep setup ops state.length pages) (Leaves state.length pages)
      (runMemoryObject setup order program world filter state pages fuel)
      (run (nextCfg setup ops) fuel
        (ops, Machine.start world filter state pages.byteAt)) :=
  (compiled_of_compile hcompile).runMemoryObject_spec setup order world filter hstate hpages fuel

/-! ## A program -/

/-- An observer leaves a world, and may throw. -/
def Reaction.leaving (world : ℕ) (error : Option String) : Reaction ℕ String :=
  ⟨world, [], fun _ h => absurd h List.not_mem_nil, id, error⟩

/-- A code observer that counts its calls, and nothing else that is observed. -/
def countingSetup : Setup ℕ String where
  host := Memory.linuxHost
  bigEndianHost := false
  observer := none
  codeObserver := some fun world _ _ => (.leaving (world + 1) none, false)
  quietSites := false
  userError := id

/-- The order that the pages of a log are kept in. -/
def keptOrder : LogOrder := fun log => ⟨log.numbers, List.Perm.refl _⟩

/-- The program of a list of operations, if it has one. -/
def programOf (ops : List Op) : Program :=
  match compile (fun _ => "") ops with
  | .ok program => program
  | .error _ => ⟨fun _ => [], 0, 0⟩

/-- Stores a slot across the end of a page, until there are none left to store. -/
def storeOps : List Op :=
  [.goto 0, .label 0, .code 3 0x100, .memStore 1 2 8 false, .add 1 1 4,
    .add 0 0 (BitVec.allOnes 64), .branch 0 0 1, .label 1, .jumpSlot 1]

theorem compile_run_storeOps :
    Both (InStep countingSetup storeOps 4 Memory.empty.state) (Leaves 4 Memory.empty.state)
      (runMemoryObject countingSetup keptOrder (programOf storeOps) 0 none
        [3, 0x1FFE, 0x0807060504030201, 0] Memory.empty.state 18)
      (run (nextCfg countingSetup storeOps) 18
        (storeOps, Machine.start 0 none [3, 0x1FFE, 0x0807060504030201, 0]
          Memory.empty.state.byteAt)) :=
  compile_run (show compile (fun _ => "") storeOps = .ok (programOf storeOps) from rfl)
    countingSetup keptOrder 0 none (by decide) Memory.empty.wf 18

end BapNative.Jit
