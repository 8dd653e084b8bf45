import BapNative.Lib.Codec

/-!
# What a range of a chain is

`bap_jit_chain_add` of `native/bap_jit.cpp` reads what a range is from one array of words, as
`registerChain` of `Bap/Primus/Lifted.lean` makes it: the slots that it has for control, how
often it ran, and its variables, each list with its length first.  It refuses an array that is
too short or too long, and one that names a slot that the range doesn't have.

What it reads is what was written, and a range that it takes names no slot that isn't there.
-/

namespace BapNative.Jit

/-! ## The words -/

/-- The words of an output: a variable, its slot and its width. -/
abbrev OutputWords : Type := BitVec 64 × BitVec 64 × BitVec 64

/-- What the words of a range are, in their order. -/
structure ChainData where
  slotCount : BitVec 64
  effectSlot : BitVec 64
  budgetSlot : BitVec 64
  observedSlot : BitVec 64
  executions : BitVec 64
  optimizeAt : BitVec 64
  zeroed : List (BitVec 64)
  layout : List (BitVec 64 × BitVec 64)
  required : List (BitVec 64)
  outputs : List OutputWords
  flags : List (BitVec 64 × BitVec 64)
  checkpoints : List (BitVec 64 × List OutputWords)

namespace ChainData

open Codec

/-- The words of a range one after the other. -/
abbrev Words : Type :=
  BitVec 64 × BitVec 64 × BitVec 64 × BitVec 64 × BitVec 64 × BitVec 64 ×
    List (BitVec 64) × List (BitVec 64 × BitVec 64) × List (BitVec 64) × List OutputWords ×
    List (BitVec 64 × BitVec 64) × List (BitVec 64 × List OutputWords)

/-- They are a range. -/
def ofWords : Words ≃ ChainData where
  toFun := fun ⟨slotCount, effectSlot, budgetSlot, observedSlot, executions, optimizeAt, zeroed,
      layout, required, outputs, flags, checkpoints⟩ =>
    ⟨slotCount, effectSlot, budgetSlot, observedSlot, executions, optimizeAt, zeroed, layout,
      required, outputs, flags, checkpoints⟩
  invFun := fun data =>
    ⟨data.slotCount, data.effectSlot, data.budgetSlot, data.observedSlot, data.executions,
      data.optimizeAt, data.zeroed, data.layout, data.required, data.outputs, data.flags,
      data.checkpoints⟩
  left_inv := fun _ => rfl
  right_inv := fun _ => rfl

/-- `outputs` of `bap_jit_chain_add`. -/
def outputWords : Codec (BitVec 64) (List OutputWords) := counted (word.pair (word.pair word))

/-- What `bap_jit_chain_add` reads, with `next`. -/
def codec : Codec (BitVec 64) ChainData :=
  (word.pair <| word.pair <| word.pair <| word.pair <| word.pair <| word.pair <|
    (counted word).pair <| (counted (word.pair word)).pair <| (counted word).pair <|
    outputWords.pair <| (counted (word.pair word)).pair <|
    counted (word.pair outputWords)).iso ofWords

/-- `fits`: a slot that there is, or none. -/
def fits (data : ChainData) (slot : BitVec 64) : Bool :=
  slot == BitVec.allOnes 64 || decide (slot.toNat < data.slotCount.toNat)

/-- What is asked of an output. -/
def fitsOutput (data : ChainData) (output : OutputWords) : Bool :=
  decide (output.2.1.toNat < data.slotCount.toNat) && output.2.2 != 0 &&
    decide (output.2.2.toNat ≤ 64)

/-- What is asked of a range whose program has so many slots. -/
def valid (data : ChainData) (maxSlot : ℕ) : Bool :=
  decide (maxSlot ≤ data.slotCount.toNat) && data.fits data.effectSlot &&
    data.fits data.budgetSlot && data.fits data.observedSlot &&
    (data.layout.all fun binding => decide (binding.2.toNat < data.slotCount.toNat)) &&
    data.outputs.all data.fitsOutput &&
    (data.flags.all fun flag => decide (flag.2.toNat < data.slotCount.toNat)) &&
    (data.zeroed.all fun slot => decide (slot.toNat < data.slotCount.toNat)) &&
    data.checkpoints.all fun checkpoint => checkpoint.2.all data.fitsOutput

end ChainData

/-! ## The range -/

/-- `ChainEntry::Output`: with the slot of its flag, if it has one. -/
structure Output where
  var : ℕ
  slot : ℕ
  width : ℕ
  flag : Option ℕ
deriving DecidableEq

/-- What stays the same of a `ChainEntry`. -/
structure ChainRange (P : Type) where
  program : P
  id : BitVec 64
  slotCount : ℕ
  effectSlot : Option ℕ
  budgetSlot : Option ℕ
  observedSlot : Option ℕ
  layout : List (ℕ × ℕ)
  required : List ℕ
  zeroed : List ℕ
  outputs : List Output
  /-- Those of the outputs that have a flag. -/
  flagged : List Output
  checkpoints : BitVec 64 → Option (List Output)
  direct : Bool

/-- A slot or a count, of which all ones are none. -/
def optional (value : BitVec 64) : Option ℕ :=
  if value = BitVec.allOnes 64 then none else some value.toNat

namespace ChainData

/-- `flagOf`: the first flag for a slot. -/
def flagOf (data : ChainData) (slot : BitVec 64) : Option ℕ :=
  (data.flags.find? fun flag => flag.1 == slot).map fun flag => flag.2.toNat

/-- An output with its flag. -/
def output (data : ChainData) (words : OutputWords) : Output :=
  ⟨words.1.toNat, words.2.1.toNat, words.2.2.toNat, data.flagOf words.2.1⟩

/-- One more checkpoint, with those at its address. -/
def addCheckpoint (data : ChainData) (checkpoints : BitVec 64 → Option (List Output))
    (checkpoint : BitVec 64 × List OutputWords) : BitVec 64 → Option (List Output) :=
  Function.update checkpoints checkpoint.1
    (some ((checkpoints checkpoint.1).getD [] ++ checkpoint.2.map data.output))

/-- The checkpoints. -/
def checkpointsOf (data : ChainData) : BitVec 64 → Option (List Output) :=
  data.checkpoints.foldl data.addCheckpoint fun _ => none

/-- The range that the words say. -/
def range {P : Type} (data : ChainData) (program : P) (id : BitVec 64) (direct : Bool) :
    ChainRange P where
  program := program
  id := id
  slotCount := data.slotCount.toNat
  effectSlot := optional data.effectSlot
  budgetSlot := optional data.budgetSlot
  observedSlot := optional data.observedSlot
  layout := data.layout.map fun binding => (binding.1.toNat, binding.2.toNat)
  required := data.required.map BitVec.toNat
  zeroed := data.zeroed.map BitVec.toNat
  outputs := data.outputs.map data.output
  flagged := (data.outputs.map data.output).filter fun output => output.flag.isSome
  checkpoints := data.checkpointsOf
  direct := direct

/-- What `bap_jit_chain_add` reads, if it takes it. -/
def read (words : List (BitVec 64)) (maxSlot : ℕ) : Except String ChainData :=
  match codec.decodeAll words with
  | some data => if data.valid maxSlot then .ok data else .error "invalid JIT chain entry"
  | none => .error "invalid JIT chain entry"

end ChainData

/-! ## Ranges that are taken -/

/-- An output has its slot, and its flag if it has one. -/
structure Output.WellFormed (output : Output) (slotCount : ℕ) : Prop where
  var : output.var < 2 ^ 64
  slot : output.slot < slotCount
  width : 0 < output.width ∧ output.width ≤ 64
  flag : ∀ flag ∈ output.flag, flag < slotCount

/-- A range has every slot that it names. -/
structure ChainRange.WellFormed {P : Type} (range : ChainRange P) (maxSlot : ℕ) : Prop where
  maxSlot : maxSlot ≤ range.slotCount
  effectSlot : ∀ slot ∈ range.effectSlot, slot < range.slotCount
  budgetSlot : ∀ slot ∈ range.budgetSlot, slot < range.slotCount
  observedSlot : ∀ slot ∈ range.observedSlot, slot < range.slotCount
  layout : ∀ binding ∈ range.layout, binding.2 < range.slotCount
  zeroed : ∀ slot ∈ range.zeroed, slot < range.slotCount
  outputs : ∀ output ∈ range.outputs, output.WellFormed range.slotCount
  flagged : range.flagged = range.outputs.filter fun output => output.flag.isSome
  checkpoints : ∀ pc outputs, range.checkpoints pc = some outputs →
    ∀ output ∈ outputs, output.WellFormed range.slotCount

namespace ChainData

variable {data : ChainData} {maxSlot : ℕ}

lemma optional_lt {slot : BitVec 64} (h : data.fits slot = true) :
    ∀ number ∈ optional slot, number < data.slotCount.toNat := by
  intro number hnumber
  rw [fits, Bool.or_eq_true, beq_iff_eq, decide_eq_true_eq] at h
  rw [optional] at hnumber
  split_ifs at hnumber with hnone
  · simp at hnumber
  · obtain rfl := Option.some.inj hnumber
    exact h.resolve_left hnone

lemma output_wellFormed (hflags : ∀ flag ∈ data.flags, flag.2.toNat < data.slotCount.toNat)
    {words : OutputWords} (h : data.fitsOutput words = true) :
    (data.output words).WellFormed data.slotCount.toNat := by
  simp only [fitsOutput, Bool.and_eq_true, decide_eq_true_eq, bne_iff_ne] at h
  obtain ⟨⟨hslot, hzero⟩, hwidth⟩ := h
  refine ⟨words.1.isLt, hslot, ⟨?_, hwidth⟩, fun flag hflag => ?_⟩
  · exact Nat.pos_of_ne_zero fun h0 => hzero (BitVec.eq_of_toNat_eq h0)
  · obtain ⟨found, hfound, rfl⟩ := Option.map_eq_some_iff.mp hflag
    exact hflags found (List.mem_of_find?_eq_some hfound)

/-- What the checkpoints have comes from the words. -/
def FromWords (data : ChainData) (checkpoints : BitVec 64 → Option (List Output)) : Prop :=
  ∀ pc outputs, checkpoints pc = some outputs → ∀ output ∈ outputs,
    ∃ checkpoint ∈ data.checkpoints, ∃ words ∈ checkpoint.2, data.output words = output

lemma FromWords.addCheckpoint {checkpoints : BitVec 64 → Option (List Output)}
    (h : data.FromWords checkpoints) {checkpoint : BitVec 64 × List OutputWords}
    (hmem : checkpoint ∈ data.checkpoints) :
    data.FromWords (data.addCheckpoint checkpoints checkpoint) := by
  intro pc outputs hpc output houtput
  rw [ChainData.addCheckpoint] at hpc
  by_cases hsame : pc = checkpoint.1
  · rw [hsame, Function.update_self] at hpc
    obtain rfl := Option.some.inj hpc
    rcases List.mem_append.mp houtput with hold | hnew
    · cases hat : checkpoints checkpoint.1 with
      | none => simp [hat] at hold
      | some before =>
        rw [hat, Option.getD_some] at hold
        exact h _ _ hat output hold
    · obtain ⟨words, hwords, rfl⟩ := List.mem_map.mp hnew
      exact ⟨checkpoint, hmem, words, hwords, rfl⟩
  · rw [Function.update_of_ne hsame] at hpc
    exact h pc outputs hpc output houtput

lemma FromWords.foldl {list : List (BitVec 64 × List OutputWords)}
    {checkpoints : BitVec 64 → Option (List Output)} (h : data.FromWords checkpoints)
    (hmem : ∀ checkpoint ∈ list, checkpoint ∈ data.checkpoints) :
    data.FromWords (list.foldl data.addCheckpoint checkpoints) := by
  induction list generalizing checkpoints with
  | nil => exact h
  | cons checkpoint list ih =>
    exact ih (h.addCheckpoint (hmem checkpoint List.mem_cons_self)) fun other hother =>
      hmem other (List.mem_cons_of_mem _ hother)

lemma fromWords_checkpointsOf : data.FromWords data.checkpointsOf :=
  FromWords.foldl (by simp [FromWords]) fun _ => id

/-- **A range that is taken names no slot that it doesn't have.** -/
theorem wellFormed_of_valid {P : Type} (h : data.valid maxSlot = true) (program : P)
    (id : BitVec 64) (direct : Bool) : (data.range program id direct).WellFormed maxSlot := by
  simp only [valid, Bool.and_eq_true, List.all_eq_true, decide_eq_true_eq] at h
  obtain ⟨⟨⟨⟨⟨⟨⟨⟨hmax, heffect⟩, hbudget⟩, hobserved⟩, hlayout⟩, houtputs⟩, hflags⟩, hzeroed⟩,
    hcheckpoints⟩ := h
  refine ⟨hmax, optional_lt heffect, optional_lt hbudget, optional_lt hobserved, ?_, ?_, ?_, rfl,
    fun pc outputs hpc output houtput => ?_⟩
  · intro binding hbinding
    obtain ⟨words, hwords, rfl⟩ := List.mem_map.mp hbinding
    exact hlayout words hwords
  · intro slot hslot
    obtain ⟨word, hword, rfl⟩ := List.mem_map.mp hslot
    exact hzeroed word hword
  · intro output houtput
    obtain ⟨words, hwords, rfl⟩ := List.mem_map.mp houtput
    exact output_wellFormed hflags (houtputs words hwords)
  · obtain ⟨checkpoint, hcheckpoint, words, hwords, rfl⟩ :=
      fromWords_checkpointsOf pc outputs hpc output houtput
    exact output_wellFormed hflags (hcheckpoints checkpoint hcheckpoint words hwords)

lemma read_ok {words : List (BitVec 64)} (h : read words maxSlot = .ok data) :
    codec.decodeAll words = some data ∧ data.valid maxSlot = true := by
  rw [read] at h
  cases hdecode : codec.decodeAll words with
  | none => simp [hdecode] at h
  | some data' =>
    simp only [hdecode] at h
    split_ifs at h with hvalid
    obtain rfl := Except.ok.inj h
    exact ⟨rfl, hvalid⟩

end ChainData

/-! ## What Lean writes -/

/-- What `registerChain` has of a range: of its lowering, with the variables by their numbers,
and how often it ran. -/
structure Registered where
  slotCount : ℕ
  nextSlot : ℕ
  executions : ℕ
  /-- None if it is optimized. -/
  optimizeAt : Option ℕ
  effectSlot : Option ℕ
  budget : Option ℕ
  observed : Option ℕ
  layout : List (ℕ × ℕ)
  inputs : List ℕ
  outputs : List (ℕ × ℕ × ℕ)
  flags : List (ℕ × ℕ)
  checkpoints : List (ℕ × List (ℕ × ℕ × ℕ))

namespace Registered

/-- `UInt64.ofNat`. -/
def toWord (number : ℕ) : BitVec 64 := BitVec.ofNat 64 number

/-- `slot`: all ones for none. -/
def slotWord (slot : Option ℕ) : BitVec 64 := (slot.map toWord).getD (toWord (2 ^ 64 - 1))

/-- `zeroed`: what a run reads before it writes that isn't a variable or for control. -/
def zeroed (registered : Registered) : List ℕ :=
  registered.effectSlot.toList ++ registered.flags.map Prod.snd ++
    if registered.slotCount > registered.nextSlot then [registered.nextSlot] else []

/-- `outputs`. -/
def outputData (list : List (ℕ × ℕ × ℕ)) : List (BitVec 64) :=
  list.foldl (fun data output => data ++ [toWord output.1, toWord output.2.1, toWord output.2.2])
    [toWord list.length]

/-- The array that `registerChain` makes. -/
def data (registered : Registered) : List (BitVec 64) :=
  let data := [toWord registered.slotCount, slotWord registered.effectSlot,
    slotWord registered.budget, slotWord registered.observed, toWord registered.executions,
    slotWord registered.optimizeAt]
  let data := data ++ [toWord registered.zeroed.length] ++ registered.zeroed.map toWord
  let data := registered.layout.foldl
    (fun data binding => data ++ [toWord binding.1, toWord binding.2])
    (data ++ [toWord registered.layout.length])
  let data := registered.inputs.foldl (fun data var => data ++ [toWord var])
    (data ++ [toWord registered.inputs.length])
  let data := data ++ outputData registered.outputs
  let data := registered.flags.foldl (fun data flag => data ++ [toWord flag.1, toWord flag.2])
    (data ++ [toWord registered.flags.length])
  registered.checkpoints.foldl
    (fun data checkpoint => data ++ [toWord checkpoint.1] ++ outputData checkpoint.2)
    (data ++ [toWord registered.checkpoints.length])

/-- The words of an output. -/
def outputWords (output : ℕ × ℕ × ℕ) : OutputWords :=
  (toWord output.1, toWord output.2.1, toWord output.2.2)

/-- The same, as it is read. -/
def chainData (registered : Registered) : ChainData where
  slotCount := toWord registered.slotCount
  effectSlot := slotWord registered.effectSlot
  budgetSlot := slotWord registered.budget
  observedSlot := slotWord registered.observed
  executions := toWord registered.executions
  optimizeAt := slotWord registered.optimizeAt
  zeroed := registered.zeroed.map toWord
  layout := registered.layout.map fun binding => (toWord binding.1, toWord binding.2)
  required := registered.inputs.map toWord
  outputs := registered.outputs.map outputWords
  flags := registered.flags.map fun flag => (toWord flag.1, toWord flag.2)
  checkpoints := registered.checkpoints.map fun checkpoint =>
    (toWord checkpoint.1, checkpoint.2.map outputWords)

/-- No list is longer than a word can say. -/
structure Short (registered : Registered) : Prop where
  zeroed : registered.zeroed.length < 2 ^ 64
  layout : registered.layout.length < 2 ^ 64
  inputs : registered.inputs.length < 2 ^ 64
  outputs : registered.outputs.length < 2 ^ 64
  flags : registered.flags.length < 2 ^ 64
  checkpoints : registered.checkpoints.length < 2 ^ 64
  each : ∀ checkpoint ∈ registered.checkpoints, checkpoint.2.length < 2 ^ 64

lemma foldl_append {α : Type} (f : α → List (BitVec 64)) (list : List α)
    (start : List (BitVec 64)) :
    list.foldl (fun data a => data ++ f a) start = start ++ list.flatMap f := by
  induction list generalizing start with
  | nil => simp
  | cons a list ih => rw [List.foldl_cons, ih, List.flatMap_cons, List.append_assoc]

lemma outputData_eq (list : List (ℕ × ℕ × ℕ)) :
    outputData list = ChainData.outputWords.encode (list.map outputWords) := by
  rw [outputData, foldl_append]
  simp [ChainData.outputWords, Codec.counted, Codec.pair, Codec.word, outputWords, toWord,
    List.flatMap_map]

/-- **What Lean writes is what is read.** -/
theorem data_eq (registered : Registered) :
    registered.data = ChainData.codec.encode registered.chainData := by
  have hinputs : registered.inputs.flatMap (fun var => [toWord var]) =
      registered.inputs.map toWord := List.flatMap_pure_eq_map toWord registered.inputs
  simp only [data, foldl_append, List.append_assoc, outputData_eq, hinputs]
  simp [ChainData.codec, Codec.iso, Codec.pair, Codec.word, Codec.counted, ChainData.ofWords,
    chainData, List.flatMap_map, toWord]

lemma Short.fits {registered : Registered} (h : registered.Short) :
    ChainData.codec.Fits registered.chainData := by
  have hwords : ∀ list : List (ℕ × ℕ × ℕ), list.length < 2 ^ 64 →
      ChainData.outputWords.Fits (list.map outputWords) := fun list hlist =>
    ⟨by simpa using hlist, fun _ _ => ⟨trivial, trivial, trivial⟩⟩
  refine ⟨trivial, trivial, trivial, trivial, trivial, trivial,
    ⟨by simpa [chainData, ChainData.ofWords] using h.zeroed, fun _ _ => trivial⟩,
    ⟨by simpa [chainData, ChainData.ofWords] using h.layout, fun _ _ => ⟨trivial, trivial⟩⟩,
    ⟨by simpa [chainData, ChainData.ofWords] using h.inputs, fun _ _ => trivial⟩,
    hwords _ h.outputs,
    ⟨by simpa [chainData, ChainData.ofWords] using h.flags, fun _ _ => ⟨trivial, trivial⟩⟩,
    ⟨by simpa [chainData, ChainData.ofWords] using h.checkpoints, fun checkpoint hmem => ?_⟩⟩
  obtain ⟨checkpoint', hmem', rfl⟩ := List.mem_map.mp hmem
  exact ⟨trivial, hwords _ (h.each checkpoint' hmem')⟩

lemma Short.decodeAll {registered : Registered} (h : registered.Short) :
    ChainData.codec.decodeAll registered.data = some registered.chainData :=
  ChainData.codec.decodeAll_eq_some_iff.mpr ⟨h.fits, registered.data_eq⟩

end Registered

/-- **What `bap_jit_chain_add` takes is what `registerChain` writes, of a range that has every
slot that it names, and nothing else.** -/
theorem read_chainData_iff {P : Type} (words : List (BitVec 64)) (maxSlot : ℕ)
    (data : ChainData) :
    (ChainData.read words maxSlot = .ok data ↔
      ChainData.codec.Fits data ∧ words = ChainData.codec.encode data ∧
        data.valid maxSlot = true) ∧
    (ChainData.read words maxSlot = .ok data → ∀ (program : P) (id : BitVec 64) (direct : Bool),
      (data.range program id direct).WellFormed maxSlot) ∧
    ∀ registered : Registered, registered.Short →
      ChainData.read registered.data maxSlot =
        if registered.chainData.valid maxSlot then .ok registered.chainData
        else .error "invalid JIT chain entry" := by
  refine ⟨⟨fun h => ?_, ?_⟩, fun h program id direct => ?_, fun registered hshort => ?_⟩
  · obtain ⟨hdecode, hvalid⟩ := ChainData.read_ok h
    obtain ⟨hfits, hwords⟩ := ChainData.codec.decodeAll_eq_some_iff.mp hdecode
    exact ⟨hfits, hwords, hvalid⟩
  · rintro ⟨hfits, hwords, hvalid⟩
    rw [ChainData.read, ChainData.codec.decodeAll_eq_some_iff.mpr ⟨hfits, hwords⟩]
    exact if_pos hvalid
  · exact ChainData.wellFormed_of_valid (ChainData.read_ok h).2 program id direct
  · rw [ChainData.read, hshort.decodeAll]

/-- A range with a flag for one of its outputs, and a checkpoint. -/
def flaggedRange : Registered where
  slotCount := 6
  nextSlot := 6
  executions := 7
  optimizeAt := some 100
  effectSlot := some 0
  budget := some 1
  observed := none
  layout := [(3, 2), (5, 3)]
  inputs := [3]
  outputs := [(3, 2, 32), (5, 3, 64)]
  flags := [(3, 4)]
  checkpoints := [(0x1000, [(3, 2, 32)])]

lemma short_flaggedRange : flaggedRange.Short :=
  ⟨by decide, by decide, by decide, by decide, by decide, by decide, by decide⟩

theorem read_chainData_flaggedRange :
    ChainData.read flaggedRange.data 5 = .ok flaggedRange.chainData :=
  ((read_chainData_iff (P := ℕ) [] 5 flaggedRange.chainData).2.2 flaggedRange
    short_flaggedRange).trans (if_pos (by decide +kernel))

end BapNative.Jit
