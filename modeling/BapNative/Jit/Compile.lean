import BapNative.Jit.Ops

/-!
# Compiling a program

`compileOps` of `native/bap_jit.cpp`, up to the blocks that it emits: a first pass makes a
block for each label, and a second goes through the operations, refuses those that aren't
such as can be compiled, and emits the others to the block of the last label.  A program is
accepted only if nothing follows a terminator in its block and every block ends with one.

What a program means is said of its list of operations, where a jump goes on with what
comes after a label (`afterLabel`).  The block of a label is what comes after it up to the
next label, and ends with its only terminator.
-/

namespace BapNative.Jit

/-! ## What is asked of an operation -/

/-- The largest number that `getSlot` takes: `INT32_MAX / sizeof(uint64_t)`. -/
def slotLimit : ℕ := (2 ^ 31 - 1) / 8

/-- `getSlot`: whether a number of Lean can be a slot. -/
def getSlot (value : ℕ) : Bool := decide (value ≤ slotLimit)

namespace Op

/-- What of an operation `getSlot` is asked of. -/
def numbers : Op → List ℕ
  | set dst _ => [dst]
  | move dst src => [dst, src]
  | add dst src _ => [dst, src]
  | jump _ => []
  | jumpSlot src => [src]
  | bin _ dst left right => [dst, left, right]
  | andImm dst src _ => [dst, src]
  | signExtend width dst src => [width, dst, src]
  | select dst condition yes no => [dst, condition, yes, no]
  | neg dst src => [dst, src]
  | not dst src => [dst, src]
  | ashr width dst left right => [width, dst, left, right]
  | label id => [id]
  | goto id => [id]
  | branch condition yes no => [condition, yes, no]
  | memLoad dst address size _ => [dst, address, size]
  | memStore address value size _ => [address, value, size]
  | code effectSlot _ => [effectSlot]

/-- Whether the width or the size of an operation, if it has one, is such as is compiled. -/
def sized : Op → Bool
  | signExtend width _ _ | ashr width _ _ _ => width != 0 && decide (width ≤ 64)
  | memLoad _ _ size _ | memStore _ _ size _ => size != 0 && decide (size ≤ 8)
  | _ => true

/-- What is said of one that isn't. -/
def refusal : Op → String
  | set _ _ => "JIT destination slot is too large"
  | move _ _ => "JIT move slot is too large"
  | add _ _ _ => "JIT addition slot is too large"
  | jump _ => ""
  | jumpSlot _ => "JIT jump slot is too large"
  | bin _ _ _ _ => "invalid JIT binary operation"
  | andImm _ _ _ => "JIT mask slot is too large"
  | signExtend _ _ _ => "invalid JIT sign extension"
  | select _ _ _ _ => "invalid JIT select"
  | neg _ _ | not _ _ => "invalid JIT unary operation"
  | ashr _ _ _ _ => "invalid JIT arithmetic shift"
  | label _ => "invalid JIT label"
  | goto _ => "invalid JIT goto"
  | branch _ _ _ => "invalid JIT branch"
  | memLoad _ _ _ _ => "invalid JIT memory load"
  | memStore _ _ _ _ => "invalid JIT memory store"
  | code _ _ => "invalid JIT code effect slot"

/-- The labels that an operation names. -/
def targets : Op → List ℕ
  | label id | goto id => [id]
  | branch _ yes no => [yes, no]
  | _ => []

/-- What is said if one of them isn't there. -/
def missing : Op → String
  | label _ => "missing JIT label"
  | goto _ => "missing JIT goto target"
  | branch _ _ _ => "missing JIT branch target"
  | _ => ""

/-- The slots that `noteSlot` is told of: those that an operation reads or writes. -/
def slots : Op → List ℕ
  | set dst _ => [dst]
  | move dst src => [dst, src]
  | add dst src _ => [dst, src]
  | jumpSlot src => [src]
  | bin _ dst left right => [dst, left, right]
  | andImm dst src _ => [dst, src]
  | signExtend _ dst src => [dst, src]
  | select dst condition yes no => [dst, condition, yes, no]
  | neg dst src => [dst, src]
  | not dst src => [dst, src]
  | ashr _ dst left right => [dst, left, right]
  | branch condition _ _ => [condition]
  | memLoad dst address _ _ => [dst, address]
  | memStore address value _ _ => [address, value]
  | code effectSlot _ => [effectSlot]
  | jump _ | label _ | goto _ => []

/-- What is added to `memoryStores`. -/
def storeSize : Op → ℕ
  | memStore _ _ size _ => size
  | _ => 0

/-- Whether an operation ends its block. -/
def isTerminator : Op → Bool
  | jump _ | jumpSlot _ | goto _ | branch _ _ _ => true
  | _ => false

/-- Whether an operation is a label. -/
def isLabel : Op → Bool
  | label _ => true
  | _ => false

/-- Whether an operation is compiled, in a program with these labels. -/
def accepted (labels : List ℕ) (op : Op) : Bool :=
  op.numbers.all getSlot && op.sized && op.targets.all fun id => decide (id ∈ labels)

end Op

/-! ## The passes -/

/-- The first pass: a block for each label. -/
def collectLabels : List Op → List ℕ → Except String (List ℕ)
  | [], labels => .ok labels
  | .label id :: ops, labels =>
    if !getSlot id then .error "invalid JIT label"
    else if id ∈ labels then .error "duplicate JIT label"
    else collectLabels ops (labels ++ [id])
  | _ :: ops, labels => collectLabels ops labels

/-- What the second pass has. -/
structure Builder where
  /-- What was emitted to each block: that of a label, or `none` for the entry. -/
  blocks : Option ℕ → List Op
  /-- The block of the insertion point. -/
  current : Option ℕ
  /-- `maxSlot`, where `hasSlots`. -/
  maxSlot : Option ℕ
  memoryStores : ℕ

/-- `hasTerminator`. -/
def hasTerminator (block : List Op) : Bool := (block.getLast?.map Op.isTerminator).getD false

/-- `noteSlot`. -/
def noteSlot (maxSlot : Option ℕ) (slot : ℕ) : Option ℕ :=
  match maxSlot with
  | some most => some (max most slot)
  | none => some slot

namespace Builder

/-- Before the second pass. -/
def start : Builder := ⟨fun _ => [], none, none, 0⟩

/-- An operation is emitted, or goes on in the block of a label. -/
def put (builder : Builder) (op : Op) : Builder :=
  match op with
  | .label id => { builder with current := some id }
  | _ =>
    { builder with
      blocks := Function.update builder.blocks builder.current
        (builder.blocks builder.current ++ [op])
      maxSlot := op.slots.foldl noteSlot builder.maxSlot
      memoryStores := builder.memoryStores + op.storeSize }

/-- The body of the second pass. -/
def emit (labels : List ℕ) (builder : Builder) (op : Op) : Except String Builder :=
  if !op.isLabel && hasTerminator (builder.blocks builder.current) then
    .error "JIT operation follows a terminator"
  else if !(op.numbers.all getSlot && op.sized) then .error op.refusal
  else if !(op.targets.all fun id => decide (id ∈ labels)) then .error op.missing
  else .ok (builder.put op)

/-- The second pass. -/
def emitAll (labels : List ℕ) : List Op → Builder → Except String Builder
  | [], builder => .ok builder
  | op :: ops, builder =>
    match builder.emit labels op with
    | .ok builder => emitAll labels ops builder
    | .error message => .error message

/-- How many slots a state has to have. -/
def slotCount (maxSlot : Option ℕ) : ℕ :=
  match maxSlot with
  | some most => most + 1
  | none => 0

end Builder

/-- A `Program`, as its blocks. -/
structure Program where
  /-- The block of each label, and of the entry. -/
  blocks : Option ℕ → List Op
  /-- `maxSlot`: how many slots a state has to have. -/
  maxSlot : ℕ
  memoryStores : ℕ

/-- `compileOps`, without entries and optimization.  `blockName` is what LLVM calls the first
block without a terminator. -/
def compile (blockName : List Op → String) (ops : List Op) : Except String Program :=
  match collectLabels ops [] with
  | .error message => .error message
  | .ok labels =>
    match Builder.emitAll labels ops Builder.start with
    | .error message => .error message
    | .ok builder =>
      if ops.isEmpty then .error "a JIT program must not be empty"
      else if (none :: labels.map some).all fun id => hasTerminator (builder.blocks id) then
        .ok ⟨builder.blocks, Builder.slotCount builder.maxSlot, builder.memoryStores⟩
      else .error ("a JIT basic block has no terminator: " ++ blockName ops)

/-! ## Labels -/

/-- The labels of a program. -/
def labelsOf (ops : List Op) : List ℕ :=
  ops.filterMap fun op =>
    match op with
    | .label id => some id
    | _ => none

/-- What comes after a label. -/
def afterLabel : List Op → ℕ → Option (List Op)
  | [], _ => none
  | .label l :: rest, id => if l = id then some rest else afterLabel rest id
  | _ :: rest, id => afterLabel rest id

/-- What comes before the next label. -/
def blockAt (ops : List Op) : List Op := ops.takeWhile fun op => !op.isLabel

lemma Op.eq_label {op : Op} (h : op.isLabel = true) : ∃ id, op = .label id := by
  cases op <;> first | exact ⟨_, rfl⟩ | simp [Op.isLabel] at h

@[simp] lemma labelsOf_nil : labelsOf [] = [] := rfl

@[simp] lemma labelsOf_label (id : ℕ) (ops : List Op) :
    labelsOf (.label id :: ops) = id :: labelsOf ops := rfl

lemma labelsOf_cons {op : Op} (h : op.isLabel = false) (ops : List Op) :
    labelsOf (op :: ops) = labelsOf ops := by
  cases op <;> first | rfl | simp [Op.isLabel] at h

lemma afterLabel_cons {op : Op} (h : op.isLabel = false) (ops : List Op) (id : ℕ) :
    afterLabel (op :: ops) id = afterLabel ops id := by
  cases op <;> first | rfl | simp [Op.isLabel] at h

@[simp] lemma blockAt_label (id : ℕ) (ops : List Op) : blockAt (.label id :: ops) = [] := rfl

lemma blockAt_cons {op : Op} (h : op.isLabel = false) (ops : List Op) :
    blockAt (op :: ops) = op :: blockAt ops := by
  simp [blockAt, h]

/-- The first pass finds the labels, and no label twice. -/
lemma collectLabels_ok {ops : List Op} {labels labels' : List ℕ}
    (h : collectLabels ops labels = .ok labels') (hnodup : labels.Nodup) :
    labels' = labels ++ labelsOf ops ∧ labels'.Nodup := by
  induction ops generalizing labels with
  | nil =>
    obtain rfl := Except.ok.inj h
    exact ⟨by simp, hnodup⟩
  | cons op ops ih =>
    cases hlabel : op.isLabel with
    | true =>
      obtain ⟨id, rfl⟩ := Op.eq_label hlabel
      rw [collectLabels] at h
      split_ifs at h with hslot hold
      have hnew : (labels ++ [id]).Nodup :=
        hnodup.append (List.nodup_singleton id) (List.disjoint_singleton.mpr hold)
      obtain ⟨hlabels, hnodup'⟩ := ih h hnew
      exact ⟨by rw [hlabels, labelsOf_label, List.append_assoc]; rfl, hnodup'⟩
    | false =>
      have hskip : collectLabels (op :: ops) labels = collectLabels ops labels := by
        cases op <;> first | rfl | simp [Op.isLabel] at hlabel
      rw [hskip] at h
      rw [labelsOf_cons hlabel]
      exact ih h hnodup

/-! ## The second pass -/

namespace Builder

variable {labels : List ℕ} {builder builder' : Builder} {op : Op} {ops : List Op}

@[simp] lemma put_label (builder : Builder) (id : ℕ) :
    builder.put (.label id) = { builder with current := some id } := rfl

lemma blocks_put (h : op.isLabel = false) (builder : Builder) :
    (builder.put op).blocks = Function.update builder.blocks builder.current
      (builder.blocks builder.current ++ [op]) := by
  cases op <;> first | rfl | simp [Op.isLabel] at h

lemma current_put (h : op.isLabel = false) (builder : Builder) :
    (builder.put op).current = builder.current := by
  cases op <;> first | contradiction | rfl

lemma maxSlot_put (builder : Builder) (op : Op) :
    (builder.put op).maxSlot = op.slots.foldl noteSlot builder.maxSlot := by
  cases op <;> rfl

/-- What it takes for an operation to be emitted. -/
lemma emit_ok (h : builder.emit labels op = .ok builder') :
    op.accepted labels = true ∧ builder' = builder.put op ∧
      (op.isLabel = false → hasTerminator (builder.blocks builder.current) = false) := by
  unfold emit at h
  split_ifs at h with hfollows hrefused hmissing
  obtain rfl := Except.ok.inj h
  rw [Bool.not_eq_true', Bool.not_eq_false] at hrefused hmissing
  refine ⟨?_, rfl, fun hlabel => ?_⟩
  · rw [Op.accepted, hrefused, hmissing]
    rfl
  · simpa [hlabel] using hfollows

lemma emitAll_cons (h : emitAll labels (op :: ops) builder = .ok builder') :
    op.accepted labels = true ∧
    (op.isLabel = false → hasTerminator (builder.blocks builder.current) = false) ∧
    emitAll labels ops (builder.put op) = .ok builder' := by
  rw [emitAll] at h
  cases hemit : builder.emit labels op with
  | error message => simp [hemit] at h
  | ok next =>
    rw [hemit] at h
    obtain ⟨haccepted, rfl, hfollows⟩ := emit_ok hemit
    exact ⟨haccepted, hfollows, h⟩

lemma accepted_of_emitAll (h : emitAll labels ops builder = .ok builder') :
    ∀ op ∈ ops, op.accepted labels = true := by
  induction ops generalizing builder with
  | nil => simp
  | cons op ops ih =>
    obtain ⟨haccepted, -, hrest⟩ := emitAll_cons h
    intro op' hop'
    rcases List.mem_cons.mp hop' with rfl | hop'
    · exact haccepted
    · exact ih hrest op' hop'

/-- **What the second pass emits: to the block that it is in, what comes before the next label,
and to the block of each label, what comes after it up to the next.** -/
theorem blocks_emitAll (h : emitAll labels ops builder = .ok builder')
    (hnodup : (labelsOf ops).Nodup) (hcurrent : ∀ id ∈ labelsOf ops, builder.current ≠ some id)
    (hempty : ∀ id ∈ labelsOf ops, builder.blocks (some id) = []) :
    builder'.blocks builder.current = builder.blocks builder.current ++ blockAt ops ∧
    (∀ id ∈ labelsOf ops, ∃ rest, afterLabel ops id = some rest ∧
      builder'.blocks (some id) = blockAt rest) ∧
    (∀ other, other ≠ builder.current → (∀ id ∈ labelsOf ops, other ≠ some id) →
      builder'.blocks other = builder.blocks other) := by
  induction ops generalizing builder with
  | nil =>
    obtain rfl := Except.ok.inj h
    exact ⟨by simp [blockAt], by simp, fun _ _ _ => rfl⟩
  | cons op ops ih =>
    obtain ⟨-, -, hrest⟩ := emitAll_cons h
    cases hlabel : op.isLabel with
    | true =>
      obtain ⟨id, rfl⟩ := Op.eq_label hlabel
      rw [labelsOf_label] at hnodup hcurrent hempty ⊢
      obtain ⟨hid, hnodup⟩ := List.nodup_cons.mp hnodup
      obtain ⟨hblock, hlabels, hothers⟩ := ih hrest hnodup
        (fun id' hid' heq => hid ((Option.some.inj heq) ▸ hid'))
        (fun id' hid' => hempty id' (List.mem_cons_of_mem _ hid'))
      refine ⟨?_, fun id' hid' => ?_, fun other hother hnot => ?_⟩
      · -- nothing more goes to the block that it was in
        rw [blockAt_label, List.append_nil]
        exact hothers builder.current (hcurrent id List.mem_cons_self) fun id' hid' =>
          hcurrent id' (List.mem_cons_of_mem _ hid')
      · by_cases heq : id' = id
        · subst heq
          refine ⟨ops, by simp [afterLabel], ?_⟩
          have hnone := hempty id' List.mem_cons_self
          simp only [put_label] at hblock
          rw [hblock, hnone, List.nil_append]
        · obtain ⟨rest, hafter, hrest'⟩ :=
            hlabels id' ((List.mem_cons.mp hid').resolve_left heq)
          exact ⟨rest, by rw [afterLabel, if_neg (Ne.symm heq), hafter], hrest'⟩
      · exact hothers other (hnot id List.mem_cons_self) fun id' hid' =>
          hnot id' (List.mem_cons_of_mem _ hid')
    | false =>
      rw [labelsOf_cons hlabel] at hnodup hcurrent hempty ⊢
      obtain ⟨hblock, hlabels, hothers⟩ := ih hrest hnodup
        (by rwa [current_put hlabel]) fun id hid => by
          rw [blocks_put hlabel, Function.update_of_ne (Ne.symm (hcurrent id hid))]
          exact hempty id hid
      rw [blocks_put hlabel, current_put hlabel] at hblock
      rw [blocks_put hlabel, current_put hlabel] at hothers
      refine ⟨?_, fun id hid => ?_, fun other hother hnot => ?_⟩
      · rw [hblock, blockAt_cons hlabel, Function.update_self, List.append_assoc]
        rfl
      · rw [afterLabel_cons hlabel]
        exact hlabels id hid
      · rw [hothers other hother hnot, Function.update_of_ne hother]

/-- A block that nothing follows a terminator in. -/
def Straight (block : List Op) : Prop := ∀ op ∈ block.dropLast, op.isTerminator = false

lemma straight_append {block : List Op} (h : Straight block)
    (hopen : hasTerminator block = false) (op : Op) : Straight (block ++ [op]) := by
  intro op' hop'
  rw [List.dropLast_concat] at hop'
  rcases List.eq_nil_or_concat block with rfl | ⟨init, last, rfl⟩
  · simp at hop'
  · have hmem : op' ∈ init ∨ op' = last := by simpa using hop'
    rcases hmem with hinit | rfl
    · exact h op' (by simpa using hinit)
    · simpa [hasTerminator] using hopen

/-- **Nothing follows a terminator in a block of a program that is accepted.** -/
theorem straight_emitAll (h : emitAll labels ops builder = .ok builder')
    (hstraight : ∀ id, Straight (builder.blocks id)) (id : Option ℕ) :
    Straight (builder'.blocks id) := by
  induction ops generalizing builder with
  | nil =>
    obtain rfl := Except.ok.inj h
    exact hstraight id
  | cons op ops ih =>
    obtain ⟨-, hfollows, hrest⟩ := emitAll_cons h
    refine ih hrest fun id' => ?_
    cases hlabel : op.isLabel with
    | true =>
      obtain ⟨id, rfl⟩ := Op.eq_label hlabel
      exact hstraight id'
    | false =>
      rw [blocks_put hlabel]
      by_cases hid : id' = builder.current
      · rw [hid, Function.update_self]
        exact straight_append (hstraight _) (hfollows hlabel) op
      · rw [Function.update_of_ne hid]
        exact hstraight id'

/-! ## Slots -/

lemma le_slotCount_noteSlot (maxSlot : Option ℕ) (slot : ℕ) :
    slotCount maxSlot ≤ slotCount (noteSlot maxSlot slot) ∧
      slot < slotCount (noteSlot maxSlot slot) := by
  cases maxSlot with
  | none => exact ⟨Nat.zero_le _, Nat.lt_succ_self slot⟩
  | some most =>
    simp only [noteSlot, slotCount]
    omega

lemma lt_slotCount_foldl (maxSlot : Option ℕ) (slots : List ℕ) :
    slotCount maxSlot ≤ slotCount (slots.foldl noteSlot maxSlot) ∧
      ∀ slot ∈ slots, slot < slotCount (slots.foldl noteSlot maxSlot) := by
  induction slots generalizing maxSlot with
  | nil => exact ⟨le_refl _, by simp⟩
  | cons slot slots ih =>
    obtain ⟨hle, hlt⟩ := le_slotCount_noteSlot maxSlot slot
    obtain ⟨hle', hlt'⟩ := ih (noteSlot maxSlot slot)
    refine ⟨hle.trans hle', fun slot' hslot' => ?_⟩
    rcases List.mem_cons.mp hslot' with rfl | hslot'
    · exact lt_of_lt_of_le hlt hle'
    · exact hlt' slot' hslot'

/-- **A state with as many slots as are asked for has all that a program reads and writes.** -/
theorem lt_slotCount_emitAll (h : emitAll labels ops builder = .ok builder') :
    slotCount builder.maxSlot ≤ slotCount builder'.maxSlot ∧
      ∀ op ∈ ops, ∀ slot ∈ op.slots, slot < slotCount builder'.maxSlot := by
  induction ops generalizing builder with
  | nil =>
    obtain rfl := Except.ok.inj h
    exact ⟨le_refl _, by simp⟩
  | cons op ops ih =>
    obtain ⟨-, -, hrest⟩ := emitAll_cons h
    obtain ⟨hle, hlt⟩ := ih hrest
    rw [maxSlot_put] at hle
    obtain ⟨hput, hslots⟩ := lt_slotCount_foldl builder.maxSlot op.slots
    refine ⟨hput.trans hle, fun op' hop' slot hslot => ?_⟩
    rcases List.mem_cons.mp hop' with rfl | hop'
    · exact lt_of_lt_of_le (hslots slot hslot) hle
    · exact hlt op' hop' slot hslot

end Builder

/-! ## Programs that are accepted -/

/-- What is known of a program that was compiled: its blocks are those of the list of
operations, and its state has the slots of every operation. -/
structure Compiled (ops : List Op) (program : Program) : Prop where
  accepted : ∀ op ∈ ops, op.accepted (labelsOf ops) = true
  nodup : (labelsOf ops).Nodup
  entry : program.blocks none = blockAt ops
  label : ∀ id ∈ labelsOf ops, ∃ rest, afterLabel ops id = some rest ∧
    program.blocks (some id) = blockAt rest
  others : ∀ id, id ∉ labelsOf ops → program.blocks (some id) = []
  straight : ∀ id, Builder.Straight (program.blocks id)
  entryEnds : hasTerminator (program.blocks none) = true
  labelEnds : ∀ id ∈ labelsOf ops, hasTerminator (program.blocks (some id)) = true
  slots : ∀ op ∈ ops, ∀ slot ∈ op.slots, slot < program.maxSlot

/-- **A program that is accepted is compiled to the blocks of its operations: the entry is
what comes before the first label, the block of a label is what comes after it up to the next,
and each ends with its only terminator.** -/
theorem compiled_of_compile {blockName : List Op → String} {ops : List Op} {program : Program}
    (h : compile blockName ops = .ok program) : Compiled ops program := by
  unfold compile at h
  cases hcollect : collectLabels ops [] with
  | error message => simp [hcollect] at h
  | ok labels =>
    obtain ⟨hlabels, hnodup⟩ := collectLabels_ok hcollect List.nodup_nil
    rw [List.nil_append] at hlabels
    subst hlabels
    simp only [hcollect] at h
    cases hemit : Builder.emitAll (labelsOf ops) ops Builder.start with
    | error message => simp [hemit] at h
    | ok builder =>
      simp only [hemit] at h
      split_ifs at h with hempty hends
      obtain rfl := Except.ok.inj h
      obtain ⟨hentry, hblocks, hothers⟩ := Builder.blocks_emitAll hemit hnodup
        (fun id _ => Option.some_ne_none id ∘ Eq.symm) (fun _ _ => rfl)
      rw [List.all_cons, Bool.and_eq_true, List.all_map, List.all_eq_true] at hends
      refine ⟨Builder.accepted_of_emitAll hemit, hnodup, hentry, hblocks, fun id hid => ?_,
        Builder.straight_emitAll hemit fun _ op hop => absurd hop (List.not_mem_nil),
        hends.1, hends.2, (Builder.lt_slotCount_emitAll hemit).2⟩
      exact hothers (some id) (Option.some_ne_none id) fun id' hid' heq =>
        hid (Option.some.inj heq ▸ hid')

end BapNative.Jit
