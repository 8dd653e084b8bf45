import BapNative.Jit.Cells
import BapNative.Jit.Compile
import BapNative.Lib.Lockstep

/-!
# Running a program

What the code of a program does, block by block: its state is a vector, an access outside of
which is undefined, as is all that LLVM leaves so, and its memory is `Cells`.  Over it is what
a program is to do, as `nextCfgAt` of `Bap/Proofs/Jit.lean` has it: it goes through the list of
its operations, with a slot for each number, and the flat memory.

The code of a program that was compiled runs in lockstep with its operations, if its state has
as many slots as the program requires: it is never undefined, it returns if and only if they
do, and it leaves what they leave.
-/

namespace BapNative.Jit

open Llvm Lockstep PagedMemory

variable {W E : Type} (setup : Setup W E)

/-- How an operation comes out: the run goes on with the next one, or at a label, or returns. -/
inductive Exit (S : Type) where
  | next (s : S)
  | goto (id : ℕ) (s : S)
  | ret (value : BitVec 64) (s : S)

/-! ## What is emitted -/

/-- What the code of a program is called with. -/
structure Native (W E : Type) where
  state : List (BitVec 64)
  cells : Cells W E

namespace Native

/-- `load`. -/
def load (native : Native W E) (slot : ℕ) : Option (BitVec 64) := native.state[slot]?

/-- `store`. -/
def store (native : Native W E) (slot : ℕ) (value : BitVec 64) : Option (Native W E) :=
  if slot < native.state.length then some { native with state := native.state.set slot value }
  else none

/-- What is emitted for an operation. -/
def execute (native : Native W E) : Op → Option (Exit (Native W E))
  | .set dst immediate => do
    return .next (← native.store dst immediate)
  | .move dst src => do
    return .next (← native.store dst (← native.load src))
  | .add dst src immediate => do
    return .next (← native.store dst ((← native.load src) + immediate))
  | .jump target => return .ret target native
  | .jumpSlot src => do
    return .ret (← native.load src) native
  | .bin op dst left right => do
    let value ← emitBin op (← native.load left) (← native.load right)
    return .next (← native.store dst value)
  | .andImm dst src immediate => do
    return .next (← native.store dst ((← native.load src) &&& immediate))
  | .signExtend width dst src => do
    let value ← emitSignExtend width (← native.load src)
    return .next (← native.store dst value)
  | .select dst condition yes no => do
    let value := select (icmp .ne (← native.load condition) 0#64) (← native.load yes)
      (← native.load no)
    return .next (← native.store dst value)
  | .neg dst src => do
    return .next (← native.store dst (-(← native.load src)))
  | .not dst src => do
    return .next (← native.store dst (~~~(← native.load src)))
  | .ashr width dst left right => do
    let amount ← native.load right
    let value ← emitAshr width (← native.load left) amount
    return .next (← native.store dst value)
  | .label _ => none -- it only names a block, in which it isn't
  | .goto id => return .goto id native
  | .branch condition yes no => do
    return .goto (if icmp .ne (← native.load condition) 0#64 then yes else no) native
  | .memLoad dst address size bigEndian => do
    let base ← native.load address
    let (value, cells) := native.cells.memLoad setup base size bigEndian
    return .next (← { native with cells := cells }.store dst value)
  | .memStore address value size bigEndian => do
    let base ← native.load address
    let stored ← native.load value
    return .next { native with cells := native.cells.memStore setup base stored size bigEndian }
  | .code effectSlot pc => do
    let (stop, cells) := native.cells.code setup pc
    let native := { native with cells := cells }
    if stop then return .ret pc (← native.store effectSlot 3)
    else return .next native

end Native

/-- A step of the code of a program, from what is left of a block.  It is undefined where
nothing is. -/
def Program.step (program : Program) :
    List Op × Native W E → Option ((List Op × Native W E) ⊕ (BitVec 64 × Native W E))
  | ([], _) => none
  | (op :: rest, native) =>
    match native.execute setup op with
    | none => none
    | some (.next native) => some (.inl (rest, native))
    | some (.goto id native) => some (.inl (program.blocks (some id), native))
    | some (.ret value native) => some (.inr (value, native))

/-! ## What an operation is to do -/

/-- A machine of slots and the flat memory. -/
structure Machine (W E : Type) where
  slots : ℕ → BitVec 64
  flat : Flat W E

namespace Machine

/-- A slot is written. -/
def write (machine : Machine W E) (slot : ℕ) (value : BitVec 64) : Machine W E :=
  { machine with slots := Function.update machine.slots slot value }

/-- What an operation is to do. -/
noncomputable def denote (machine : Machine W E) : Op → Exit (Machine W E)
  | .set dst immediate => .next (machine.write dst immediate)
  | .move dst src => .next (machine.write dst (machine.slots src))
  | .add dst src immediate => .next (machine.write dst (machine.slots src + immediate))
  | .jump target => .ret target machine
  | .jumpSlot src => .ret (machine.slots src) machine
  | .bin op dst left right =>
    .next (machine.write dst (denoteBin op (machine.slots left) (machine.slots right)))
  | .andImm dst src immediate => .next (machine.write dst (machine.slots src &&& immediate))
  | .signExtend width dst src =>
    .next (machine.write dst (denoteSignExtend width (machine.slots src)))
  | .select dst condition yes no =>
    .next (machine.write dst
      (if machine.slots condition ≠ 0 then machine.slots yes else machine.slots no))
  | .neg dst src => .next (machine.write dst (-(machine.slots src)))
  | .not dst src => .next (machine.write dst (~~~(machine.slots src)))
  | .ashr width dst left right =>
    .next (machine.write dst (denoteAshr width (machine.slots left) (machine.slots right)))
  | .label _ => .next machine
  | .goto id => .goto id machine
  | .branch condition yes no => .goto (if machine.slots condition ≠ 0 then yes else no) machine
  | .memLoad dst address size bigEndian =>
    let (value, flat) := machine.flat.load setup (machine.slots address) size bigEndian
    .next ({ machine with flat := flat }.write dst value)
  | .memStore address value size bigEndian =>
    .next { machine with
      flat := machine.flat.store setup (machine.slots address) (machine.slots value) size
        bigEndian }
  | .code effectSlot pc =>
    -- a site that stops the run leaves 3 in the slot that it names
    let (stop, flat) := machine.flat.code setup pc
    let machine := { machine with flat := flat }
    if stop then .ret pc (machine.write effectSlot 3) else .next machine

end Machine

/-- A step through the operations of a program, as `nextCfgAt`. -/
noncomputable def nextCfg (ops : List Op) :
    List Op × Machine W E → Option ((List Op × Machine W E) ⊕ (BitVec 64 × Machine W E))
  | ([], _) => none
  | (op :: rest, machine) =>
    match machine.denote setup op with
    | .next machine => some (.inl (rest, machine))
    | .goto id machine => (afterLabel ops id).map fun rest => .inl (rest, machine)
    | .ret value machine => some (.inr (value, machine))

/-! ## One operation -/

/-- The code and the machine agree: in the slots that the state has, and in the memory, and
the code owes what it does to the step of the memory that it started with. -/
structure Agrees (count : ℕ) (start : PagedMemory) (native : Native W E)
    (machine : Machine W E) : Prop where
  state : native.state = (List.range count).map machine.slots
  inv : native.cells.Inv setup
  abs : native.cells.abs = machine.flat
  owes : native.cells.Owes start

/-- Two operations come out alike. -/
inductive Exit.Rel {S S' : Type} (P : S → S' → Prop) : Exit S → Exit S' → Prop
  | next {s : S} {s' : S'} (h : P s s') : Rel P (.next s) (.next s')
  | goto (id : ℕ) {s : S} {s' : S'} (h : P s s') : Rel P (.goto id s) (.goto id s')
  | ret (value : BitVec 64) {s : S} {s' : S'} (h : P s s') : Rel P (.ret value s) (.ret value s')

variable {setup} {count : ℕ} {start : PagedMemory} {native : Native W E} {machine : Machine W E}

lemma set_map_range (slots : ℕ → BitVec 64) (count slot : ℕ) (value : BitVec 64) :
    ((List.range count).map slots).set slot value =
      (List.range count).map (Function.update slots slot value) := by
  refine List.ext_getElem (by simp) fun i hi hi' => ?_
  rw [List.getElem_set, List.getElem_map, List.getElem_map, List.getElem_range]
  by_cases h : slot = i
  · rw [if_pos h, h, Function.update_self]
  · rw [if_neg h, Function.update_of_ne (Ne.symm h)]

namespace Agrees

lemma load (h : Agrees setup count start native machine) {slot : ℕ} (hslot : slot < count) :
    native.load slot = some (machine.slots slot) := by
  simp [Native.load, h.state, hslot]

lemma store (h : Agrees setup count start native machine) {slot : ℕ} (hslot : slot < count)
    (value : BitVec 64) : ∃ native', native.store slot value = some native' ∧
      Agrees setup count start native' (machine.write slot value) := by
  refine ⟨_, if_pos (by simpa [h.state] using hslot), ?_, h.inv, h.abs, h.owes⟩
  rw [h.state, set_map_range]
  rfl

/-- What is done to the memory alone. -/
lemma memory (h : Agrees setup count start native machine) {cells : Cells W E} {flat : Flat W E}
    (hrefines : Cells.Refines setup native.cells cells flat) :
    Agrees setup count start { native with cells := cells } { machine with flat := flat } :=
  ⟨h.state, hrefines.inv, hrefines.abs, hrefines.owes start h.owes⟩

/-- A slot is written, and the run goes on. -/
lemma next_store (h : Agrees setup count start native machine) {slot : ℕ} (hslot : slot < count)
    (value : BitVec 64) :
    ∃ exit, (do return .next (← native.store slot value)) = some exit ∧
      Exit.Rel (Agrees setup count start) exit (.next (machine.write slot value)) := by
  obtain ⟨native', hstore, hagrees⟩ := h.store hslot value
  exact ⟨.next native', by rw [hstore]; rfl, .next hagrees⟩

/-- A code site, which stops the run or not. -/
lemma next_code (h : Agrees setup count start native machine) {effectSlot : ℕ}
    (hslot : effectSlot < count) (pc : Address) :
    ∃ exit, native.execute setup (.code effectSlot pc) = some exit ∧
      Exit.Rel (Agrees setup count start) exit (machine.denote setup (.code effectSlot pc)) := by
  obtain ⟨hstop, hrefines⟩ := h.inv.refines_code pc
  rw [h.abs] at hstop hrefines
  have hagrees := h.memory hrefines
  simp only [Native.execute, Machine.denote, ← hstop]
  cases (native.cells.code setup pc).1 with
  | true =>
    obtain ⟨native', hstore, hagrees'⟩ := hagrees.store hslot 3
    exact ⟨.ret pc native', by rw [if_pos rfl, hstore]; rfl, .ret pc hagrees'⟩
  | false => exact ⟨_, rfl, .next hagrees⟩

/-- **What is emitted for an operation does what the operation is to do.** -/
theorem execute (h : Agrees setup count start native machine) {op : Op} {labels : List ℕ}
    (haccepted : op.accepted labels = true) (hlabel : op.isLabel = false)
    (hslots : ∀ slot ∈ op.slots, slot < count) :
    ∃ exit, native.execute setup op = some exit ∧
      Exit.Rel (Agrees setup count start) exit (machine.denote setup op) := by
  have hsized : op.sized = true := by
    simp only [Op.accepted, Bool.and_eq_true] at haccepted
    exact haccepted.1.2
  rw [← List.forall_iff_forall_mem] at hslots
  cases op with
  | set dst immediate => exact h.next_store hslots immediate
  | move dst src =>
    obtain ⟨hdst, hsrc⟩ := hslots
    simp only [Native.execute, h.load hsrc]
    exact h.next_store hdst _
  | add dst src immediate =>
    obtain ⟨hdst, hsrc⟩ := hslots
    simp only [Native.execute, h.load hsrc]
    exact h.next_store hdst _
  | jump target => exact ⟨.ret target native, rfl, .ret target h⟩
  | jumpSlot src =>
    simp only [Native.execute, h.load hslots]
    exact ⟨_, rfl, .ret _ h⟩
  | bin op dst left right =>
    obtain ⟨hdst, hleft, hright⟩ := hslots
    simp only [Native.execute, h.load hleft, h.load hright, Option.bind_eq_bind,
      Option.bind_some, emitBin_eq]
    exact h.next_store hdst _
  | andImm dst src immediate =>
    obtain ⟨hdst, hsrc⟩ := hslots
    simp only [Native.execute, h.load hsrc]
    exact h.next_store hdst _
  | signExtend width dst src =>
    obtain ⟨hdst, hsrc⟩ := hslots
    simp only [Op.sized, Bool.and_eq_true, bne_iff_ne] at hsized
    simp only [Native.execute, h.load hsrc, Option.bind_eq_bind, Option.bind_some,
      emitSignExtend_eq (Nat.pos_of_ne_zero hsized.1)]
    exact h.next_store hdst _
  | select dst condition yes no =>
    obtain ⟨hdst, hcondition, hyes, hno⟩ := hslots
    simp only [Native.execute, h.load hcondition, h.load hyes, h.load hno, Option.bind_eq_bind,
      Option.bind_some, select_ne_zero]
    exact h.next_store hdst _
  | neg dst src =>
    obtain ⟨hdst, hsrc⟩ := hslots
    simp only [Native.execute, h.load hsrc]
    exact h.next_store hdst _
  | not dst src =>
    obtain ⟨hdst, hsrc⟩ := hslots
    simp only [Native.execute, h.load hsrc]
    exact h.next_store hdst _
  | ashr width dst left right =>
    obtain ⟨hdst, hleft, hright⟩ := hslots
    simp only [Op.sized, Bool.and_eq_true, bne_iff_ne, decide_eq_true_eq] at hsized
    simp only [Native.execute, h.load hleft, h.load hright, Option.bind_eq_bind,
      Option.bind_some, emitAshr_eq (Nat.pos_of_ne_zero hsized.1) hsized.2]
    exact h.next_store hdst _
  | label id => simp [Op.isLabel] at hlabel
  | goto id => exact ⟨.goto id native, rfl, .goto id h⟩
  | branch condition yes no =>
    simp only [Native.execute, Machine.denote, h.load hslots, Option.bind_eq_bind,
      Option.bind_some, icmp_ne_zero]
    exact ⟨_, rfl, .goto _ h⟩
  | memLoad dst address size bigEndian =>
    obtain ⟨hdst, haddress⟩ := hslots
    simp only [Op.sized, Bool.and_eq_true, bne_iff_ne, decide_eq_true_eq] at hsized
    obtain ⟨hvalue, hrefines⟩ := h.inv.refines_memLoad (machine.slots address)
      (Nat.pos_of_ne_zero hsized.1) hsized.2 bigEndian
    rw [h.abs] at hvalue hrefines
    simp only [Native.execute, Machine.denote, h.load haddress, Option.bind_eq_bind,
      Option.bind_some, hvalue]
    exact (h.memory hrefines).next_store hdst _
  | memStore address value size bigEndian =>
    obtain ⟨haddress, hvalue⟩ := hslots
    simp only [Op.sized, Bool.and_eq_true, bne_iff_ne, decide_eq_true_eq] at hsized
    have hrefines := h.inv.refines_memStore (machine.slots address) (machine.slots value)
      (Nat.pos_of_ne_zero hsized.1) hsized.2 bigEndian
    rw [h.abs] at hrefines
    simp only [Native.execute, h.load haddress, h.load hvalue, Option.bind_eq_bind,
      Option.bind_some]
    exact ⟨_, rfl, .next (h.memory hrefines)⟩
  | code effectSlot pc => exact h.next_code hslots pc

end Agrees

/-! ## Where a run is -/

lemma isTerminator_of_next {op : Op} {machine' : Machine W E}
    (h : machine.denote setup op = .next machine') : op.isTerminator = false := by
  cases op <;> first | rfl | simp [Machine.denote] at h

lemma mem_targets_of_goto {op : Op} {id : ℕ} {machine' : Machine W E}
    (h : machine.denote setup op = .goto id machine') : id ∈ op.targets := by
  cases op with
  | goto id' =>
    obtain ⟨rfl, -⟩ : id' = id ∧ machine = machine' := by simpa [Machine.denote] using h
    exact List.mem_singleton_self id'
  | branch condition yes no =>
    simp only [Machine.denote, Exit.goto.injEq] at h
    obtain ⟨rfl, -⟩ := h
    split_ifs <;> simp [Op.targets]
  | code effectSlot pc =>
    simp only [Machine.denote] at h
    split_ifs at h
  | _ => simp [Machine.denote] at h

lemma mem_of_afterLabel {ops rest : List Op} {id : ℕ} (h : afterLabel ops id = some rest)
    {op : Op} (hop : op ∈ rest) : op ∈ ops := by
  induction ops with
  | nil => simp [afterLabel] at h
  | cons first ops ih =>
    cases hlabel : first.isLabel with
    | true =>
      obtain ⟨id', rfl⟩ := Op.eq_label hlabel
      rw [afterLabel] at h
      split_ifs at h with hid
      · obtain rfl := Option.some.inj h
        exact List.mem_cons_of_mem _ hop
      · exact List.mem_cons_of_mem _ (ih h)
    | false =>
      rw [afterLabel_cons hlabel] at h
      exact List.mem_cons_of_mem _ (ih h)

lemma mem_of_mem_blockAt {ops : List Op} {op : Op} (h : op ∈ blockAt ops) : op ∈ ops :=
  (List.takeWhile_sublist _).subset h

/-- The code is in what is left of the block that the operations are in. -/
structure At (ops : List Op) (point : List Op × Native W E) (cfg : List Op × Machine W E) :
    Prop where
  block : point.1 = blockAt cfg.1
  straight : Builder.Straight point.1
  ends : hasTerminator point.1 = true
  within : ∀ op ∈ cfg.1, op ∈ ops

/-- It is in the next operation, which isn't a label. -/
lemma At.exists_cons {ops : List Op} {point : List Op × Native W E} {cfg : List Op × Machine W E}
    (h : At ops point cfg) : ∃ op rest, cfg.1 = op :: rest ∧ op.isLabel = false ∧
      point.1 = op :: blockAt rest := by
  obtain ⟨hblock, -, hends, -⟩ := h
  cases hcfg : cfg.1 with
  | nil =>
    rw [hblock, hcfg] at hends
    simp [blockAt, hasTerminator] at hends
  | cons op rest =>
    cases hlabel : op.isLabel with
    | true =>
      obtain ⟨id, rfl⟩ := Op.eq_label hlabel
      rw [hblock, hcfg] at hends
      simp [hasTerminator] at hends
    | false => exact ⟨op, rest, rfl, hlabel, by rw [hblock, hcfg, blockAt_cons hlabel]⟩

/-- After an operation that doesn't end its block, something of the block is left. -/
lemma hasTerminator_tail {op : Op} {block : List Op} (hop : op.isTerminator = false)
    (h : hasTerminator (op :: block) = true) : hasTerminator block = true := by
  cases block with
  | nil => simp [hasTerminator, hop] at h
  | cons op' block => simpa [hasTerminator, List.getLast?_cons_cons] using h

lemma straight_tail {op : Op} {block : List Op} (h : Builder.Straight (op :: block)) :
    Builder.Straight block := by
  intro op' hop'
  refine h op' ?_
  cases block with
  | nil => simp at hop'
  | cons first block => exact List.mem_cons_of_mem _ hop'

/-! ## Runs -/

/-- What is so of the code and the operations at every step. -/
def InStep (setup : Setup W E) (ops : List Op) (count : ℕ) (start : PagedMemory)
    (point : List Op × Native W E) (cfg : List Op × Machine W E) : Prop :=
  At ops point cfg ∧ Agrees setup count start point.2 cfg.2

/-- What is so of them when they return. -/
def SameReturn (setup : Setup W E) (count : ℕ) (start : PagedMemory)
    (result : BitVec 64 × Native W E) (result' : BitVec 64 × Machine W E) : Prop :=
  result.1 = result'.1 ∧ Agrees setup count start result.2 result'.2

variable {ops : List Op} {program : Program}

/-- The code of a label is where the operations go. -/
lemma Compiled.at_label (h : Compiled ops program) {id : ℕ} (hid : id ∈ labelsOf ops)
    (native : Native W E) (machine : Machine W E) :
    ∃ rest, afterLabel ops id = some rest ∧
      At ops (program.blocks (some id), native) (rest, machine) := by
  obtain ⟨rest, hafter, hblock⟩ := h.label id hid
  exact ⟨rest, hafter, hblock, h.straight _, h.labelEnds id hid, fun _ =>
    mem_of_afterLabel hafter⟩

/-- **A step of the code of a compiled program is one through its operations.** -/
theorem Compiled.both_step (h : Compiled ops program) (hcount : program.maxSlot ≤ count)
    (point : List Op × Native W E) (cfg : List Op × Machine W E)
    (hin : InStep setup ops count start point cfg) :
    Both (InStep setup ops count start) (SameReturn setup count start)
      (program.step setup point) (nextCfg setup ops cfg) := by
  obtain ⟨hat, hagrees⟩ := hin
  obtain ⟨op, rest, hcfg, hlabel, hpoint⟩ := hat.exists_cons
  obtain ⟨-, hstraight, hends, hwithin⟩ := hat
  obtain ⟨left, native⟩ := point
  obtain ⟨rest', machine⟩ := cfg
  obtain rfl : rest' = op :: rest := hcfg
  obtain rfl : left = op :: blockAt rest := hpoint
  have hop : op ∈ ops := hwithin op List.mem_cons_self
  obtain ⟨exit, hexecute, hexit⟩ := hagrees.execute (h.accepted op hop) hlabel
    fun slot hslot => lt_of_lt_of_le (h.slots op hop slot hslot) hcount
  simp only [Program.step, nextCfg, hexecute]
  generalize hdenote : machine.denote setup op = exit' at hexit
  cases hexit with
  | next hnext =>
    have hopen := isTerminator_of_next hdenote
    exact both_inl ⟨⟨rfl, straight_tail hstraight, hasTerminator_tail hopen hends,
      fun op' hop' => hwithin op' (List.mem_cons_of_mem _ hop')⟩, hnext⟩
  | goto id hnext =>
    have hid : id ∈ labelsOf ops := by
      have haccepted := h.accepted op hop
      simp only [Op.accepted, Bool.and_eq_true, List.all_eq_true, decide_eq_true_eq]
        at haccepted
      exact haccepted.2 id (mem_targets_of_goto hdenote)
    obtain ⟨target, hafter, hat⟩ := h.at_label hid _ _
    simp only [hafter, Option.map_some]
    exact both_inl ⟨hat, hnext⟩
  | ret value hnext => exact both_inr ⟨rfl, hnext⟩

/-- **The code of a compiled program runs as its operations are to.**  It is never undefined,
and returns if and only if they do. -/
theorem Compiled.both_run (h : Compiled ops program) (hcount : program.maxSlot ≤ count)
    (hagrees : Agrees setup count start native machine) (fuel : ℕ) :
    Both (InStep setup ops count start) (SameReturn setup count start)
      (run (program.step setup) fuel (program.blocks none, native))
      (run (nextCfg setup ops) fuel (ops, machine)) :=
  Lockstep.both_run (h.both_step hcount) fuel
    ⟨⟨h.entry, h.straight none, h.entryEnds, fun _ => id⟩, hagrees⟩

end BapNative.Jit
