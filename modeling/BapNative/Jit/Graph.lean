import BapNative.Jit.Execute

/-!
# Programs as graphs

What is optimized is a graph of blocks, each with how it ends: that of a program, whose blocks
are those of its labels, and what is made of it.  A graph runs on a state and cells as the code
of a program does, and the graph of a compiled program does what its code does.
-/

namespace BapNative.Jit

open Llvm Lockstep PagedMemory

/-- How a block ends. -/
inductive Terminator (N : Type) where
  | ret (value : BitVec 64)
  | retSlot (src : ℕ)
  | br (target : N)
  | condBr (condition : ℕ) (yes no : N)
  /-- A branch by whether a slot has at least so much. -/
  | budgetBr (slot : ℕ) (least : BitVec 64) (yes no : N)
  /-- A switch by a slot. -/
  | switch (slot : ℕ) (cases : List (BitVec 64 × N)) (default : N)
  | unreachable
deriving DecidableEq

/-- A block. -/
structure BasicBlock (N : Type) where
  body : List Op
  exit : Terminator N

/-- A function, by its blocks. -/
structure Graph (N : Type) where
  entry : N
  block : N → BasicBlock N

variable {W E N : Type} (setup : Setup W E)

namespace Graph

/-- Where a block goes when it ends, or what it returns. -/
def leave (graph : Graph N) (native : Native W E) :
    Terminator N → Option ((BasicBlock N × Native W E) ⊕ (BitVec 64 × Native W E))
  | .ret value => return .inr (value, native)
  | .retSlot src => do return .inr (← native.load src, native)
  | .br target => return .inl (graph.block target, native)
  | .condBr condition yes no => do
    let target := if icmp .ne (← native.load condition) 0#64 then yes else no
    return .inl (graph.block target, native)
  | .budgetBr slot least yes no => do
    let target := if icmp .uge (← native.load slot) least then yes else no
    return .inl (graph.block target, native)
  | .switch slot cases default => do
    let selected ← native.load slot
    let target := ((cases.find? fun case => case.1 == selected).map Prod.snd).getD default
    return .inl (graph.block target, native)
  | .unreachable => none

/-- A step of the code of a graph, from what is left of a block. -/
def step (graph : Graph N) :
    BasicBlock N × Native W E → Option ((BasicBlock N × Native W E) ⊕ (BitVec 64 × Native W E))
  | (⟨[], exit⟩, native) => graph.leave native exit
  | (⟨op :: body, exit⟩, native) =>
    match native.execute setup op with
    | some (.next native) => some (.inl (⟨body, exit⟩, native))
    | some (.ret value native) => some (.inr (value, native))
    | some (.goto _ _) | none => none

/-- The start of a graph. -/
def start (graph : Graph N) (native : Native W E) : BasicBlock N × Native W E :=
  (graph.block graph.entry, native)

end Graph

namespace Graph

variable {setup} {graph : Graph N} {native native' : Native W E} {op : Op} {body : List Op}
  {exit : Terminator N}

lemma step_next (h : native.execute setup op = some (.next native')) :
    graph.step setup (⟨op :: body, exit⟩, native) = some (.inl (⟨body, exit⟩, native')) := by
  rw [step, h]

lemma step_ret {value : BitVec 64} (h : native.execute setup op = some (.ret value native')) :
    graph.step setup (⟨op :: body, exit⟩, native) = some (.inr (value, native')) := by
  rw [step, h]

/-- An operation within a block goes on or returns. -/
lemma step_cons {y : (BasicBlock N × Native W E) ⊕ (BitVec 64 × Native W E)}
    (h : graph.step setup (⟨op :: body, exit⟩, native) = some y) :
    (∃ native', native.execute setup op = some (.next native') ∧
      y = .inl (⟨body, exit⟩, native')) ∨
    ∃ value native', native.execute setup op = some (.ret value native') ∧
      y = .inr (value, native') := by
  rw [step] at h
  rcases hexecute : native.execute setup op with _ | native' | ⟨id, native'⟩ | ⟨value, native'⟩
  · simp [hexecute] at h
  · exact Or.inl ⟨native', rfl, by simpa [hexecute] using h.symm⟩
  · simp [hexecute] at h
  · exact Or.inr ⟨value, native', rfl, by simpa [hexecute] using h.symm⟩

end Graph

/-! ## The graph of a program -/

/-- How a block ends that has an operation last. -/
def Op.terminator : Op → Terminator (Option ℕ)
  | .jump target => .ret target
  | .jumpSlot src => .retSlot src
  | .goto id => .br (some id)
  | .branch condition yes no => .condBr condition (some yes) (some no)
  | _ => .unreachable

/-- The block of operations of which the last ends it. -/
def BasicBlock.ofOps (ops : List Op) : BasicBlock (Option ℕ) where
  body := ops.dropLast
  exit := (ops.getLast?.map Op.terminator).getD .unreachable

/-- The graph of a program. -/
def Program.graph (program : Program) : Graph (Option ℕ) where
  entry := none
  block := fun id => BasicBlock.ofOps (program.blocks id)

variable {setup}

lemma BasicBlock.ofOps_cons {op : Op} {ops : List Op} (h : ops ≠ []) :
    BasicBlock.ofOps (op :: ops) =
      ⟨op :: (BasicBlock.ofOps ops).body, (BasicBlock.ofOps ops).exit⟩ := by
  obtain ⟨first, rest, rfl⟩ := List.exists_cons_of_ne_nil h
  simp [BasicBlock.ofOps, List.getLast?_cons_cons]

/-- What is left of a block of a program, as one of its graph. -/
def toBlock (point : List Op × Native W E) : BasicBlock (Option ℕ) × Native W E :=
  (BasicBlock.ofOps point.1, point.2)

/-- An operation that doesn't end its block goes to no label. -/
lemma execute_ne_goto {op : Op} (h : op.isTerminator = false) (native : Native W E) (id : ℕ)
    (native' : Native W E) : native.execute setup op ≠ some (.goto id native') := by
  intro heq
  cases op with
  | goto | branch => simp [Op.isTerminator] at h
  | code effectSlot pc =>
    simp only [Native.execute] at heq
    split_ifs at heq
    · simp [Option.bind_eq_some_iff] at heq
    · simp at heq
  | _ => simp [Native.execute, Option.bind_eq_some_iff] at heq

/-- An operation that ends its block does what its block does at its end. -/
lemma leave_terminator (program : Program) {op : Op} (h : op.isTerminator = true)
    (native : Native W E) :
    (program.step setup ([op], native)).map (Sum.map toBlock id) =
      program.graph.leave native op.terminator := by
  cases op with
  | jump | goto => rfl
  | jumpSlot src =>
    simp only [Program.step, Native.execute, Op.terminator, Graph.leave]
    cases native.load src <;> rfl
  | branch condition yes no =>
    simp only [Program.step, Native.execute, Op.terminator, Graph.leave]
    cases native.load condition with
    | none => rfl
    | some value => by_cases hvalue : icmp .ne value 0#64 <;> simp [hvalue, toBlock, Program.graph]
  | _ => simp [Op.isTerminator] at h

/-- **A step of the code of a program is one of its graph.** -/
theorem step_toBlock (program : Program) {point : List Op × Native W E}
    (hstraight : Builder.Straight point.1) (hends : hasTerminator point.1 = true) :
    (program.step setup point).map (Sum.map toBlock id) =
      program.graph.step setup (toBlock point) := by
  obtain ⟨rest, native⟩ := point
  rcases rest with _ | ⟨op, _ | ⟨next, more⟩⟩
  · simp [hasTerminator] at hends
  · exact leave_terminator program (by simpa [hasTerminator] using hends) native
  · have hop : op.isTerminator = false := hstraight op (by simp)
    have hblock : toBlock (op :: next :: more, native) =
        (⟨op :: (BasicBlock.ofOps (next :: more)).body,
          (BasicBlock.ofOps (next :: more)).exit⟩, native) :=
      congrArg (·, native) (BasicBlock.ofOps_cons (List.cons_ne_nil _ _))
    rw [hblock]
    simp only [Program.step, Graph.step]
    rcases hexecute : native.execute setup op with _ | native' | ⟨id, native'⟩ | ⟨value, native'⟩
    · rfl
    · rfl
    · exact absurd hexecute (execute_ne_goto hop native id native')
    · rfl

/-! ## The graph of a compiled program -/

variable {ops : List Op} {program : Program} {count : ℕ} {start : PagedMemory}

/-- What is so of a graph and the operations at every step. -/
def GraphInStep (setup : Setup W E) (ops : List Op) (count : ℕ) (start : PagedMemory)
    (point : BasicBlock (Option ℕ) × Native W E) (cfg : List Op × Machine W E) : Prop :=
  ∃ rest, point.1 = BasicBlock.ofOps rest ∧ InStep setup ops count start (rest, point.2) cfg

lemma Compiled.both_graph_step (h : Compiled ops program) (hcount : program.maxSlot ≤ count)
    (point : BasicBlock (Option ℕ) × Native W E) (cfg : List Op × Machine W E)
    (hin : GraphInStep setup ops count start point cfg) :
    Both (GraphInStep setup ops count start) (SameReturn setup count start)
      (program.graph.step setup point) (nextCfg setup ops cfg) := by
  obtain ⟨block, native⟩ := point
  obtain ⟨rest, hblock, hin⟩ := hin
  obtain rfl : block = BasicBlock.ofOps rest := hblock
  obtain ⟨x, y, hx, hy, hrel⟩ := h.both_step hcount _ _ hin
  have hgraph : (program.step setup (rest, native)).map (Sum.map toBlock id) = _ :=
    step_toBlock program hin.1.straight hin.1.ends
  rw [hx] at hgraph
  refine ⟨_, y, hgraph.symm, hy, ?_⟩
  cases hrel with
  | inl hnext => exact .inl ⟨_, rfl, hnext⟩
  | inr hreturn => exact .inr hreturn

/-- **The graph of a compiled program runs as its operations are to.** -/
theorem Compiled.both_graph_run (h : Compiled ops program) (hcount : program.maxSlot ≤ count)
    {native : Native W E} {machine : Machine W E}
    (hagrees : Agrees setup count start native machine) (fuel : ℕ) :
    Both (GraphInStep setup ops count start) (SameReturn setup count start)
      (run (program.graph.step setup) fuel (program.graph.start native))
      (run (nextCfg setup ops) fuel (ops, machine)) :=
  Lockstep.both_run (h.both_graph_step hcount) fuel
    ⟨program.blocks none, rfl, ⟨h.entry, h.straight none, h.entryEnds, fun _ => id⟩, hagrees⟩

/-! ## What an operation writes -/

/-- The slot that an operation writes and goes on. -/
def Op.writes : Op → Option ℕ
  | .set dst _ | .move dst _ | .add dst _ _ | .bin _ dst _ _ | .andImm dst _ _
  | .signExtend _ dst _ | .select dst _ _ _ | .neg dst _ | .not dst _ | .ashr _ dst _ _
  | .memLoad dst _ _ _ => some dst
  | .jump _ | .jumpSlot _ | .label _ | .goto _ | .branch _ _ _ | .memStore _ _ _ _
  | .code _ _ => none

lemma Native.store_eq {native native' : Native W E} {slot : ℕ} {value : BitVec 64}
    (h : native.store slot value = some native') :
    native' = { native with state := native.state.set slot value } := by
  rw [Native.store] at h
  split_ifs at h
  exact (Option.some.inj h).symm

/-- What writes a slot and goes on. -/
lemma Native.next_store_eq {native native' : Native W E} {slot : ℕ} {value : BitVec 64}
    (h : (do return Exit.next (← native.store slot value)) = some (.next native')) :
    native' = ⟨native.state.set slot value, native.cells⟩ := by
  obtain ⟨next, hstore, hnext⟩ := Option.bind_eq_some_iff.mp h
  obtain rfl : next = native' := by simpa using hnext
  exact store_eq hstore

/-- An operation that goes on writes its slot at most. -/
lemma Native.execute_next {native native' : Native W E} {op : Op}
    (h : native.execute setup op = some (.next native')) :
    ∃ cells, (op.writes = none ∧ native' = { native with cells := cells }) ∨
      ∃ dst value, op.writes = some dst ∧
        native' = ⟨native.state.set dst value, cells⟩ := by
  cases op with
  | jump | jumpSlot | label | goto | branch =>
    simp [Native.execute, Option.bind_eq_some_iff] at h
  | memStore address value size bigEndian =>
    obtain ⟨base, -, h⟩ := Option.bind_eq_some_iff.mp h
    obtain ⟨stored, -, h⟩ := Option.bind_eq_some_iff.mp h
    exact ⟨_, Or.inl ⟨rfl, (Exit.next.inj (Option.some.inj h)).symm⟩⟩
  | code effectSlot pc =>
    simp only [Native.execute] at h
    split_ifs at h
    · simp [Option.bind_eq_some_iff] at h
    · exact ⟨_, Or.inl ⟨rfl, (Exit.next.inj (Option.some.inj h)).symm⟩⟩
  | set dst => exact ⟨_, Or.inr ⟨dst, _, rfl, next_store_eq h⟩⟩
  | move dst | add dst | andImm dst | neg dst | not dst =>
    obtain ⟨_, -, h⟩ := Option.bind_eq_some_iff.mp h
    exact ⟨_, Or.inr ⟨dst, _, rfl, next_store_eq h⟩⟩
  | memLoad dst address size bigEndian =>
    obtain ⟨base, -, h⟩ := Option.bind_eq_some_iff.mp h
    exact ⟨(native.cells.memLoad setup base size bigEndian).2,
      Or.inr ⟨dst, _, rfl, next_store_eq h⟩⟩
  | signExtend width dst =>
    obtain ⟨_, -, h⟩ := Option.bind_eq_some_iff.mp h
    obtain ⟨_, -, h⟩ := Option.bind_eq_some_iff.mp h
    exact ⟨_, Or.inr ⟨dst, _, rfl, next_store_eq h⟩⟩
  | bin op dst | select dst | ashr width dst =>
    obtain ⟨_, -, h⟩ := Option.bind_eq_some_iff.mp h
    obtain ⟨_, -, h⟩ := Option.bind_eq_some_iff.mp h
    obtain ⟨_, -, h⟩ := Option.bind_eq_some_iff.mp h
    exact ⟨_, Or.inr ⟨dst, _, rfl, next_store_eq h⟩⟩

lemma Native.length_execute {native native' : Native W E} {op : Op}
    (h : native.execute setup op = some (.next native')) :
    native'.state.length = native.state.length := by
  obtain ⟨cells, ⟨-, rfl⟩ | ⟨dst, value, -, rfl⟩⟩ := execute_next h
  · rfl
  · exact List.length_set

/-- A slot that an operation doesn't write is as it was. -/
lemma Native.load_execute {native native' : Native W E} {op : Op}
    (h : native.execute setup op = some (.next native')) {slot : ℕ}
    (hslot : op.writes ≠ some slot) : native'.load slot = native.load slot := by
  obtain ⟨cells, ⟨-, rfl⟩ | ⟨dst, value, hdst, rfl⟩⟩ := execute_next h
  · rfl
  · exact List.getElem?_set_ne fun hsame => hslot (by rw [hdst, hsame])

end BapNative.Jit
