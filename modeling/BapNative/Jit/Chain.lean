import BapNative.Jit.ChainData
import BapNative.Jit.Promote
import BapNative.Jit.Runner

/-!
# Chains of ranges

`Chain` of `native/bap_jit.cpp`, and `bap_jit_run_chain`: a run of a range goes on in native code
to the range where it jumped, as Lean would, with what the variables hold by then in its slots,
or, of a range that is optimized with numbers for its variables, in registers.  It goes on while
each range ends with a jump, no observer ran Lean code, there is budget left and a range where
it went whose variables are bound.

An entry remembers where its range went last, whether what it needs was found bound, and whether
what it always writes was said: an entry is where the host has it, and what is remembered of
another is where that is.
-/

namespace BapNative.Jit

open Lockstep PagedMemory

/-- What a chain has of a `Program`: its code, which is called with a state, the registers of the
chain if it is to use them, and cells. -/
structure ChainProgram (W E : Type) where
  function : Homes → Cells W E → Option (BitVec 64 × Homes × Cells W E)
  maxSlot : ℕ
  direct : Bool
  /-- The code writes to slots and registers, of which there are as many as before. -/
  sameSize : ∀ homes cells next homes' cells',
    function homes cells = some (next, homes', cells') →
      homes'.state.length = homes.state.length ∧
      homes'.registers.map List.length = homes.registers.map List.length

/-- `ChainEntry`. -/
structure ChainEntry (P : Type) where
  range : ChainRange P
  executions : ℕ
  optimizeAt : Option ℕ
  /-- Where it went last. -/
  lastNext : BitVec 64
  /-- What is there, by where the host has it. -/
  lastTarget : Option ℕ
  outputsSaid : ℕ
  readyIn : ℕ
  touched : Bool
  runs : ℕ
  executed : ℕ

/-- `Chain`. -/
structure Chain (P : Type) where
  /-- What the host has, by where it is. -/
  nodes : ℕ → Option (ChainEntry P)
  /-- `entries`: where the entry of an address is. -/
  entries : Address → Option ℕ
  /-- Where the next entry will be. -/
  fresh : ℕ
  run : ℕ

/-- `bap_jit_chain_create`. -/
def Chain.new {P : Type} : Chain P := ⟨fun _ => none, fun _ => none, 0, 0⟩

namespace Chain

variable {P W E : Type}

/-- `clear`. -/
def clear (chain : Chain P) : Chain P :=
  { chain with nodes := fun _ => none, entries := fun _ => none }

/-- The entry of an address. -/
def find (chain : Chain P) (pc : Address) : Option (ChainEntry P) :=
  (chain.entries pc).bind chain.nodes

/-- An entry is changed where it is. -/
def modify (chain : Chain P) (node : ℕ) (f : ChainEntry P → ChainEntry P) : Chain P :=
  { chain with nodes := Function.update chain.nodes node ((chain.nodes node).map f) }

/-- `bap_jit_chain_holds`. -/
def holds [DecidableEq P] (chain : Chain P) (pc : Address) (program : P) : Bool :=
  match chain.find pc with
  | some entry => entry.range.program == program
  | none => false

/-- `bap_jit_chain_optimizing`. -/
def optimizing (chain : Chain P) (pc : Address) (executions : BitVec 64) : Chain P :=
  match chain.entries pc with
  | some node => chain.modify node fun entry =>
      { entry with optimizeAt := optional (BitVec.ofNat 64 entry.executions + executions) }
  | none => chain

/-- An entry that goes is looked for again by what went to it. -/
def remove (chain : Chain P) (pc : Address) (node : ℕ) : Chain P :=
  { chain with
    nodes := Function.update
      (fun other => (chain.nodes other).map fun entry => { entry with lastTarget := none }) node
      none
    entries := Function.update chain.entries pc none }

/-- A new entry. -/
def emplace (chain : Chain P) (pc : Address) (entry : ChainEntry P) : Chain P :=
  { chain with
    nodes := Function.update chain.nodes chain.fresh (some entry)
    entries := Function.update chain.entries pc (some chain.fresh)
    fresh := chain.fresh + 1 }

/-- The entry of what was read. -/
def entryOf (programs : P → ChainProgram W E) (program : P) (id : BitVec 64)
    (data : ChainData) : ChainEntry P where
  range := data.range program id (programs program).direct
  executions := data.executions.toNat
  optimizeAt := optional data.optimizeAt
  lastNext := BitVec.allOnes 64
  lastTarget := none
  outputsSaid := 0
  readyIn := 0
  touched := false
  runs := 0
  executed := 0

/-- `bap_jit_chain_add`. -/
def add (programs : P → ChainProgram W E) (chain : Chain P) (pc : Address) (id : BitVec 64)
    (program : P) (words : List (BitVec 64)) : Except String (Chain P) :=
  match ChainData.read words (programs program).maxSlot with
  | .error message => .error message
  | .ok data =>
    let chain :=
      match chain.entries pc with
      | some node => chain.remove pc node
      | none => chain
    .ok (chain.emplace pc (entryOf programs program id data))

end Chain

/-! ## The variables between ranges -/

/-- The variables between ranges: what they hold, whether they are bound (1) or were written (2),
and those that were written. -/
structure Variables where
  registers : List (BitVec 64)
  bound : List ℕ
  dirty : List ℕ

/-- `std::vector::resize`. -/
def resize {α : Type} (list : List α) (size : ℕ) (value : α) : List α :=
  list.take size ++ List.replicate (size - list.length) value

/-- A write to a place of a vector, which is undefined if there is no such place. -/
def put {α : Type} (list : List α) (index : ℕ) (value : α) : Option (List α) :=
  if index < list.length then some (list.set index value) else none

namespace Variables

/-- `ensure`, whose new size is a word. -/
def ensure (vars : Variables) (var : ℕ) : Variables :=
  if vars.registers.length ≤ var then
    { vars with
      registers := resize vars.registers ((var + 1) % 2 ^ 64) 0
      bound := resize vars.bound ((var + 1) % 2 ^ 64) 0 }
  else vars

/-- A variable as it is at the start. -/
def bind (vars : Variables) (binding : BitVec 64 × BitVec 64) : Option Variables := do
  let vars := vars.ensure binding.1.toNat
  let registers ← put vars.registers binding.1.toNat binding.2
  let bound ← put vars.bound binding.1.toNat 1
  return { vars with registers := registers, bound := bound }

/-- The variables at the start. -/
def start (variableCount : BitVec 64) (bindings : List (BitVec 64 × BitVec 64)) :
    Option Variables :=
  let vars : Variables := ⟨[], [], []⟩
  let vars := if variableCount ≠ 0 then vars.ensure (variableCount.toNat - 1) else vars
  bindings.foldlM bind vars

/-- Whether a variable is bound. -/
def isBound (vars : Variables) (var : ℕ) : Bool := vars.bound.getD var 0 != 0

/-- What a variable holds, if it is to be another value. -/
def hold (vars : Variables) (var : ℕ) (value : Option (BitVec 64)) :
    Option (List (BitVec 64)) :=
  match value with
  | some value => put vars.registers var value
  | none => some vars.registers

/-- A variable was written, and holds a value if it has one for it. -/
def write (vars : Variables) (var : ℕ) (value : Option (BitVec 64)) : Option Variables := do
  let vars := vars.ensure var
  let registers ← vars.hold var value
  let mark ← vars.bound[var]?
  let bound ← put vars.bound var 2
  return ⟨registers, bound, if mark ≠ 2 then vars.dirty ++ [var] else vars.dirty⟩

/-- What is said of a variable that was written: its number and what it holds. -/
def said (vars : Variables) (var : ℕ) : Option (List (BitVec 64)) := do
  return [BitVec.ofNat 64 var, ← vars.registers[var]?]

end Variables

/-- A value cut to a width. -/
def cut (width : ℕ) (value : BitVec 64) : BitVec 64 :=
  if width < 64 then value &&& ((1#64 <<< width) - 1) else value

/-- Whether a run reached an output, as its flag says. -/
def Output.reached (output : Output) (state : List (BitVec 64)) : Option Bool :=
  match output.flag with
  | some flag => do return (← state[flag]?) != 0
  | none => some true

/-- `written`, of one output. -/
def Output.take (output : Output) (state : List (BitVec 64)) (copy : Bool) (vars : Variables) :
    Option Variables := do
  if ← output.reached state then
    let value ← if copy then do pure (some (cut output.width (← state[output.slot]?)))
      else pure none
    vars.write output.var value
  else return vars

/-- `written`, of some of the outputs. -/
def takeAll (outputs : List Output) (state : List (BitVec 64)) (copy : Bool)
    (vars : Variables) : Option Variables :=
  outputs.foldlM (fun vars output => output.take state copy vars) vars

/-- `outputsAt`. -/
def ChainRange.outputsAt {P : Type} (range : ChainRange P) (pc : BitVec 64) : List Output :=
  (range.checkpoints pc).getD range.outputs

/-- Whether the outputs at an address are those of the range, and not of a checkpoint. -/
def ChainRange.isPlainAt {P : Type} (range : ChainRange P) (pc : BitVec 64) : Bool :=
  (range.checkpoints pc).isNone

/-! ## A run -/

/-- What `bap_jit_run_chain` has in its loop. -/
structure ChainRun (W E P : Type) where
  chain : Chain P
  vars : Variables
  /-- Where the entry of the range is. -/
  current : ℕ
  first : Bool
  touched : List ℕ
  state : List (BitVec 64)
  spare : List (BitVec 64)
  budget : ℕ
  chained : ℕ
  cells : Cells W E
  next : BitVec 64

/-- A slot of a state, if there is one for it. -/
def slotOr (state : List (BitVec 64)) (slot : Option ℕ) (value : BitVec 64) :
    Option (BitVec 64) :=
  match slot with
  | some slot => state[slot]?
  | none => some value

/-- What is to be counted of a run of a range with so much budget, of which so much is left. -/
def ranChained (budget : ℕ) (left : BitVec 64) : ℕ :=
  if left.toNat ≤ budget then budget - left.toNat else 0

/-- How often a run executed a range: Lean counted the entry of the first already. -/
def executedOf (first : Bool) (ran : ℕ) : ℕ := (if first then 0 else 1) + ran

/-- Whether a run leaves its loop after a range: it ended with no jump, an observer ran Lean code,
or there is no budget. -/
def leavesAfter {P : Type} (range : ChainRange P) (effect : BitVec 64) (leanRan : Bool)
    (remaining : ℕ) : Bool :=
  effect ≠ 1 || leanRan || range.budgetSlot.isNone || decide (remaining < 1)

/-- Whether an entry that ran so often isn't gone on to, as it is to be optimized. -/
def toOptimize (optimizeAt : Option ℕ) (executions : ℕ) : Bool :=
  match optimizeAt with
  | some bound => decide (bound ≤ (executions + 1) % 2 ^ 64)
  | none => false

/-- The budget of the next range, which comes back by when it is to be optimized. -/
def nextBudget (optimizeAt : Option ℕ) (executions remaining : ℕ) : ℕ :=
  match optimizeAt with
  | some bound => min (remaining - 1) (bound - (executions + 1) % 2 ^ 64)
  | none => remaining - 1

/-- A value is put in a slot, if there is to be one for it. -/
def putSlot (state : List (BitVec 64)) (slot : Option ℕ) (value : BitVec 64) :
    Option (List (BitVec 64)) :=
  match slot with
  | some slot => put state slot value
  | none => some state

/-- What a variable holds is put in its slot, if it is bound. -/
def putVariable (vars : Variables) (state : List (BitVec 64)) (binding : ℕ × ℕ) :
    Option (List (BitVec 64)) := do
  if vars.isBound binding.1 then put state binding.2 (← vars.registers[binding.1]?)
  else return state

/-- What the variables hold is put in the slots of a range, unless it has registers. -/
def layOut {P : Type} (range : ChainRange P) (vars : Variables) (state : List (BitVec 64)) :
    Option (List (BitVec 64)) :=
  if range.direct then some state else range.layout.foldlM (putVariable vars) state

/-- The slots that a range starts with, and the rest as they may be. -/
def enterSlots {P : Type} (range : ChainRange P) (vars : Variables) (budget : ℕ)
    (spare : List (BitVec 64)) : Option (List (BitVec 64)) := do
  let state := resize spare range.slotCount 0
  let state ← range.zeroed.foldlM (fun state slot => put state slot 0) state
  let state ← layOut range vars state
  let state ← putSlot state range.budgetSlot (BitVec.ofNat 64 budget)
  putSlot state range.observedSlot 0

/-- A run of an entry is counted. -/
def ChainEntry.count {P : Type} (executed : ℕ) (entry : ChainEntry P) : ChainEntry P :=
  { entry with
    executions := (entry.executions + executed) % 2 ^ 64
    touched := true
    runs := entry.runs + 1
    executed := entry.executed + executed }

namespace ChainRun

variable {W E P : Type}

/-- The call of the code of a range. -/
def call (programs : P → ChainProgram W E) (range : ChainRange P) (s : ChainRun W E P) :
    Option (ChainRun W E P) := do
  let homes : Homes := ⟨s.state, if range.direct then some s.vars.registers else none⟩
  let (next, homes, cells) ← (programs range.program).function homes
    { s.cells with pendingSite := false }
  return { s with
    state := homes.state
    vars := { s.vars with registers := homes.registers.getD s.vars.registers }
    cells := cells
    next := next }

/-- `written` of a range with registers, which says what it always writes once a run. -/
def sayWritten (range : ChainRange P) (s : ChainRun W E P) : Option (ChainRun W E P) := do
  let entry ← s.chain.nodes s.current
  if range.isPlainAt s.next then
    -- `run` was counted when this run began, so that no other run has said them for it
    let outputs := if entry.outputsSaid = s.chain.run then range.flagged else range.outputs
    let vars ← takeAll outputs s.state false s.vars
    return { s with
      vars := vars
      chain := s.chain.modify s.current fun entry => { entry with outputsSaid := s.chain.run } }
  else
    return { s with vars := ← takeAll (range.outputsAt s.next) s.state false s.vars }

/-- `written` of a range without, which copies what it wrote. -/
def copyWritten (range : ChainRange P) (s : ChainRun W E P) : Option (ChainRun W E P) := do
  return { s with vars := ← takeAll (range.outputsAt s.next) s.state true s.vars }

/-- What is said of a range when it has run: the variables that one with registers wrote. -/
def said (range : ChainRange P) (s : ChainRun W E P) : Option (ChainRun W E P) :=
  if range.direct then s.sayWritten range else some s

/-- What is taken of a range that is gone on from: the variables that one without wrote. -/
def copied (range : ChainRange P) (s : ChainRun W E P) : Option (ChainRun W E P) :=
  if range.direct then some s else s.copyWritten range

/-- What is counted of a run of a range. -/
def count (executed : ℕ) (s : ChainRun W E P) : Option (ChainRun W E P) := do
  let entry ← s.chain.nodes s.current
  return { s with
    first := false
    touched := if entry.touched then s.touched else s.touched ++ [s.current]
    chain := s.chain.modify s.current (ChainEntry.count executed) }

/-- Where the entry is that the range went to, which is remembered. -/
def findTarget (s : ChainRun W E P) : Option (Option ℕ × ChainRun W E P) := do
  let entry ← s.chain.nodes s.current
  -- where it went last, which a chain that loses an entry forgets of all of them
  match if entry.lastNext = s.next then entry.lastTarget else none with
  | some target => return (some target, s)
  | none =>
    match s.chain.entries s.next with
    | none => return (none, s)
    | some target =>
      return (some target, { s with
        chain := s.chain.modify s.current fun entry =>
          { entry with lastNext := s.next, lastTarget := some target } })

/-- Whether what an entry needs is bound, which is remembered if it is. -/
def ready (target : ℕ) (s : ChainRun W E P) : Option (Bool × ChainRun W E P) := do
  let entry ← s.chain.nodes target
  if entry.readyIn = s.chain.run then return (true, s)
  else if entry.range.required.all s.vars.isBound then
    return (true, { s with
      chain := s.chain.modify target fun entry => { entry with readyIn := s.chain.run } })
  else return (false, s)

/-- The run goes on with an entry. -/
def goOn (target : ℕ) (ran : ℕ) (s : ChainRun W E P) : Option (ChainRun W E P) := do
  let entry ← s.chain.nodes target
  let budget := nextBudget entry.optimizeAt entry.executions (s.budget - ran)
  return { s with
    chained := s.chained + ran + 1
    budget := budget
    state := ← enterSlots entry.range s.vars budget s.spare
    spare := s.state
    current := target }

/-- What comes after the range went to an entry: it goes on with it, or leaves the loop. -/
def goTo (range : ChainRange P) (target : ℕ) (ran : ℕ) (s : ChainRun W E P) :
    Option (ChainRun W E P ⊕ ChainRun W E P) := do
  let entry ← s.chain.nodes target
  if toOptimize entry.optimizeAt entry.executions then return .inr s
  -- only now, as the slots of the last range go back to Lean
  let s ← s.copied range
  match ← s.ready target with
  | (false, s) => return .inr s
  | (true, s) => return .inl (← s.goOn target ran)

/-- What comes after a range that ran: it goes on to another, or leaves the loop. -/
def goFrom (range : ChainRange P) (effect : BitVec 64) (ran : ℕ) (s : ChainRun W E P) :
    Option (ChainRun W E P ⊕ ChainRun W E P) := do
  if leavesAfter range effect s.cells.leanRan (s.budget - ran) then return .inr s
  match ← s.findTarget with
  | (none, s) => return .inr s
  | (some target, s) => s.goTo range target ran

/-- The body of the loop of `bap_jit_run_chain`: it goes on with another range, or leaves. -/
def step (programs : P → ChainProgram W E) (s : ChainRun W E P) :
    Option (ChainRun W E P ⊕ ChainRun W E P) := do
  let entry ← s.chain.nodes s.current
  let range := entry.range
  let s ← s.call programs range
  -- a range that failed is not counted
  if s.cells.error.isSome then return .inr s
  let s ← s.said range
  let effect ← slotOr s.state range.effectSlot 0
  let left ← slotOr s.state range.budgetSlot (BitVec.ofNat 64 s.budget)
  let ran := ranChained s.budget left
  let s ← s.count (executedOf s.first ran)
  s.goFrom range effect ran

end ChainRun

/-! ## The whole call -/

/-- What a run of a chain gives back. -/
structure ChainResult where
  next : BitVec 64
  state : List (BitVec 64)
  addresses : List Address
  values : List Byte
  info : List (BitVec 64)

/-- What is there after it. -/
structure ChainAfter (W E P : Type) where
  chain : Chain P
  world : W
  pages : PagedMemory
  filter : Option MemoryFilter
  result : Except E ChainResult

section Run

variable {W E P : Type}

/-- What `bap_jit_run_chain` is called with. -/
structure ChainCall (W P : Type) where
  program : P
  world : W
  filter : MemoryFilter
  state : List (BitVec 64)
  pages : PagedMemory
  firstId : BitVec 64
  firstPc : Address
  firstBudget : BitVec 64
  /-- `variablesObject` and `valuesObject`. -/
  bindings : List (BitVec 64 × BitVec 64)
  variableCount : BitVec 64

/-- What is wrong with a call that is to start with a range, if anything is. -/
def ChainCall.problem [DecidableEq P] (call : ChainCall W P) (range : ChainRange P) :
    Option String :=
  if range.id ≠ call.firstId || range.program ≠ call.program then
    some "JIT chain does not start at a range of the chain"
  else if call.state.length < range.slotCount then
    some "JIT state has fewer slots than its program requires"
  else none

/-- The run before its loop, or what is wrong with the call. -/
def ChainCall.start [DecidableEq P] (call : ChainCall W P) (chain : Chain P) :
    Option (Except String (ChainRun W E P)) := do
  let vars ← Variables.start call.variableCount call.bindings
  match chain.entries call.firstPc, chain.find call.firstPc with
  | some node, some entry =>
    match call.problem entry.range with
    | some message => return .error message
    | none =>
      return .ok {
        chain := { chain with run := chain.run + 1 }
        vars := vars
        current := node
        first := true
        touched := []
        state := call.state
        spare := []
        budget := call.firstBudget.toNat
        chained := 0
        cells := Cells.start call.world (some call.filter) call.pages
        next := 0 }
  | _, _ => return .error "JIT chain does not start at a range of the chain"

/-- What a run did of an entry is said. -/
def ChainEntry.rest (entry : ChainEntry P) : ChainEntry P :=
  { entry with touched := false, runs := 0, executed := 0 }

/-- What a run that failed did of an entry is taken back. -/
def ChainEntry.takeBack (entry : ChainEntry P) : ChainEntry P :=
  { entry with executions := entry.executions - min entry.executions entry.executed }.rest

/-- What is to be said of an entry: its number, its runs and its executions. -/
def ChainEntry.ran (entry : ChainEntry P) : List (BitVec 64) :=
  [entry.range.id, BitVec.ofNat 64 entry.runs, BitVec.ofNat 64 entry.executed]

/-- Some entries are changed. -/
def Chain.modifyAll (chain : Chain P) (nodes : List ℕ) (f : ChainEntry P → ChainEntry P) :
    Chain P :=
  nodes.foldl (fun chain node => chain.modify node f) chain

namespace ChainRun

/-- The blocks that were entered after the first of all. -/
def entered (range : ChainRange P) (s : ChainRun W E P) : Option ℕ := do
  match range.budgetSlot with
  | some slot => return s.chained + ranChained s.budget (← s.state[slot]?)
  | none => return s.chained

/-- `info`. -/
def info (range : ChainRange P) (s : ChainRun W E P) : Option (List (BitVec 64)) := do
  let entered ← s.entered range
  let written ← s.vars.dirty.mapM s.vars.said
  let entries ← s.touched.mapM s.chain.nodes
  return [range.id, BitVec.ofNat 64 entered, if range.direct then 1 else 0,
      BitVec.ofNat 64 s.vars.dirty.length] ++ written.flatten ++
    [BitVec.ofNat 64 s.touched.length] ++ entries.flatMap ChainEntry.ran

/-- What `bap_jit_run_chain` does after its loop. -/
def finish (order : LogOrder) (s : ChainRun W E P) : Option (ChainAfter W E P) := do
  let cells := s.cells
  let changed := cells.changes.forEach (order cells.changes)
  let pages := noteChanges cells.pages changed
  match cells.error with
  | some error =>
    return ⟨s.chain.modifyAll s.touched ChainEntry.takeBack, cells.world, pages, cells.filter,
      .error error⟩
  | none =>
    let entry ← s.chain.nodes s.current
    let addresses ← fillArray cells.changes.count (changed.map Prod.fst)
    let values ← fillArray cells.changes.count (changed.map Prod.snd)
    let info ← s.info entry.range
    return ⟨s.chain.modifyAll s.touched ChainEntry.rest, cells.world, pages, cells.filter,
      .ok ⟨s.next, s.state, addresses, values, info⟩⟩

end ChainRun

/-- `bap_jit_run_chain`, for so many ranges. -/
def runChain [DecidableEq P] (userError : String → E) (order : LogOrder)
    (programs : P → ChainProgram W E) (call : ChainCall W P) (chain : Chain P) (fuel : ℕ) :
    Option (ChainRun W E P ⊕ ChainAfter W E P) :=
  match call.start chain with
  | none => none
  | some (.error message) =>
    some (.inr ⟨chain, call.world, call.pages, some call.filter, .error (userError message)⟩)
  | some (.ok s) =>
    match run (ChainRun.step programs) fuel s with
    | none => none
    | some (.inl s) => some (.inl s)
    | some (.inr s) => (s.finish order).map .inr

end Run

/-! ## What is known of the variables -/

namespace Variables

/-- What the variables hold and whether they are bound go together. -/
def Even (vars : Variables) : Prop := vars.registers.length = vars.bound.length

/-- Whether a variable is bound (1), or was written (2). -/
def mark (vars : Variables) (var : ℕ) : ℕ := vars.bound.getD var 0

/-- What a variable holds. -/
def value (vars : Variables) (var : ℕ) : BitVec 64 := vars.registers.getD var 0

lemma getD_resize {α : Type} {list : List α} {size : ℕ} (h : list.length ≤ size) (value : α)
    (index : ℕ) : (resize list size value).getD index value = list.getD index value := by
  rw [resize, List.take_of_length_le h]
  by_cases hindex : index < list.length
  · simp [List.getD, List.getElem?_append_left hindex]
  · rw [List.getD_eq_default list value (Nat.not_lt.mp hindex), List.getD,
      List.getElem?_append_right (Nat.not_lt.mp hindex)]
    by_cases hlast : index - list.length < size - list.length <;> simp [hlast]

lemma length_resize {α : Type} (list : List α) (size : ℕ) (value : α) :
    (resize list size value).length = size := by
  simp only [resize, List.length_append, List.length_take, List.length_replicate]
  omega

lemma put_eq_some_iff {α : Type} {list list' : List α} {index : ℕ} {value : α} :
    put list index value = some list' ↔ index < list.length ∧ list.set index value = list' := by
  rw [put, Option.ite_none_right_eq_some, Option.some_inj]

lemma getD_set {α : Type} {list : List α} {index : ℕ} (h : index < list.length)
    (value default : α) (other : ℕ) :
    (list.set index value).getD other default =
      if other = index then value else list.getD other default := by
  simp only [List.getD, List.getElem?_set]
  by_cases hsame : index = other
  · simp [hsame, hsame ▸ h]
  · simp [hsame, Ne.symm hsame]

variable {vars vars' : Variables}

/-- A variable for which there is room has it once `ensure` was called, unless its number is the
last that there is. -/
lemma Even.lt_ensure (h : vars.Even) {var : ℕ} (hvar : var + 1 < 2 ^ 64) :
    var < (vars.ensure var).bound.length := by
  have hlength : vars.registers.length = vars.bound.length := h
  rw [Variables.ensure]
  split_ifs with hsmall
  · rw [length_resize, Nat.mod_eq_of_lt hvar]
    exact Nat.lt_succ_self var
  · omega

/-- `ensure` only adds variables that are unbound, where it makes room for one. -/
lemma Even.ensure (h : vars.Even) {var : ℕ} (hvar : var < (vars.ensure var).bound.length) :
    (vars.ensure var).Even ∧ (vars.ensure var).mark = vars.mark ∧
      (vars.ensure var).value = vars.value ∧ (vars.ensure var).dirty = vars.dirty ∧
      vars.registers.length ≤ (vars.ensure var).registers.length := by
  have hlength : vars.registers.length = vars.bound.length := h
  rw [Variables.ensure] at hvar ⊢
  split_ifs at hvar ⊢ with hsmall
  · rw [length_resize] at hvar
    refine ⟨?_, funext fun other => ?_, funext fun other => ?_, rfl, ?_⟩
    · simp [Even, length_resize]
    · exact getD_resize (by omega) 0 other
    · exact getD_resize (by omega) 0 other
    · rw [length_resize]
      omega
  · exact ⟨h, rfl, rfl, rfl, le_rfl⟩

/-- **What writing a variable does.** -/
theorem Even.write (h : vars.Even) {var : ℕ} {value : Option (BitVec 64)}
    (hwrite : vars.write var value = some vars') :
    vars'.Even ∧ vars'.mark = Function.update vars.mark var 2 ∧
      vars'.value = Function.update vars.value var (value.getD (vars.value var)) ∧
      vars'.dirty = (if vars.mark var = 2 then vars.dirty else vars.dirty ++ [var]) ∧
      vars.registers.length ≤ vars'.registers.length := by
  simp only [Variables.write, Option.bind_eq_bind, Option.bind_eq_some_iff] at hwrite
  obtain ⟨registers, hregisters, mark', hmark', bound, hbound, hsome⟩ := hwrite
  obtain rfl := Option.some.inj hsome
  obtain ⟨hlt, rfl⟩ := put_eq_some_iff.mp hbound
  obtain ⟨heven, hmark, hvalue, hdirty, hle⟩ := h.ensure hlt
  have hlt' : var < (vars.ensure var).registers.length := by rw [heven]; exact hlt
  have hbefore : mark' = vars.mark var := by
    rw [← hmark, Variables.mark, List.getD_eq_getElem?_getD, hmark', Option.getD_some]
  have hvalues : registers.length = (vars.ensure var).registers.length ∧
      (fun other => registers.getD other 0) =
        Function.update vars.value var (value.getD (vars.value var)) := by
    cases value with
    | none =>
      obtain rfl := Option.some.inj hregisters
      exact ⟨rfl, hvalue.trans (Function.update_eq_self var vars.value).symm⟩
    | some new =>
      obtain ⟨-, rfl⟩ := put_eq_some_iff.mp hregisters
      refine ⟨List.length_set, funext fun other => ?_⟩
      rw [getD_set hlt', ← Variables.value, hvalue, Function.update_apply]
      rfl
  refine ⟨?_, funext fun other => ?_, hvalues.2, ?_, hle.trans hvalues.1.ge⟩
  · simpa [Even, hvalues.1] using heven
  · simp only [mark, getD_set hlt]
    rw [← mark, hmark, Function.update_apply]
  · simp only [hbefore, hdirty]
    by_cases htwo : vars.mark var = 2 <;> simp [htwo]

/-- A variable can be written, unless its number is the last that there is. -/
lemma Even.write_isSome (h : vars.Even) {var : ℕ} (hvar : var + 1 < 2 ^ 64)
    (value : Option (BitVec 64)) : ∃ vars', vars.write var value = some vars' := by
  have hlt := h.lt_ensure hvar
  have hlt' : var < (vars.ensure var).registers.length := by rw [(h.ensure hlt).1]; exact hlt
  cases value with
  | none => simp [Variables.write, hold, put, hlt]
  | some value => simp [Variables.write, hold, put, hlt, hlt']

end Variables

end BapNative.Jit
