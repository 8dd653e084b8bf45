import BapNative.Jit.ChainCode
import BapNative.Jit.Sessions

/-!
# Histories of a chain

What Lean does with a chain, in whichever order: it puts ranges in it, also over others, says that
one is being optimized, asks what is at an address, clears it and runs it.  Whatever was done
before, a chain answers as a map of its ranges would whose runs are turns.  It never comes to an
entry that is gone, or to a slot or a register that is not there, and its runs come to an end.
-/

namespace BapNative.Jit

open Lockstep PagedMemory

variable {W E P : Type} [DecidableEq P]

/-- What can be done with a chain. -/
inductive ChainUse (W P : Type) where
  | clear
  | holds (pc : Address) (program : P)
  | optimizing (pc : Address) (executions : BitVec 64)
  | add (pc : Address) (id : BitVec 64) (program : P) (words : List (BitVec 64))
  | run (call : ChainCall W P)

/-- What it answers. -/
inductive ChainAnswer (W E : Type) where
  | done
  | held (answer : Bool)
  | refused (message : String)
  | ran (world : W) (pages : PagedMemory) (filter : Option MemoryFilter)
      (result : Except E ChainResult)

section Use

variable (userError : String → E) (order : LogOrder) (programs : P → ChainProgram W E)

/-- A chain is used.  A run has as many turns as its budget allows. -/
def Chain.use (chain : Chain P) : ChainUse W P → Option (ChainAnswer W E × Chain P)
  | .clear => some (.done, chain.clear)
  | .holds pc program => some (.held (chain.holds pc program), chain)
  | .optimizing pc executions => some (.done, chain.optimizing pc executions)
  | .add pc id program words =>
    match chain.add programs pc id program words with
    | .ok chain => some (.done, chain)
    | .error message => some (.refused message, chain)
  | .run call =>
    match runChain userError order programs call chain (call.firstBudget.toNat + 1) with
    | some (.inr after) =>
      some (.ran after.world after.pages after.filter after.result, after.chain)
    | _ => none

/-- A map of ranges is used so. -/
def useRanges (ranges : Address → Option (Ranged P)) :
    ChainUse W P → Option (ChainAnswer W E × (Address → Option (Ranged P)))
  | .clear => some (.done, fun _ => none)
  | .holds pc program =>
    some (.held ((ranges pc).any fun ranged => ranged.range.program == program), ranges)
  | .optimizing pc executions => some (.done, Function.update ranges pc ((ranges pc).map
      fun ranged => { ranged with
        optimizeAt := optional (BitVec.ofNat 64 ranged.executions + executions) }))
  | .add pc id program words =>
    match ChainData.read words (programs program).maxSlot with
    | .ok data => some (.done, Function.update ranges pc
        (some ⟨data.range program id (programs program).direct, data.executions.toNat,
          optional data.optimizeAt⟩))
    | .error message => some (.refused message, ranges)
  | .run call =>
    match runTurns userError order programs call ranges (call.firstBudget.toNat + 1) with
    | some (.inr after) =>
      some (.ran after.world after.pages after.filter after.result, after.ranges)
    | _ => none

variable {programs}

lemma Chain.holds_eq (chain : Chain P) (pc : Address) (program : P) :
    chain.holds pc program =
      (chain.ranges pc).any fun ranged => ranged.range.program == program := by
  rw [Chain.holds, Chain.ranges]
  cases chain.find pc with
  | none => rfl
  | some entry => rfl

/-- A chain answers as the map of its ranges, of which it stays one. -/
lemma Chain.Coherent.rel_use {chain : Chain P} (h : chain.Coherent programs)
    (request : ChainUse W P) :
    Option.Rel (fun x y => x.1 = y.1 ∧ x.2.Coherent programs ∧ x.2.ranges = y.2)
      (chain.use userError order programs request)
      (useRanges userError order programs chain.ranges request) := by
  cases request with
  | clear => exact .some ⟨rfl, Chain.coherent_clear chain, rfl⟩
  | holds pc program => exact .some ⟨congrArg _ (chain.holds_eq pc program), h, rfl⟩
  | optimizing pc executions =>
    obtain ⟨hcoherent, hranges⟩ := h.optimizing pc executions
    exact .some ⟨rfl, hcoherent, hranges⟩
  | add pc id program words =>
    have hadd := h.add pc id program words
    rw [Chain.use, useRanges]
    cases hread : ChainData.read words (programs program).maxSlot with
    | error message =>
      simp only [hread] at hadd
      rw [hadd]
      exact .some ⟨rfl, h, rfl⟩
    | ok data =>
      simp only [hread] at hadd
      obtain ⟨chain', hadd, hcoherent, hranges⟩ := hadd
      rw [hadd]
      exact .some ⟨rfl, hcoherent, hranges⟩
  | run call =>
    have hrun := h.rel_runChain userError order call (call.firstBudget.toNat + 1)
    rw [Chain.use, useRanges]
    revert hrun
    generalize runChain userError order programs call chain _ = a
    generalize runTurns userError order programs call chain.ranges _ = b
    rintro (hrel | -)
    · rcases hrel with _ | hafter
      · exact .none
      · refine .some ⟨?_, hafter.coherent, hafter.ranges⟩
        simp only [hafter.world, hafter.pages, hafter.filter, hafter.result]
    · exact .none

/-- Chains of the same ranges answer the same, whatever they remember. -/
lemma Chain.Coherent.answers_eq {chain : Chain P} (h : chain.Coherent programs)
    (requests : List (ChainUse W P)) :
    answers (Chain.use userError order programs) chain requests =
      answers (useRanges userError order programs) chain.ranges requests := by
  refine Lockstep.answers_eq
    (P := fun chain ranges => chain.Coherent programs ∧ chain.ranges = ranges) ?_ ⟨h, rfl⟩ requests
  rintro chain ranges request ⟨hcoherent, rfl⟩
  exact hcoherent.rel_use userError order request

/-- **A chain answers as a map of ranges whose runs are turns.**  Whatever was put in it, replaced,
cleared and run before, in whichever order, nothing that it remembers can be told from what it
says, of the ranges, the memory, the slots or the counts. -/
theorem chain_answers (userError : String → E) (order : LogOrder)
    (programs : P → ChainProgram W E) (requests : List (ChainUse W P)) :
    answers (Chain.use userError order programs) Chain.new requests =
      answers (useRanges userError order programs) (fun _ => none) requests :=
  Chain.coherent_new.answers_eq userError order requests

/-- The chains that there are. -/
inductive Chain.Reached (userError : String → E) (order : LogOrder)
    (programs : P → ChainProgram W E) : Chain P → Prop
  | new : Reached userError order programs Chain.new
  | use {chain chain' : Chain P} {request : ChainUse W P} {answer : ChainAnswer W E}
      (h : Reached userError order programs chain)
      (huse : chain.use userError order programs request = some (answer, chain')) :
      Reached userError order programs chain'

variable {userError order}

lemma Chain.Reached.coherent {chain : Chain P} (h : chain.Reached userError order programs) :
    chain.Coherent programs := by
  induction h with
  | new => exact Chain.coherent_new
  | @use chain chain' request answer _ huse ih =>
    have hrel := ih.rel_use userError order request
    rw [huse] at hrel
    generalize useRanges userError order programs chain.ranges request = y at hrel
    cases hrel with
    | some hsame => exact hsame.2.1

/-- A run of a chain is one of turns through its ranges. -/
lemma Chain.Coherent.turns_of_run {chain chain' : Chain P} (h : chain.Coherent programs)
    {call : ChainCall W P} {world : W} {pages : PagedMemory} {filter : Option MemoryFilter}
    {result : Except E ChainResult}
    (hrun : chain.use userError order programs (.run call) =
      some (.ran world pages filter result, chain')) :
    ∃ after, runTurns userError order programs call chain.ranges (call.firstBudget.toNat + 1) =
        some (.inr after) ∧
      after.result = result ∧ chain'.Coherent programs ∧ chain'.ranges = after.ranges := by
  have hrel := h.rel_use userError order (.run call)
  rw [hrun, useRanges] at hrel
  cases hturns : runTurns userError order programs call chain.ranges
    (call.firstBudget.toNat + 1) with
  | none => simp [hturns] at hrel
  | some x =>
    rcases x with t | after
    · simp [hturns] at hrel
    simp only [hturns] at hrel
    cases hrel with
    | some hsame =>
      obtain ⟨hanswer, hcoherent, hranges⟩ := hsame
      obtain ⟨-, -, -, hresult⟩ := ChainAnswer.ran.inj hanswer
      exact ⟨after, rfl, hresult.symm, hcoherent, hranges⟩

/-- **A run of a chain that failed fails it all.**  Whatever the chain is asked for from then on,
it answers as if there had been no such run, unless a count of executions could have come to
2 ^ 64 in it. -/
theorem answers_of_failed {chain chain' : Chain P}
    (hreached : chain.Reached userError order programs) {call : ChainCall W P} {world : W}
    {pages : PagedMemory} {filter : Option MemoryFilter} {error : E}
    (hrun : chain.use userError order programs (.run call) =
      some (.ran world pages filter (.error error), chain'))
    (hcounts : ∀ pc ranged, chain.ranges pc = some ranged →
      ranged.executions + call.firstBudget.toNat < 2 ^ 64) (requests : List (ChainUse W P)) :
    answers (Chain.use userError order programs) chain' requests =
      answers (Chain.use userError order programs) chain requests := by
  have hcoherent := hreached.coherent
  obtain ⟨after, hturns, herror, hcoherent', hranges⟩ := hcoherent.turns_of_run hrun
  have hback := ranges_of_failed hcoherent.rangesFit (Nat.lt_succ_self _) hturns herror hcounts
  rw [hcoherent'.answers_eq, hcoherent.answers_eq, hranges, hback]

/-- A run has all the numbers that there are of variables, of which it binds none of the last
number, and a memory that is one. -/
structure ChainCall.WellFormed (variableCount : ℕ) (call : ChainCall W P) : Prop where
  variableCount : variableCount ≤ call.variableCount.toNat
  bindings : ∀ binding ∈ call.bindings, binding.1.toNat + 1 < 2 ^ 64
  pages : call.pages.WellFormed

/-- No range that is added has a variable of the last number, and runs are as they are to be. -/
def ChainUse.WellFormed (variableCount : ℕ) : ChainUse W P → Prop
  | .add _ _ _ words => ∀ data, ChainData.codec.decodeAll words = some data → data.Numbered
  | .run call => call.WellFormed variableCount
  | _ => True

/-- No range is put in a map of ranges with a variable of the last number. -/
lemma numbered_of_useRanges {ranges ranges' : Address → Option (Ranged P)} {variableCount : ℕ}
    (hfit : RangesFit programs ranges) (h : RangesNumbered ranges) {request : ChainUse W P}
    (hrequest : request.WellFormed variableCount) {answer : ChainAnswer W E}
    (huse : useRanges userError order programs ranges request = some (answer, ranges')) :
    RangesNumbered ranges' := by
  intro pc ranged hranged
  cases request with
  | clear =>
    obtain ⟨-, rfl⟩ := Prod.mk.inj (Option.some.inj huse)
    simp at hranged
  | holds pc program =>
    obtain ⟨-, rfl⟩ := Prod.mk.inj (Option.some.inj huse)
    exact h _ ranged hranged
  | optimizing at_ executions =>
    obtain ⟨-, rfl⟩ := Prod.mk.inj (Option.some.inj huse)
    rw [Function.update_apply] at hranged
    split_ifs at hranged with hsame
    · obtain ⟨old, hold, rfl⟩ := Option.map_eq_some_iff.mp hranged
      exact h at_ old hold
    · exact h pc ranged hranged
  | add at_ id program words =>
    rw [useRanges] at huse
    cases hread : ChainData.read words (programs program).maxSlot with
    | error message =>
      simp only [hread] at huse
      obtain ⟨-, rfl⟩ := Prod.mk.inj (Option.some.inj huse)
      exact h pc ranged hranged
    | ok data =>
      simp only [hread] at huse
      obtain ⟨-, rfl⟩ := Prod.mk.inj (Option.some.inj huse)
      rw [Function.update_apply] at hranged
      split_ifs at hranged with hsame
      · obtain rfl := Option.some.inj hranged
        exact (hrequest data (ChainData.read_ok hread).1).range program id _
      · exact h pc ranged hranged
  | run call =>
    rw [useRanges] at huse
    split at huse
    · rename_i after hrun
      obtain ⟨-, rfl⟩ := Prod.mk.inj (Option.some.inj huse)
      obtain ⟨old, hold, hrange⟩ :=
        range_of_runTurns hfit (Nat.lt_succ_self call.firstBudget.toNat) hrun hranged
      rw [hrange]
      exact h pc old hold
    · simp at huse

/-- **A chain always answers.**  If compiled code returns where it has the slots and registers that
it requires, no entry that is gone is come to, no slot or register is that isn't there, and no run
takes more turns than its budget has. -/
theorem chain_answers_isSome {programs : P → ChainProgram W E} {variableCount : ℕ}
    {Good : Cells W E → Prop} (hreturns : CodeReturns programs variableCount Good)
    (userError : String → E) (order : LogOrder)
    {requests : List (ChainUse W P)}
    (hrequests : ∀ request ∈ requests, request.WellFormed variableCount) :
    (answers (Chain.use userError order programs) Chain.new requests).isSome := by
  refine answers_isSome
    (I := fun chain : Chain P => chain.Coherent programs ∧ RangesNumbered chain.ranges)
    (fun chain request hmem h => ?_)
    ⟨Chain.coherent_new, fun pc ranged hranged => by
      simp [Chain.new, Chain.ranges, Chain.find] at hranged⟩
  obtain ⟨hcoherent, hnumbers⟩ := h
  have hrel := hcoherent.rel_use userError order request
  -- the map of its ranges answers, so that the chain does
  obtain ⟨answer, ranges, hranges⟩ :
      ∃ answer ranges, useRanges userError order programs chain.ranges request =
        some (answer, ranges) := by
    cases request with
    | clear => exact ⟨_, _, rfl⟩
    | holds pc program => exact ⟨_, _, rfl⟩
    | optimizing pc executions => exact ⟨_, _, rfl⟩
    | add pc id program words =>
      rw [useRanges]
      cases ChainData.read words (programs program).maxSlot with
      | error message => exact ⟨_, _, rfl⟩
      | ok data => exact ⟨_, _, rfl⟩
    | run call =>
      obtain ⟨hcount, hbindings, hpages⟩ := hrequests _ hmem
      obtain ⟨after, hafter⟩ := runTurns_isSome hcoherent.rangesFit hnumbers hreturns userError
        order hcount hbindings hpages (Nat.lt_succ_self call.firstBudget.toNat)
      rw [useRanges, hafter]
      exact ⟨_, _, rfl⟩
  have hnumbers' := numbered_of_useRanges hcoherent.rangesFit hnumbers (hrequests _ hmem) hranges
  rw [hranges] at hrel
  generalize chain.use userError order programs request = x at hrel
  cases hrel with
  | some hsame =>
    obtain ⟨-, hcoherent', rfl⟩ := hsame
    exact ⟨_, _, rfl, hcoherent', hnumbers'⟩

end Use

/-- Stores the slot of a variable where that of another says, at the cost of one, and jumps. -/
def storingOps : List Op :=
  [.set 0 1, .add 1 1 (BitVec.allOnes 64), .memStore 2 3 1 false, .set 4 1, .jump 0x100]

/-- What a chain has of it. -/
def storingProgram : Unit → ChainProgram ℕ String :=
  fun _ => (programOf storingOps).chainProgram refusingSetup 5

/-- A chain of one range, which goes back to itself. -/
def storingChain : Chain Unit :=
  match Chain.new.add storingProgram 0x100 7 () flaggedRange.data with
  | .ok chain => chain
  | .error _ => Chain.new

/-- A run of it whose first store is refused. -/
def storingCall : ChainCall ℕ Unit where
  program := ()
  world := 0
  filter := MemoryFilter.empty
  state := [0, 3, 0x2002, 20, 0, 0]
  pages := Memory.empty.state
  firstId := 7
  firstPc := 0x100
  firstBudget := 3
  bindings := [(3, 0x2002), (5, 20)]
  variableCount := 6

lemma codeReturns_storingOps : CodeReturns storingProgram 6 (Cells.Inv refusingSetup) :=
  codeReturns_of_compiled (fun _ => (storingOps, programOf storingOps)) 5
    (fun _ => compiled_of_compile
      (show compile (fun _ => "") storingOps = .ok (programOf storingOps) from rfl))
    (fun _ _ => ⟨_, rfl⟩) 6

lemma reached_storingChain : storingChain.Reached id keptOrder storingProgram :=
  .use .new (show Chain.new.use id keptOrder storingProgram
    (.add 0x100 7 () flaggedRange.data) = some (.done, storingChain) from rfl)

theorem chain_answers_isSome_storingOps :
    (answers (Chain.use id keptOrder storingProgram) Chain.new
      [.add 0x100 7 () flaggedRange.data, .run storingCall, .holds 0x100 (), .clear,
        .run storingCall]).isSome := by
  refine chain_answers_isSome codeReturns_storingOps id keptOrder ?_
  have hadded : ∀ data, ChainData.codec.decodeAll flaggedRange.data = some data →
      data.Numbered := by
    refine fun data hdata => short_flaggedRange.numbered_of_decodeAll ?_ ?_ hdata
    · simp [flaggedRange]
    · simp only [flaggedRange, List.forall_mem_cons]
      simp
  have hcall : storingCall.WellFormed 6 := ⟨by decide, by simp [storingCall], Memory.empty.wf⟩
  simp only [List.forall_mem_cons]
  exact ⟨hadded, hcall, trivial, trivial, hcall, by simp⟩

theorem answers_of_failed_storingOps :
    ∃ answer chain', storingChain.use id keptOrder storingProgram (.run storingCall) =
        some (answer, chain') ∧
      answers (Chain.use id keptOrder storingProgram) chain' [.run storingCall, .clear] =
        answers (Chain.use id keptOrder storingProgram) storingChain
          [.run storingCall, .clear] := by
  have hfailed : (storingChain.use id keptOrder storingProgram (.run storingCall)).any
      (fun x => match x.1 with
        | .ran _ _ _ (.error _) => true
        | _ => false) = true := by
    decide +kernel
  have hcounts : ∀ pc ranged, storingChain.ranges pc = some ranged →
      ranged.executions + storingCall.firstBudget.toNat < 2 ^ 64 := by
    intro pc ranged hranged
    by_cases hpc : pc = 0x100
    · subst hpc
      obtain rfl := Option.some.inj hranged
      decide +kernel
    · have hentries : storingChain.entries pc = none := Function.update_of_ne hpc _ _
      simp [Chain.ranges, Chain.find, hentries] at hranged
  obtain ⟨⟨answer, chain'⟩, huse, hanswer⟩ := (Option.any_eq_true _ _).mp hfailed
  rcases answer with _ | _ | _ | ⟨world, pages, filter, error | result⟩
  · simp at hanswer
  · simp at hanswer
  · simp at hanswer
  · exact ⟨_, chain', huse, answers_of_failed reached_storingChain huse hcounts _⟩
  · simp at hanswer

end BapNative.Jit
