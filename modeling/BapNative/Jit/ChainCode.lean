import BapNative.Jit.ChainCounts
import BapNative.Jit.Optimized

/-!
# The code of a chain

What a chain calls is what `compile` or `compileOptimized` made.  Code that isn't optimized works
on the slots of the state.  Code that is has copies of its slots, which it takes from the state,
or, of its variables, from the registers of the chain, and leaves there.  Either way a turn does
what the operations of its program do.
-/

namespace BapNative.Jit

open Lockstep PagedMemory

variable {W E N : Type} {setup : Setup W E}

/-! ## As many slots and registers -/

namespace Homes

/-- Nothing is added to what is there between runs, or taken from it. -/
def SameSize (homes homes' : Homes) : Prop :=
  homes'.state.length = homes.state.length ∧
    homes'.registers.map List.length = homes.registers.map List.length

lemma SameSize.trans {homes homes' homes'' : Homes} (h : homes.SameSize homes')
    (h' : homes'.SameSize homes'') : homes.SameSize homes'' :=
  ⟨h'.1.trans h.1, h'.2.trans h.2⟩

lemma sameSize_store {homes homes' : Homes} {home : Home} {value : BitVec 64}
    (h : homes.store home value = some homes') : homes.SameSize homes' := by
  cases home with
  | state slot =>
    rw [store] at h
    split_ifs at h
    obtain rfl := Option.some.inj h
    exact ⟨List.length_set, rfl⟩
  | register number =>
    obtain ⟨registers, hregisters, h⟩ := Option.bind_eq_some_iff.mp h
    split_ifs at h
    obtain rfl := Option.some.inj h
    exact ⟨rfl, by simp [hregisters]⟩

end Homes

namespace Promotion

variable {promotion : Promotion} {home : ℕ → Home}

lemma sameSize_writeBack {copies : List (BitVec 64)} {homes homes' : Homes}
    (h : promotion.writeBack home copies homes = some homes') : homes.SameSize homes' := by
  rw [writeBack] at h
  generalize List.range promotion.slotCount = slots at h
  induction slots generalizing homes with
  | nil =>
    obtain rfl := Option.some.inj h
    exact ⟨rfl, rfl⟩
  | cons slot slots ih =>
    rw [List.foldlM_cons] at h
    obtain ⟨next, hnext, hrest⟩ := Option.bind_eq_some_iff.mp h
    refine Homes.SameSize.trans ?_ (ih hrest)
    split_ifs at hnext with hgoes
    · obtain ⟨value, -, hstore⟩ := Option.bind_eq_some_iff.mp hnext
      exact Homes.sameSize_store hstore
    · obtain rfl := Option.some.inj hnext
      exact ⟨rfl, rfl⟩

lemma sameSize_beforeStep {body : List Op} {promoted promoted' : Promoted W E}
    (h : promotion.beforeStep setup home body promoted = some promoted') :
    promoted.homes.SameSize promoted'.homes := by
  have hsame : some promoted = some promoted' → promoted.homes.SameSize promoted'.homes := by
    intro heq
    obtain rfl := Option.some.inj heq
    exact ⟨rfl, rfl⟩
  rcases body with _ | ⟨op, rest⟩
  · exact hsame h
  · cases op with
    | code effectSlot pc =>
      simp only [beforeStep, flush] at h
      split_ifs at h with hsite
      · obtain ⟨homes, hwrite, hpromoted⟩ := Option.bind_eq_some_iff.mp h
        obtain rfl := Option.some.inj hpromoted
        exact sameSize_writeBack hwrite
      · exact hsame h
    | _ => exact hsame h

/-- A step of what is optimized changes no size. -/
lemma sameSize_step {graph : Graph N} {point : BasicBlock N × Promoted W E}
    {x : (BasicBlock N × Promoted W E) ⊕ (BitVec 64 × Promoted W E)}
    (h : promotion.step setup home graph point = some x) :
    point.2.homes.SameSize (Sum.elim Prod.snd Prod.snd x).homes := by
  obtain ⟨promoted, hbefore, h⟩ := Option.bind_eq_some_iff.mp h
  obtain ⟨y, -, h⟩ := Option.bind_eq_some_iff.mp h
  have hsize := sameSize_beforeStep hbefore
  rcases y with ⟨block, native⟩ | ⟨value, native⟩
  · obtain rfl := Option.some.inj h
    exact hsize
  · obtain ⟨homes, hwrite, h⟩ := Option.bind_eq_some_iff.mp h
    obtain rfl := Option.some.inj h
    exact hsize.trans (sameSize_writeBack hwrite)

/-- What is optimized is called with what is there between runs, and has so many steps. -/
def function (promotion : Promotion) (setup : Setup W E) (graph : Graph N) (fuel : ℕ)
    (homes : Homes) (cells : Cells W E) : Option (BitVec 64 × Homes × Cells W E) := do
  let promoted ← promotion.enter homes cells
  match run (promotion.step setup (promotion.homeIn homes) graph) fuel
    (graph.block graph.entry, promoted) with
  | some (.inr (next, promoted)) => return (next, promoted.homes, promoted.native.cells)
  | _ => none

lemma function_eq_some {graph : Graph N} {fuel : ℕ} {homes homes' : Homes}
    {cells cells' : Cells W E} {next : BitVec 64}
    (h : promotion.function setup graph fuel homes cells = some (next, homes', cells')) :
    ∃ promoted promoted', promotion.enter homes cells = some promoted ∧
      run (promotion.step setup (promotion.homeIn homes) graph) fuel
        (graph.block graph.entry, promoted) = some (.inr (next, promoted')) ∧
      promoted'.homes = homes' ∧ promoted'.native.cells = cells' := by
  obtain ⟨promoted, henter, h⟩ := Option.bind_eq_some_iff.mp h
  split at h
  · rename_i value promoted' hrun
    obtain ⟨rfl, rfl, rfl⟩ : value = next ∧ promoted'.homes = homes' ∧
      promoted'.native.cells = cells' := by simpa using h
    exact ⟨promoted, promoted', henter, hrun, rfl, rfl⟩
  · simp at h

/-- A call that returns does so however many steps it may take. -/
lemma function_add {graph : Graph N} {fuel : ℕ} (more : ℕ) {homes : Homes} {cells : Cells W E}
    {x : BitVec 64 × Homes × Cells W E}
    (h : promotion.function setup graph fuel homes cells = some x) :
    promotion.function setup graph (fuel + more) homes cells = some x := by
  obtain ⟨next, homes', cells'⟩ := x
  obtain ⟨promoted, promoted', henter, hrun, rfl, rfl⟩ := function_eq_some h
  simp only [function, henter, Option.bind_eq_bind, Option.bind_some, run_add_inr hrun more]
  rfl

lemma homes_enter {homes : Homes} {cells : Cells W E} {promoted : Promoted W E}
    (h : promotion.enter homes cells = some promoted) : promoted.homes = homes := by
  obtain ⟨copies, -, h⟩ := Option.bind_eq_some_iff.mp h
  obtain rfl := Option.some.inj h
  rfl

theorem sameSize_function {graph : Graph N} {fuel : ℕ} {homes homes' : Homes}
    {cells cells' : Cells W E} {next : BitVec 64}
    (h : promotion.function setup graph fuel homes cells = some (next, homes', cells')) :
    homes.SameSize homes' := by
  obtain ⟨promoted, promoted', henter, hrun, rfl, -⟩ := function_eq_some h
  have hsize := run_invariant (I := fun point => homes.SameSize point.2.homes)
    (J := fun result => homes.SameSize result.2.homes)
    (fun point x hpoint hx => ?_) ?_ hrun
  · exact hsize
  · have hstep := hpoint.trans (sameSize_step hx)
    rcases x with point' | result
    · exact hstep
    · exact hstep
  · rw [homes_enter henter]
    exact ⟨rfl, rfl⟩

end Promotion

/-! ## Where the variables are -/

namespace Promotion

variable {promotion : Promotion}

/-- A slot is in the state, or its variable's number is that of a register. -/
lemma home_true (slot : ℕ) : promotion.home true slot = .state slot ∨
    ∃ number, (slot, number) ∈ pairs (promotion.variableNumbers.getD []) ∧
      promotion.home true slot = .register number := by
  rw [home]
  generalize pairs (promotion.variableNumbers.getD []) = list
  induction list using List.reverseRecOn with
  | nil => exact .inl rfl
  | append_singleton list pair ih =>
    rw [List.foldl_append, List.foldl_cons, List.foldl_nil]
    generalize List.foldl _ Home.state list = homes at ih ⊢
    -- of two pairs of one slot the last counts
    by_cases hpair : pair.1 < promotion.slotCount ∧ slot = pair.1
    · obtain ⟨hlt, rfl⟩ := hpair
      refine .inr ⟨pair.2, by simp, ?_⟩
      simp [hlt]
    · have hkeep : (if pair.1 < promotion.slotCount then
          Function.update homes pair.1 (if true then .register pair.2 else homes pair.1)
        else homes) slot = homes slot := by
        by_cases hlt : pair.1 < promotion.slotCount
        · rw [if_pos hlt]
          exact Function.update_of_ne (fun hsame => hpair ⟨hlt, hsame⟩) _ _
        · rw [if_neg hlt]
      rw [hkeep]
      rcases ih with hstate | ⟨number, hmem, hregister⟩
      · exact .inl hstate
      · exact .inr ⟨number, List.mem_append_left _ hmem, hregister⟩

/-- The numbers of the variables are apart, and there is a register for each if there are any. -/
structure Numbered (promotion : Promotion) (homes : Homes) : Prop where
  slots : promotion.slotCount ≤ homes.state.length
  apart : ((pairs (promotion.variableNumbers.getD [])).map Prod.snd).Nodup
  registers : ∀ registers, homes.registers = some registers →
    ∀ pair ∈ pairs (promotion.variableNumbers.getD []), pair.2 < registers.length

/-- **Every slot has a home of its own, whether the chain has registers or not.** -/
theorem Numbered.housed {homes : Homes} (h : promotion.Numbered homes) :
    promotion.Housed (promotion.homeIn homes) homes := by
  obtain ⟨state, _ | registers⟩ := homes
  · exact housed_state h.slots
  have hhome : promotion.homeIn ⟨state, some registers⟩ = promotion.home true := rfl
  rw [hhome]
  refine ⟨fun slot hslot => ?_, fun a _ b _ hsame => ?_⟩
  · rcases promotion.home_true slot with hstate | ⟨number, hmem, hregister⟩
    · rw [hstate]
      simpa [Homes.load] using hslot.trans_le h.slots
    · rw [hregister]
      simpa [Homes.load] using h.registers registers rfl _ hmem
  -- two slots of one register would be two pairs of one number
  · rcases promotion.home_true a with ha | ⟨number, hmem, ha⟩ <;>
      rcases promotion.home_true b with hb | ⟨number', hmem', hb⟩ <;>
      rw [ha, hb] at hsame
    · exact Home.state.inj hsame
    · simp at hsame
    · simp at hsame
    · obtain rfl := Home.register.inj hsame
      exact congrArg Prod.fst (List.inj_on_of_nodup_map h.apart hmem hmem' rfl)

end Promotion

/-! ## What a turn does -/

section Calls

variable {ops : List Op} {program : Program} {start : PagedMemory} {homes : Homes}
  {cells : Cells W E} {machine : Machine W E}

/-- What code that is called leaves, as its operations have it: what is read after is at home,
nothing else there is another, and cells are as they are. -/
structure LeftBehind (setup : Setup W E) (promotion : Promotion) (start : PagedMemory)
    (homes homes' : Homes) (cells' : Cells W E) (machine' : Machine W E) : Prop where
  kept : ∀ slot < promotion.slotCount, promotion.readAfter slot = true →
    homes'.load (promotion.homeIn homes slot) = some (machine'.slots slot)
  only : promotion.OnlyHome (promotion.homeIn homes) homes homes'
  inv : cells'.Inv setup
  abs : cells'.abs = machine'.flat
  owes : cells'.Owes start

/-- What code that is called has, as its operations have it. -/
structure CalledWith (setup : Setup W E) (promotion : Promotion) (start : PagedMemory)
    (homes : Homes) (cells : Cells W E) (machine : Machine W E) : Prop where
  slots : ∀ slot < promotion.slotCount,
    homes.load (promotion.homeIn homes slot) = some (machine.slots slot)
  inv : cells.Inv setup
  abs : cells.abs = machine.flat
  owes : cells.Owes start

/-- **What is optimized, called on copies of slots and of registers, goes the way of its
operations**, if its graph does. -/
theorem Promotion.Numbered.function_spec {promotion : Promotion} (h : promotion.Numbered homes)
    (hcalled : CalledWith setup promotion start homes cells machine) {graph : Graph N}
    (hops : ∀ id, ∀ op ∈ (graph.block id).body, op ∈ promotion.ops) {first : List Op}
    (halike : ∀ native : Native W E, Agrees setup promotion.slotCount start native machine →
      Alike (graph.step setup) (nextCfg setup ops) (SameReturn setup promotion.slotCount start)
        (graph.start native) (first, machine)) :
    (∀ fuel next homes' cells',
      promotion.function setup graph fuel homes cells = some (next, homes', cells') →
      ∃ machine', Returns (nextCfg setup ops) (first, machine) (next, machine') ∧
        LeftBehind setup promotion start homes homes' cells' machine') ∧
    ∀ next machine', Returns (nextCfg setup ops) (first, machine) (next, machine') →
      ∃ fuel homes' cells',
        promotion.function setup graph fuel homes cells = some (next, homes', cells') ∧
        LeftBehind setup promotion start homes homes' cells' machine' := by
  obtain ⟨copies, henter, hlength, hcopies⟩ := h.housed.enter_spec cells
  have hagrees : Agrees setup promotion.slotCount start ⟨copies, cells⟩ machine := by
    refine ⟨List.ext_getElem? fun slot => ?_, hcalled.inv, hcalled.abs, hcalled.owes⟩
    by_cases hslot : slot < promotion.slotCount
    · rw [hcopies slot hslot, hcalled.slots slot hslot]
      simp [hslot]
    · rw [List.getElem?_eq_none (by simpa [hlength] using hslot)]
      simp [Nat.not_lt.mp hslot]
  have hgraph := halike _ hagrees
  have hall := (h.housed.alike hops henter hgraph.safe).comp hgraph
  -- what it leaves is what the graph leaves on the copies, which is what the operations leave
  have hleft : ∀ {next next' : BitVec 64} {promoted : Promoted W E} {machine' : Machine W E},
      Relation.Comp (promotion.LeavesHome (promotion.homeIn homes) homes)
        (SameReturn setup promotion.slotCount start) (next, promoted) (next', machine') →
      next = next' ∧
        LeftBehind setup promotion start homes promoted.homes promoted.native.cells machine' := by
    rintro next next' promoted machine' ⟨⟨_, native⟩, ⟨rfl, rfl, honly, hhome⟩, hnext, hagrees'⟩
    refine ⟨hnext, fun slot hslot hread => ?_, honly, hagrees'.inv, hagrees'.abs, hagrees'.owes⟩
    rw [hhome slot hslot hread]
    exact hagrees'.load hslot
  refine ⟨fun fuel next homes' cells' hfunction => ?_, fun next machine' hreturns => ?_⟩
  · obtain ⟨promoted, promoted', henter', hrun, rfl, rfl⟩ := function_eq_some hfunction
    obtain rfl := Option.some.inj (henter'.symm.trans henter)
    obtain ⟨⟨next', machine'⟩, hreturns, hcomp⟩ := hall.forth _ ⟨fuel, hrun⟩
    obtain ⟨rfl, hbehind⟩ := hleft hcomp
    exact ⟨machine', hreturns, hbehind⟩
  · obtain ⟨⟨next', promoted⟩, ⟨fuel, hrun⟩, hcomp⟩ := hall.back _ hreturns
    obtain ⟨rfl, hbehind⟩ := hleft hcomp
    refine ⟨fuel, _, _, ?_, hbehind⟩
    rw [Promotion.function, henter]
    simp only [Option.bind_eq_bind, Option.bind_some, hrun]
    rfl

/-- The code of a program that isn't optimized is called, and has so many steps. -/
def Program.function (program : Program) (setup : Setup W E) (fuel : ℕ) (homes : Homes)
    (cells : Cells W E) : Option (BitVec 64 × Homes × Cells W E) :=
  match run (program.step setup) fuel (program.blocks none, ⟨homes.state, cells⟩) with
  | some (.inr (next, native)) => some (next, { homes with state := native.state }, native.cells)
  | _ => none

lemma Native.execute_goto {native native' : Native W E} {op : Op} {id : ℕ}
    (h : native.execute setup op = some (.goto id native')) : native' = native := by
  cases op with
  | goto target =>
    obtain ⟨-, rfl⟩ := Exit.goto.inj (Option.some.inj h)
    rfl
  | branch condition yes no =>
    obtain ⟨_, -, h⟩ := Option.bind_eq_some_iff.mp h
    obtain ⟨-, rfl⟩ := Exit.goto.inj (Option.some.inj h)
    rfl
  | code effectSlot pc =>
    simp only [Native.execute] at h
    split_ifs at h
    · simp [Option.bind_eq_some_iff] at h
    · simp at h
  | _ => simp [Native.execute, Option.bind_eq_some_iff] at h

/-- A step of code that isn't optimized changes no size. -/
lemma Program.length_step {point : List Op × Native W E}
    {x : (List Op × Native W E) ⊕ (BitVec 64 × Native W E)}
    (h : program.step setup point = some x) :
    (Sum.elim Prod.snd Prod.snd x).state.length = point.2.state.length := by
  obtain ⟨rest, native⟩ := point
  rcases rest with _ | ⟨op, rest⟩
  · simp [Program.step] at h
  simp only [Program.step] at h
  rcases hexecute : native.execute setup op with _ | native' | ⟨id, native'⟩ | ⟨value, native'⟩ <;>
    simp only [hexecute] at h
  · simp at h
  · obtain rfl := Option.some.inj h
    exact Native.length_execute hexecute
  · obtain rfl := Option.some.inj h
    exact congrArg (fun native => native.state.length) (Native.execute_goto hexecute)
  · obtain rfl := Option.some.inj h
    rcases Native.execute_ret hexecute with hstate | ⟨slot, -, hstate⟩
    · exact congrArg List.length hstate
    · exact (congrArg List.length hstate).trans List.length_set

lemma Program.sameSize_function {fuel : ℕ} {homes' : Homes} {cells' : Cells W E}
    {next : BitVec 64}
    (h : program.function setup fuel homes cells = some (next, homes', cells')) :
    homes.SameSize homes' := by
  rw [Program.function] at h
  split at h
  · rename_i value native hrun
    obtain ⟨-, rfl, -⟩ : value = next ∧ { homes with state := native.state } = homes' ∧
      native.cells = cells' := by simpa using h
    have hlength := run_invariant (I := fun point => point.2.state.length = homes.state.length)
      (J := fun result => result.2.state.length = homes.state.length)
      (fun point x hpoint hx => ?_) rfl hrun
    · exact ⟨hlength, rfl⟩
    · have hstep := (Program.length_step hx).trans hpoint
      rcases x with point' | result
      · exact hstep
      · exact hstep
  · simp at h

/-- **Code that isn't optimized, called on slots, returns after as many steps as its
operations.** -/
theorem Compiled.function_spec (h : Compiled ops program) {count : ℕ}
    (hcount : program.maxSlot ≤ count)
    (hagrees : Agrees setup count start ⟨homes.state, cells⟩ machine) (fuel : ℕ) :
    Option.Rel (fun x y => x.1 = y.1 ∧ x.2.1.registers = homes.registers ∧
        Agrees setup count start ⟨x.2.1.state, x.2.2⟩ y.2)
      (program.function setup fuel homes cells)
      ((run (nextCfg setup ops) fuel (ops, machine)).bind Sum.getRight?) := by
  obtain ⟨x, y, hx, hy, hrel⟩ := h.both_run hcount hagrees fuel
  rw [Program.function, hx, hy]
  cases hrel with
  | inl hin => exact .none
  | inr hreturn => exact .some ⟨hreturn.1, rfl, hreturn.2⟩

end Calls

/-! ## What a chain has of a program -/

/-- What a chain has of a program that isn't optimized. -/
def Program.chainProgram (program : Program) (setup : Setup W E) (fuel : ℕ) :
    ChainProgram W E where
  function := program.function setup fuel
  maxSlot := program.maxSlot
  direct := false
  sameSize := fun _ _ _ _ _ h => Program.sameSize_function h

/-- What it has of one that is, which uses its registers unless it has no slots at all. -/
def Program.chainOptimized (program : Program) (ops : List Op) (graph : Graph N)
    (kept variableNumbers : List ℕ) (flushSites : List Address) (setup : Setup W E) (fuel : ℕ) :
    ChainProgram W E where
  function :=
    (Program.promotion ops program.maxSlot kept variableNumbers flushSites).function setup graph
      fuel
  maxSlot := program.maxSlot
  direct := program.maxSlot ≠ 0
  sameSize := fun _ _ _ _ _ h => Promotion.sameSize_function h

section Code

variable {ops : List Op} {program : Program} {variableCount : ℕ} {cells : Cells W E}

/-- Cells are as good for a call, before which no site waits. -/
lemma Cells.Inv.called (h : cells.Inv setup) : { cells with pendingSite := false }.Inv setup :=
  ⟨h.pages, h.changes, h.entries, h.quiet⟩

lemma Cells.owes_self (cells : Cells W E) : cells.Owes cells.pages :=
  ⟨rfl, id, fun _ _ => id, fun _ _ _ hother => absurd rfl hother⟩

/-- What is so of the code of each program is so of all of them. -/
lemma codeReturns_of_returns {P : Type} {programs : P → ChainProgram W E}
    (h : ∀ program, (programs program).Returns variableCount (Cells.Inv setup)) :
    CodeReturns programs variableCount (Cells.Inv setup) :=
  ⟨fun _ _ _ hpages => Cells.inv_start _ _ hpages, fun _ hcells => hcells.changes, h⟩

/-- **Code that isn't optimized returns, if its operations do within so many steps, wherever they
start.** -/
theorem Compiled.returns_chainProgram (h : Compiled ops program) (variableCount : ℕ) {fuel : ℕ}
    (hreturns : ∀ machine : Machine W E, ∃ result,
      run (nextCfg setup ops) fuel (ops, machine) = some (.inr result)) :
    (program.chainProgram setup fuel).Returns variableCount (Cells.Inv setup) := by
  intro state registers cells hslots _ hcells
  -- the operations start from the slots and the memory that the code finds
  let machine : Machine W E :=
    ⟨fun slot => state.getD slot 0, { cells with pendingSite := false }.abs⟩
  let homes : Homes := ⟨state, none⟩
  have hagrees : Agrees setup state.length cells.pages
      ⟨homes.state, { cells with pendingSite := false }⟩ machine := by
    refine ⟨?_, hcells.called, rfl, { cells with pendingSite := false }.owes_self⟩
    exact List.ext_getElem (by simp [homes]) fun i hi _ => by simp [homes, machine, hi]
  obtain ⟨result, hrun⟩ := hreturns machine
  have hspec := h.function_spec hslots hagrees fuel
  rw [hrun] at hspec
  generalize hcode : program.function setup fuel _ _ = x at hspec
  cases hspec with
  | some hleft => exact ⟨_, _, _, hcode, hleft.2.2.inv⟩

open Classical in
/-- Code that has as many steps as it takes to return. -/
noncomputable def ChainProgram.eventually (code : ℕ → ChainProgram W E) : ChainProgram W E where
  function homes cells :=
    if h : ∃ fuel, ((code fuel).function homes cells).isSome then
      (code h.choose).function homes cells
    else none
  maxSlot := (code 0).maxSlot
  direct := (code 0).direct
  sameSize homes cells next homes' cells' h := by
    split_ifs at h with hreturns
    exact (code hreturns.choose).sameSize homes cells next homes' cells' h

lemma ChainProgram.function_eventually {code : ℕ → ChainProgram W E} {fuel : ℕ} {homes : Homes}
    {x : BitVec 64 × Homes × Cells W E}
    (hmore : ∀ fuel more x, (code fuel).function homes cells = some x →
      (code (fuel + more)).function homes cells = some x)
    (h : (code fuel).function homes cells = some x) :
    (ChainProgram.eventually code).function homes cells = some x := by
  have hreturns : ∃ fuel, ((code fuel).function homes cells).isSome := ⟨fuel, by rw [h]; rfl⟩
  obtain ⟨y, hy⟩ := Option.isSome_iff_exists.mp hreturns.choose_spec
  -- both returned by then
  have hboth := hmore fuel hreturns.choose x h
  rw [Nat.add_comm, hmore hreturns.choose fuel y hy] at hboth
  simp only [ChainProgram.eventually, dif_pos hreturns]
  rw [hy, hboth]

/-- **Code that is optimized returns, if its operations do, wherever they start.** -/
theorem Compiled.returns_chainOptimized (h : Compiled ops program) {budgetSlot : ℕ}
    {head : Option ℕ → Option (Option ℕ)} {place : Option ℕ → ℕ}
    (hmetered : budgetSlot < program.maxSlot →
      Metered budgetSlot (nodesOf ops) program.graph head place)
    {kept variableNumbers : List ℕ} (flushSites : List Address)
    (happart : ((pairs variableNumbers).map Prod.snd).Nodup)
    (hnumbers : ∀ pair ∈ pairs variableNumbers, pair.2 < variableCount)
    (hreturns : ∀ machine : Machine W E, ∃ result,
      Returns (nextCfg setup ops) (ops, machine) result)
    {graph : Graph (Node (Option ℕ))} (hgraph : program.optimizedGraph ops budgetSlot = some graph) :
    (ChainProgram.eventually fun fuel => program.chainOptimized ops graph kept variableNumbers
      flushSites setup fuel).Returns variableCount (Cells.Inv setup) := by
  intro state registers cells hslots hregisters hcells
  obtain ⟨graph', hgraph', hops, halike⟩ := h.alike_optimizedGraph hmetered
  obtain rfl : graph = graph' := Option.some.inj (hgraph.symm.trans hgraph')
  let code := program.chainOptimized ops graph kept variableNumbers flushSites setup
  let promotion := Program.promotion ops program.maxSlot kept variableNumbers flushSites
  let homes : Homes := ⟨state, if program.maxSlot ≠ 0 then some registers else none⟩
  -- the operations start from the slots, wherever they are, and the memory that the code finds
  let machine : Machine W E :=
    ⟨fun slot => (homes.load (promotion.homeIn homes slot)).getD 0,
      { cells with pendingSite := false }.abs⟩
  have hnumbered : promotion.Numbered homes := by
    refine ⟨hslots, happart, fun registers' hsome pair hpair => ?_⟩
    obtain ⟨-, rfl⟩ : program.maxSlot ≠ 0 ∧ registers = registers' := by simpa [homes] using hsome
    exact (hnumbers pair hpair).trans_le hregisters
  have hcalled : CalledWith setup promotion cells.pages homes { cells with pendingSite := false }
      machine := by
    refine ⟨fun slot hslot => ?_, hcells.called, rfl, { cells with pendingSite := false }.owes_self⟩
    obtain ⟨value, hvalue⟩ := Option.isSome_iff_exists.mp (hnumbered.housed.loads slot hslot)
    simp [machine, hvalue]
  obtain ⟨⟨next, machine'⟩, hmachine⟩ := hreturns machine
  obtain ⟨fuel, homes', cells', hfunction, hleft⟩ := (hnumbered.function_spec hcalled hops
    fun native hagrees => halike native _ le_rfl hagrees).2 next machine' hmachine
  refine ⟨next, homes', cells', ?_, hleft.inv⟩
  have hdirect : (ChainProgram.eventually code).direct = decide (program.maxSlot ≠ 0) := rfl
  have hhomes : (⟨state, if (ChainProgram.eventually code).direct then some registers else none⟩ :
      Homes) = homes := by simp [hdirect, homes]
  rw [hhomes]
  exact ChainProgram.function_eventually (fun fuel more x => Promotion.function_add more) hfunction

end Code

/-- **Programs that aren't optimized return, if their operations do, wherever they start.** -/
theorem codeReturns_of_compiled {P : Type} (code : P → List Op × Program) (fuel : ℕ)
    (hcompiled : ∀ program, Compiled (code program).1 (code program).2)
    (hreturns : ∀ program (machine : Machine W E), ∃ result,
      run (nextCfg setup (code program).1) fuel ((code program).1, machine) =
        some (.inr result)) (variableCount : ℕ) :
    CodeReturns (fun program => (code program).2.chainProgram setup fuel) variableCount
      (Cells.Inv setup) :=
  codeReturns_of_returns fun program =>
    (hcompiled program).returns_chainProgram variableCount (hreturns program)

end BapNative.Jit
