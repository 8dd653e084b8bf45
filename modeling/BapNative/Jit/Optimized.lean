import BapNative.Jit.FastCopy
import BapNative.Jit.Promote
import BapNative.Jit.Runner

/-!
# What is optimized

`compileOps` with what it makes of a program that is optimized, and of one with entries: the
copy that doesn't count its budget (`fastCopy`), the dispatch to the label that a slot says, and
the copies of the slots (`Promotion`).  Each returns if and only if the operations of the
program do, and leaves what they leave, but for slots that aren't kept.
-/

namespace BapNative.Jit

open Lockstep PagedMemory

variable {W E : Type} {setup : Setup W E} {ops : List Op} {program : Program} {count : ℕ}
  {start : PagedMemory}

/-! ## The blocks of a program -/

/-- The blocks that a program has. -/
def nodesOf (ops : List Op) : Finset (Option ℕ) := insert none ((labelsOf ops).toFinset.image some)

namespace Compiled

/-- What a block has is of the program. -/
lemma mem_ops (h : Compiled ops program) {id : Option ℕ} {op : Op} (hop : op ∈ program.blocks id) :
    op ∈ ops := by
  cases id with
  | none =>
    rw [h.entry] at hop
    exact mem_of_mem_blockAt hop
  | some id =>
    by_cases hid : id ∈ labelsOf ops
    · obtain ⟨rest, hafter, hblock⟩ := h.label id hid
      rw [hblock] at hop
      exact mem_of_afterLabel hafter (mem_of_mem_blockAt hop)
    · rw [h.others id hid] at hop
      simp at hop

/-- Every block ends with an operation of the program, if it has any. -/
lemma exit_eq (h : Compiled ops program) (id : Option ℕ) :
    (program.graph.block id).exit = .unreachable ∨
      ∃ op ∈ ops, (program.graph.block id).exit = op.terminator := by
  cases hlast : (program.blocks id).getLast? with
  | none => exact Or.inl (by simp [Program.graph, BasicBlock.ofOps, hlast])
  | some op =>
    exact Or.inr ⟨op, h.mem_ops (List.mem_of_getLast? hlast),
      by simp [Program.graph, BasicBlock.ofOps, hlast]⟩

lemma mem_body (h : Compiled ops program) {id : Option ℕ} {op : Op}
    (hop : op ∈ (program.graph.block id).body) : op ∈ ops :=
  h.mem_ops (List.mem_of_mem_dropLast hop)

/-- A block goes only to blocks that the program has. -/
lemma mem_nodesOf (h : Compiled ops program) (id target : Option ℕ)
    (htarget : target ∈ (program.graph.block id).exit.successors) : target ∈ nodesOf ops := by
  rcases h.exit_eq id with hexit | ⟨op, hop, hexit⟩
  · simp [hexit, Terminator.successors] at htarget
  · have haccepted := h.accepted op hop
    simp only [Op.accepted, Bool.and_eq_true, List.all_eq_true, decide_eq_true_eq] at haccepted
    have hlabels : ∀ id ∈ op.targets, some id ∈ nodesOf ops := fun id hid =>
      Finset.mem_insert_of_mem (Finset.mem_image_of_mem _
        (List.mem_toFinset.mpr (haccepted.2 id hid)))
    rw [hexit] at htarget
    cases op with
    | goto id =>
      obtain rfl : target = some id := by
        simpa [Op.terminator, Terminator.successors] using htarget
      exact hlabels id (List.mem_singleton_self id)
    | branch condition yes no =>
      have hboth : target = some yes ∨ target = some no := by
        simpa [Op.terminator, Terminator.successors] using htarget
      rcases hboth with rfl | rfl
      · exact hlabels yes (by simp [Op.targets])
      · exact hlabels no (by simp [Op.targets])
    | _ => simp [Op.terminator, Terminator.successors] at htarget

/-- There are fewer blocks than a word can count. -/
lemma checks_lt (h : Compiled ops program) (budgetSlot : ℕ) :
    program.graph.checks budgetSlot (nodesOf ops) < 2 ^ 64 := by
  have hlabels : (labelsOf ops).toFinset ⊆ Finset.range (slotLimit + 1) := by
    intro id hid
    obtain ⟨op, hop, hid⟩ := List.mem_filterMap.mp (List.mem_toFinset.mp hid)
    have haccepted := h.accepted op hop
    simp only [Op.accepted, Bool.and_eq_true, List.all_eq_true] at haccepted
    cases op with
    | label id' =>
      obtain rfl : id' = id := by simpa using hid
      have hslot := haccepted.1.1 id' (by simp [Op.numbers])
      rw [getSlot, decide_eq_true_eq] at hslot
      exact Finset.mem_range.mpr (by omega)
    | _ => simp at hid
  have hcard : (nodesOf ops).card ≤ slotLimit + 1 + 1 := by
    refine (Finset.card_insert_le _ _).trans (Nat.add_le_add_right ?_ 1)
    calc ((labelsOf ops).toFinset.image some).card
        ≤ (labelsOf ops).toFinset.card := Finset.card_image_le
      _ ≤ (Finset.range (slotLimit + 1)).card := Finset.card_le_card hlabels
      _ = slotLimit + 1 := Finset.card_range _
  have hchecks : program.graph.checks budgetSlot (nodesOf ops) ≤ (nodesOf ops).card :=
    Finset.card_le_card (Finset.filter_subset _ _)
  have hlimit : slotLimit + 1 + 1 < 2 ^ 64 := by decide
  omega

/-- The graph of a program returns as its operations do. -/
lemma alike_graph (h : Compiled ops program) (hcount : program.maxSlot ≤ count)
    {native : Native W E} {machine : Machine W E}
    (hagrees : Agrees setup count start native machine) :
    Alike (program.graph.step setup) (nextCfg setup ops) (SameReturn setup count start)
      (program.graph.start native) (ops, machine) :=
  alike_of_both (h.both_graph_run hcount hagrees)

/-- So does it from a label. -/
lemma alike_graph_label (h : Compiled ops program) (hcount : program.maxSlot ≤ count)
    {native : Native W E} {machine : Machine W E}
    (hagrees : Agrees setup count start native machine) {id : ℕ} (hid : id ∈ labelsOf ops) :
    ∃ rest, afterLabel ops id = some rest ∧
      Alike (program.graph.step setup) (nextCfg setup ops) (SameReturn setup count start)
        (program.graph.block (some id), native) (rest, machine) := by
  obtain ⟨rest, hafter, hat⟩ := h.at_label hid native machine
  exact ⟨rest, hafter, alike_of_both fun fuel =>
    Lockstep.both_run (h.both_graph_step hcount) fuel ⟨_, rfl, hat, hagrees⟩⟩

end Compiled

/-! ## A program with a copy -/

/-- The graph of a program that is optimized: with a copy, if its budget is one of its slots. -/
def Program.optimizedGraph (program : Program) (ops : List Op) (budgetSlot : ℕ) :
    Option (Graph (Node (Option ℕ))) :=
  if budgetSlot < program.maxSlot then program.graph.fastCopy budgetSlot (nodesOf ops)
  else some program.graph.unchanged

/-- A copy has no other operations. -/
lemma Graph.mem_body_fastCopy {N : Type} [DecidableEq N] {graph : Graph N} {budgetSlot : ℕ}
    {nodes : Finset N} {copy : Graph (Node N)} (h : graph.fastCopy budgetSlot nodes = some copy)
    {id : Node N} {op : Op} (hop : op ∈ (copy.block id).body) :
    ∃ block, op ∈ (graph.block block).body := by
  rw [Graph.fastCopy] at h
  split_ifs at h
  · obtain rfl := Option.some.inj h
    cases id <;> exact ⟨_, hop⟩
  · obtain ⟨targets, -, hcopy⟩ := Option.bind_eq_some_iff.mp h
    obtain rfl := Option.some.inj hcopy
    cases id with
    | slow block | fast block => exact ⟨block, hop⟩
    | check block => simp [Graph.withCopy] at hop

/-- **The graph of a program that is optimized returns as its operations do.** -/
theorem Compiled.alike_optimizedGraph (h : Compiled ops program) {budgetSlot : ℕ}
    {head : Option ℕ → Option (Option ℕ)} {place : Option ℕ → ℕ}
    (hmetered : budgetSlot < program.maxSlot →
      Metered budgetSlot (nodesOf ops) program.graph head place) :
    ∃ graph, program.optimizedGraph ops budgetSlot = some graph ∧
      (∀ id, ∀ op ∈ (graph.block id).body, op ∈ ops) ∧
      ∀ (native : Native W E) (machine : Machine W E), program.maxSlot ≤ count →
        Agrees setup count start native machine →
        Alike (graph.step setup) (nextCfg setup ops) (SameReturn setup count start)
          (graph.start native) (ops, machine) := by
  rw [Program.optimizedGraph]
  by_cases hslot : budgetSlot < program.maxSlot
  · rw [if_pos hslot]
    obtain ⟨copy, hcopy, hspec⟩ := (hmetered hslot).fastCopy_spec (Finset.mem_insert_self _ _)
      h.mem_nodesOf (h.checks_lt budgetSlot)
    refine ⟨copy, hcopy, fun id op hop => ?_, fun native machine hcount hagrees => ?_⟩
    · obtain ⟨block, hblock⟩ := Graph.mem_body_fastCopy hcopy hop
      exact h.mem_body hblock
    · have hgraph := h.alike_graph hcount hagrees
      have hlength : native.state.length = count := by simp [hagrees.state]
      refine ((hspec native (by omega) hgraph.safe).comp hgraph).mono ?_
      rintro result result' ⟨_, rfl, hreturn⟩
      exact hreturn
  · rw [if_neg hslot]
    refine ⟨program.graph.unchanged, rfl, fun id op hop => ?_,
      fun native machine hcount hagrees => ?_⟩
    · cases id <;> exact h.mem_body hop
    · have hgraph := h.alike_graph hcount hagrees
      refine ((alike_renamed (fun _ => rfl) hgraph.safe).comp hgraph).mono ?_
      rintro result result' ⟨_, rfl, hreturn⟩
      exact hreturn

/-! ## A program with entries -/

/-- The dispatch before all that a graph has, by what a slot says. -/
def Graph.withEntries {N : Type} (graph : Graph N) (entrySlot : ℕ)
    (cases : List (BitVec 64 × N)) : Graph (Option N) where
  entry := none
  block
    | none =>
      ⟨[], .switch entrySlot (cases.map fun case => (case.1, some case.2)) (some graph.entry)⟩
    | some block => ⟨(graph.block block).body, (graph.block block).exit.map some⟩

/-- The cases of the dispatch: one more than a label, for each. -/
def entryCases (entries : List ℕ) : List (BitVec 64 × Option ℕ) :=
  entries.map fun id => (BitVec.ofNat 64 (id + 1), some id)

/-- The cases are added one by one. -/
def checkEntries (labels : List ℕ) : List ℕ → Except String Unit
  | [] => .ok ()
  | id :: entries =>
    if !getSlot id then .error "invalid JIT entry"
    else if id ∉ labels then .error "a JIT entry with no label"
    else checkEntries labels entries

/-- `bap_jit_compile_entries`, up to the graph and how many slots a state has to have.
`verificationErrors` is what LLVM says of a switch with two cases for one value. -/
def compileEntries (blockName : List Op → String) (verificationErrors : List ℕ → String)
    (ops : List Op) (entries : List ℕ) (entrySlot : ℕ) :
    Except String (Program × Graph (Option (Option ℕ)) × ℕ) :=
  if !getSlot entrySlot then .error "invalid JIT entry slot"
  else
    match compile blockName ops with
    | .error message => .error message
    | .ok program =>
      match checkEntries (labelsOf ops) entries with
      | .error message => .error message
      | .ok () =>
        if entries.Nodup then
          .ok (program, program.graph.withEntries entrySlot (entryCases entries),
            max program.maxSlot (entrySlot + 1))
        else .error ("invalid LLVM JIT module: " ++ verificationErrors entries)

/-- Where the operations of a program with entries start. -/
def entryOf (ops : List Op) (entries : List ℕ) (selected : BitVec 64) : List Op :=
  match entries.find? fun id => BitVec.ofNat 64 (id + 1) == selected with
  | some id => (afterLabel ops id).getD ops
  | none => ops

lemma checkEntries_ok {labels entries : List ℕ} (h : checkEntries labels entries = .ok ()) :
    ∀ id ∈ entries, id ∈ labels := by
  induction entries with
  | nil => simp
  | cons id entries ih =>
    rw [checkEntries] at h
    split_ifs at h with hslot hlabel
    intro id' hid'
    rcases List.mem_cons.mp hid' with rfl | hid'
    · exact hlabel
    · exact ih h id' hid'

/-- What it takes for a program with entries to be accepted. -/
lemma compileEntries_ok {blockName : List Op → String} {verificationErrors : List ℕ → String}
    {entries : List ℕ} {entrySlot : ℕ} {graph : Graph (Option (Option ℕ))} {slotCount : ℕ}
    (h : compileEntries blockName verificationErrors ops entries entrySlot =
      .ok (program, graph, slotCount)) :
    Compiled ops program ∧ (∀ id ∈ entries, id ∈ labelsOf ops) ∧
      graph = program.graph.withEntries entrySlot (entryCases entries) ∧
      slotCount = max program.maxSlot (entrySlot + 1) := by
  have hslot : getSlot entrySlot = true := by
    by_contra hslot
    rw [Bool.not_eq_true] at hslot
    simp [compileEntries, hslot] at h
  rw [compileEntries, hslot, if_neg (by simp)] at h
  cases hcompile : compile blockName ops with
  | error message => simp [hcompile] at h
  | ok compiled =>
    simp only [hcompile] at h
    cases hcheck : checkEntries (labelsOf ops) entries with
    | error message => simp [hcheck] at h
    | ok =>
      simp only [hcheck] at h
      have hnodup : entries.Nodup := by
        by_contra hnodup
        simp [hnodup] at h
      rw [if_pos hnodup] at h
      obtain ⟨rfl, rfl, rfl⟩ : compiled = program ∧ _ = graph ∧ _ = slotCount := by
        simpa using h
      exact ⟨compiled_of_compile hcompile, checkEntries_ok hcheck, rfl, rfl⟩

/-- **A program with entries returns as its operations do from the label that its slot says.** -/
theorem Compiled.alike_withEntries (h : Compiled ops program) {entries : List ℕ}
    (hentries : ∀ id ∈ entries, id ∈ labelsOf ops) {entrySlot : ℕ}
    (hcount : max program.maxSlot (entrySlot + 1) ≤ count) {native : Native W E}
    {machine : Machine W E} (hagrees : Agrees setup count start native machine) :
    Alike ((program.graph.withEntries entrySlot (entryCases entries)).step setup)
      (nextCfg setup ops) (SameReturn setup count start)
      ((program.graph.withEntries entrySlot (entryCases entries)).start native)
      (entryOf ops entries (machine.slots entrySlot), machine) := by
  have hslot : entrySlot < count := by omega
  have hmax : program.maxSlot ≤ count := by omega
  have hrenamed : ∀ block,
      (program.graph.withEntries entrySlot (entryCases entries)).block (some block) =
        ⟨(program.graph.block block).body, (program.graph.block block).exit.map some⟩ :=
    fun _ => rfl
  have hfind : ((entryCases entries).map fun case => (case.1, some case.2)).find?
        (fun case => case.1 == machine.slots entrySlot) =
      (entries.find? fun id => BitVec.ofNat 64 (id + 1) == machine.slots entrySlot).map
        fun id => (BitVec.ofNat 64 (id + 1), some (some id)) := by
    rw [entryCases, List.map_map, List.find?_map]
    rfl
  -- the first step goes to the block that the slot says
  cases hselected : entries.find? fun id => BitVec.ofNat 64 (id + 1) == machine.slots entrySlot with
  | none =>
    have hgraph := h.alike_graph hmax hagrees
    rw [entryOf, hselected]
    refine Alike.of_step ?_ (((alike_renamed hrenamed hgraph.safe).comp hgraph).mono ?_)
    · simp only [Graph.start, Graph.step, Graph.withEntries, Graph.leave, hagrees.load hslot,
        Option.bind_eq_bind, Option.bind_some, hfind, hselected]
      rfl
    · rintro result result' ⟨_, rfl, hreturn⟩
      exact hreturn
  | some id =>
    have hid := hentries id (List.mem_of_find?_eq_some hselected)
    obtain ⟨rest, hafter, hgraph⟩ := h.alike_graph_label hmax hagrees hid
    rw [entryOf, hselected]
    simp only [hafter, Option.getD_some]
    refine Alike.of_step ?_ (((alike_renamed hrenamed hgraph.safe).comp hgraph).mono ?_)
    · simp only [Graph.start, Graph.step, Graph.withEntries, Graph.leave, hagrees.load hslot,
        Option.bind_eq_bind, Option.bind_some, hfind, hselected]
      rfl
    · rintro result result' ⟨_, rfl, hreturn⟩
      exact hreturn

/-! ## A run of what is optimized -/

section Runs

variable {N : Type}

/-- `runMemoryObject` of a program that is optimized, for so many steps of its code. -/
def runOptimized (setup : Setup W E) (order : LogOrder) (graph : Graph N) (promotion : Promotion)
    (world : W) (filter : Option MemoryFilter) (state : List (BitVec 64)) (pages : PagedMemory)
    (fuel : ℕ) : Option ((BasicBlock N × Promoted W E) ⊕ After W E) :=
  if state.length < promotion.slotCount then
    some (.inr ⟨world, pages, filter,
      .error (setup.userError "JIT state has fewer slots than its program requires")⟩)
  else
    match promotion.enter ⟨state, none⟩ (Cells.start world filter pages) with
    | none => none
    | some promoted =>
      match run (promotion.step setup (promotion.homeIn ⟨state, none⟩) graph) fuel
        (graph.block graph.entry, promoted) with
      | none => none
      | some (.inl point) => some (.inl point)
      | some (.inr (next, promoted)) =>
        (finish order next ⟨promoted.homes.state, promoted.native.cells⟩).map .inr

/-- What a run of what is optimized leaves, as its operations have it: what they leave, but for
slots that aren't kept, and those that nothing stores to, which are as they were. -/
def LeavesKept (promotion : Promotion) (state : List (BitVec 64)) (start : PagedMemory)
    (after : After W E) (result : BitVec 64 × Machine W E) : Prop :=
  ∃ slots, Leaves state.length start after (result.1, { result.2 with slots := slots }) ∧
    (∀ slot < promotion.slotCount, promotion.readAfter slot = true →
      slots slot = result.2.slots slot) ∧
    ∀ slot, (slot < promotion.slotCount → promotion.written slot = true →
      promotion.readAfter slot = false) → slots slot = state.getD slot 0

variable {promotion : Promotion} {state : List (BitVec 64)} {pages : PagedMemory}

/-- In a run of its own every slot is in the state. -/
lemma Promotion.housed_state (h : promotion.slotCount ≤ state.length) :
    promotion.Housed (promotion.homeIn ⟨state, none⟩) ⟨state, none⟩ := by
  have hhome : promotion.homeIn ⟨state, none⟩ = Home.state := Promotion.home_false
  rw [hhome]
  refine ⟨fun slot hslot => ?_, fun a _ b _ heq => Home.state.inj heq⟩
  simpa [Homes.load] using lt_of_lt_of_le hslot h

/-- The copies agree with what the operations start with. -/
lemma Promotion.agrees_enter (h : promotion.slotCount ≤ state.length) (hpages : pages.WellFormed)
    (world : W) (filter : Option MemoryFilter) : ∃ promoted : Promoted W E,
      promotion.enter ⟨state, none⟩ (Cells.start world filter pages) = some promoted ∧
      Agrees setup promotion.slotCount pages promoted.native
        (Machine.start world filter state pages.byteAt) := by
  have hhome : promotion.homeIn ⟨state, none⟩ = Home.state := Promotion.home_false
  obtain ⟨copies, henter, hlength, hcopies⟩ :=
    (Promotion.housed_state h).enter_spec (Cells.start world filter pages : Cells W E)
  have hagrees : Agrees setup state.length pages ⟨state, Cells.start world filter pages⟩ _ :=
    agrees_start world filter state hpages
  refine ⟨_, henter, List.ext_getElem? fun slot => ?_, hagrees.inv, hagrees.abs, hagrees.owes⟩
  by_cases hslot : slot < promotion.slotCount
  · have hstate : slot < state.length := by omega
    rw [hcopies slot hslot, hhome]
    simp [Homes.load, Machine.start, hslot, hstate, List.getD]
  · rw [List.getElem?_eq_none (by simpa [hlength] using hslot)]
    simp [Nat.not_lt.mp hslot]

/-- Nothing is added to the state, or taken from it. -/
lemma Promotion.LeavesHome.length_state (h : promotion.slotCount ≤ state.length)
    {result : BitVec 64 × Promoted W E} {result' : BitVec 64 × Native W E}
    (hlength : result'.2.state.length = promotion.slotCount)
    (hleaves : promotion.LeavesHome Home.state ⟨state, none⟩ result result') :
    result.2.homes.state.length = state.length := by
  obtain ⟨-, -, honly, hhome⟩ := hleaves
  have hnone : ∀ slot : ℕ, result.2.homes.state[slot]? = none ↔ state[slot]? = none := by
    intro slot
    by_cases hgoes : promotion.GoesHome Home.state (.state slot)
    · obtain ⟨slot', hslot, -, hread, heq⟩ := hgoes
      obtain rfl := Home.state.inj heq
      have hat : result.2.homes.state[slot']? = result'.2.state[slot']? := hhome slot' hslot hread
      rw [hat, List.getElem?_eq_none_iff, List.getElem?_eq_none_iff]
      omega
    · have hsame : result.2.homes.state[slot]? = state[slot]? := honly (.state slot) hgoes
      rw [hsame]
  have hle := (hnone result.2.homes.state.length).mp (List.getElem?_eq_none le_rfl)
  have hge := (hnone state.length).mpr (List.getElem?_eq_none le_rfl)
  exact le_antisymm (List.getElem?_eq_none_iff.mp hge) (List.getElem?_eq_none_iff.mp hle)

/-- What is done after the call of what is optimized is defined, and leaves what is kept. -/
lemma finish_leavesHome (order : LogOrder) (h : promotion.slotCount ≤ state.length)
    {result : BitVec 64 × Promoted W E} {result' : BitVec 64 × Machine W E}
    (hleaves : Relation.Comp (promotion.LeavesHome Home.state ⟨state, none⟩)
      (SameReturn setup promotion.slotCount pages) result result') :
    ∃ after, finish order result.1 ⟨result.2.homes.state, result.2.native.cells⟩ = some after ∧
      LeavesKept promotion state pages after result' := by
  obtain ⟨⟨next, native⟩, hleaves, hnext, hagrees⟩ := hleaves
  obtain ⟨value, promoted⟩ := result
  obtain ⟨next', machine⟩ := result'
  obtain rfl : next = next' := hnext
  have hlength : native.state.length = promotion.slotCount := by
    have hstate : native.state = _ := hagrees.state
    simp [hstate]
  have hstate := hleaves.length_state h hlength
  obtain ⟨hvalue, hnative, honly, hhome⟩ := hleaves
  obtain rfl : value = next := hvalue
  obtain rfl : promoted.native = native := hnative
  -- the slots that it leaves are those of a machine
  have hagrees' : Agrees setup state.length pages
      ⟨promoted.homes.state, promoted.native.cells⟩
      { machine with slots := fun slot => promoted.homes.state.getD slot 0 } := by
    refine ⟨List.ext_getElem (by simpa using hstate) fun i hi _ => ?_, hagrees.inv, hagrees.abs,
      hagrees.owes⟩
    rw [List.getElem_map, List.getElem_range]
    exact (List.getD_eq_getElem _ 0 hi).symm
  obtain ⟨after, hafter, hspec⟩ := finish_spec order value hagrees'
  refine ⟨after, hafter, _, hspec, fun slot hslot hread => ?_, fun slot hslot => ?_⟩
  · have hat : promoted.homes.state[slot]? = promoted.native.state[slot]? :=
      hhome slot hslot hread
    have hload : promoted.native.state[slot]? = some (machine.slots slot) := hagrees.load hslot
    simp only [List.getD, hat, hload, Option.getD_some]
  · have hsame : promoted.homes.state[slot]? = state[slot]? := by
      refine honly (.state slot) ?_
      rintro ⟨slot', hslot', hwritten, hread, heq⟩
      obtain rfl := Home.state.inj heq
      rw [hslot hslot' hwritten] at hread
      simp at hread
    simp only [List.getD, hsame]

/-- **A run of what is optimized, on a state with as many slots as it requires, is never
undefined.  It is over if and only if the operations of its program return, and leaves what they
are to leave, of its slots those that are kept.** -/
theorem runOptimized_spec (order : LogOrder) {graph : Graph N}
    (hops : ∀ id, ∀ op ∈ (graph.block id).body, op ∈ promotion.ops)
    (hstate : promotion.slotCount ≤ state.length) (hpages : pages.WellFormed) (world : W)
    (filter : Option MemoryFilter) {first : List Op}
    (halike : ∀ native : Native W E, Agrees setup promotion.slotCount pages native
        (Machine.start world filter state pages.byteAt) →
      Alike (graph.step setup) (nextCfg setup ops) (SameReturn setup promotion.slotCount pages)
        (graph.start native) (first, Machine.start world filter state pages.byteAt)) :
    (∀ fuel, (runOptimized setup order graph promotion world filter state pages fuel).isSome) ∧
    (∀ fuel after,
      runOptimized setup order graph promotion world filter state pages fuel =
        some (.inr after) →
      ∃ result, Returns (nextCfg setup ops)
          (first, Machine.start world filter state pages.byteAt) result ∧
        LeavesKept promotion state pages after result) ∧
    ∀ result, Returns (nextCfg setup ops)
        (first, Machine.start world filter state pages.byteAt) result →
      ∃ fuel after,
        runOptimized setup order graph promotion world filter state pages fuel =
          some (.inr after) ∧ LeavesKept promotion state pages after result := by
  have hhome : promotion.homeIn ⟨state, none⟩ = Home.state := Promotion.home_false
  obtain ⟨promoted, henter, hagrees⟩ := Promotion.agrees_enter hstate hpages world filter
  have hgraph := halike promoted.native hagrees
  have hall := ((Promotion.housed_state hstate).alike hops henter hgraph.safe).comp hgraph
  rw [hhome] at hall
  simp only [runOptimized, if_neg (Nat.not_lt.mpr hstate), henter, hhome]
  refine ⟨fun fuel => ?_, fun fuel after hafter => ?_, fun result hreturns => ?_⟩
  · obtain ⟨x, hx⟩ := Option.isSome_iff_exists.mp (hall.safe fuel)
    rcases x with point | result
    · simp [hx]
    · obtain ⟨result', -, hleaves⟩ := hall.forth result ⟨fuel, hx⟩
      obtain ⟨after, hafter, -⟩ := finish_leavesHome order hstate hleaves
      simp [hx, hafter]
  · cases hx : run (promotion.step setup Home.state graph) fuel
      (graph.block graph.entry, promoted) with
    | none => simp [hx] at hafter
    | some x =>
      rcases x with point | result
      · simp [hx] at hafter
      · obtain ⟨result', hreturns, hleaves⟩ := hall.forth result ⟨fuel, hx⟩
        obtain ⟨after', hafter', hkept⟩ := finish_leavesHome order hstate hleaves
        obtain rfl : after' = after := by simpa [hx, hafter'] using hafter
        exact ⟨result', hreturns, hkept⟩
  · obtain ⟨result', ⟨fuel, hx⟩, hleaves⟩ := hall.back result hreturns
    obtain ⟨after, hafter, hkept⟩ := finish_leavesHome order hstate hleaves
    exact ⟨fuel, after, by simp [hx, hafter], hkept⟩

end Runs

/-- What a program is made for: its slots, and what it was told of them. -/
def Program.promotion (ops : List Op) (slotCount : ℕ) (kept variableNumbers : List ℕ)
    (flushSites : List Address) : Promotion where
  slotCount := slotCount
  ops := ops
  kept := some kept
  variableNumbers := some variableNumbers
  flushSites := flushSites

/-- A range of one block that goes back to itself: the way in counts, with a site that is
guarded. -/
def loopOps : List Op :=
  [.goto 5, .label 0, .branch 0 1 2, .label 2, .set 1 1, .jump 0x100,
    .label 1, .branch 2 3 4, .label 3, .set 1 0, .code 1 0x100, .goto 4,
    .label 4, .add 0 0 (BitVec.allOnes 64), .goto 5,
    .label 5, .add 3 3 (BitVec.allOnes 64), .branch 3 0 6, .label 6, .jump 0x200]

/-- **What `compileEntries` makes of a program, optimized, does what its operations do from the
label that its slot says.** -/
theorem compileEntries_run {blockName : List Op → String}
    {verificationErrors : List ℕ → String} {ops : List Op} {entries : List ℕ} {entrySlot : ℕ}
    {program : Program} {graph : Graph (Option (Option ℕ))} {slotCount : ℕ}
    (hcompile : compileEntries blockName verificationErrors ops entries entrySlot =
      .ok (program, graph, slotCount))
    (setup : Setup W E) (order : LogOrder) (kept variableNumbers : List ℕ)
    (flushSites : List Address) (world : W) (filter : Option MemoryFilter)
    {state : List (BitVec 64)} (hstate : slotCount ≤ state.length) {pages : PagedMemory}
    (hpages : pages.WellFormed) :
    let promotion := Program.promotion ops slotCount kept variableNumbers flushSites
    let machine := Machine.start world filter state pages.byteAt
    let first := entryOf ops entries (state.getD entrySlot 0)
    (∀ fuel, (runOptimized setup order graph promotion world filter state pages fuel).isSome) ∧
    (∀ fuel after,
      runOptimized setup order graph promotion world filter state pages fuel =
        some (.inr after) →
      ∃ result, Returns (nextCfg setup ops) (first, machine) result ∧
        LeavesKept promotion state pages after result) ∧
    ∀ result, Returns (nextCfg setup ops) (first, machine) result →
      ∃ fuel after,
        runOptimized setup order graph promotion world filter state pages fuel =
          some (.inr after) ∧ LeavesKept promotion state pages after result := by
  intro promotion machine first
  obtain ⟨hcompiled, hentries, rfl, rfl⟩ := compileEntries_ok hcompile
  refine runOptimized_spec order (fun id op hop => ?_) hstate hpages world filter
    fun native hagrees => hcompiled.alike_withEntries hentries le_rfl hagrees
  cases id with
  | none => simp [Graph.withEntries] at hop
  | some id => exact hcompiled.mem_body hop

theorem compileEntries_run_loopOps :
    let graph := (programOf loopOps).graph.withEntries 4 (entryCases [5, 4])
    let promotion := Program.promotion loopOps 5 [0, 1, 3] [] []
    let machine := Machine.start 0 none [9, 0, 1, 5, 6] Memory.empty.state.byteAt
    ∀ result, Returns (nextCfg countingSetup loopOps)
        ([.add 3 3 (BitVec.allOnes 64), .branch 3 0 6, .label 6, .jump 0x200], machine) result →
      ∃ fuel after, runOptimized countingSetup keptOrder graph promotion 0 none [9, 0, 1, 5, 6]
          Memory.empty.state fuel = some (.inr after) ∧
        LeavesKept promotion [9, 0, 1, 5, 6] Memory.empty.state after result := by
  intro graph promotion machine result hreturns
  exact (compileEntries_run (show compileEntries (fun _ => "") (fun _ => "") loopOps [5, 4] 4 =
      .ok (programOf loopOps, graph, 5) from rfl)
    countingSetup keptOrder [0, 1, 3] [] [] 0 none (show 5 ≤ [9, 0, 1, 5, 6].length from by decide)
    Memory.empty.wf).2.2 result hreturns

end BapNative.Jit
