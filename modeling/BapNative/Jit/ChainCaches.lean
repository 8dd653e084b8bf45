import BapNative.Jit.Turns

/-!
# What a chain remembers

The chain of `native/bap_jit.cpp` runs its ranges as they are to run in turn.  What it remembers
is of three kinds: where an entry went last and what is there, that what an entry needs was found
bound in this run, and that what an entry always writes was said in this run.  Each is as good as
looking again.  The first is, as an entry that goes is forgotten by all the others.  The other two
are, as what is bound or written stays so to the end of a run, and the next run has another
number.
-/

namespace BapNative.Jit

open Lockstep PagedMemory

variable {W E P : Type}

/-! ## What is said of the variables -/

namespace Variables

/-- What is bound stays bound, and what was written stays written. -/
structure Grows (vars vars' : Variables) : Prop where
  written : ∀ var, vars.mark var = 2 → vars'.mark var = 2
  bound : ∀ var, vars.mark var ≠ 0 → vars'.mark var ≠ 0

lemma Grows.refl (vars : Variables) : vars.Grows vars := ⟨fun _ => id, fun _ => id⟩

lemma Grows.trans {vars vars' vars'' : Variables} (h : vars.Grows vars')
    (h' : vars'.Grows vars'') : vars.Grows vars'' :=
  ⟨fun var hvar => h'.written var (h.written var hvar),
    fun var hvar => h'.bound var (h.bound var hvar)⟩

variable {vars vars' : Variables}

/-- Binding a variable writes none. -/
lemma Even.bind (h : vars.Even) {binding : BitVec 64 × BitVec 64}
    (hbind : vars.bind binding = some vars') :
    vars'.Even ∧ vars'.dirty = vars.dirty ∧
      (∀ var, vars'.mark var = 2 → vars.mark var = 2) ∧
      vars.registers.length ≤ vars'.registers.length := by
  simp only [Variables.bind, Option.bind_eq_bind, Option.bind_eq_some_iff] at hbind
  obtain ⟨registers, hregisters, bound, hbound, hsome⟩ := hbind
  obtain rfl := Option.some.inj hsome
  obtain ⟨-, rfl⟩ := put_eq_some_iff.mp hregisters
  obtain ⟨hlt, rfl⟩ := put_eq_some_iff.mp hbound
  obtain ⟨heven, hmark, -, hdirty, hle⟩ := h.ensure hlt
  refine ⟨by simpa [Even] using heven, hdirty, fun var hvar => ?_, by simpa using hle⟩
  simp only [mark, getD_set hlt] at hvar
  split_ifs at hvar
  · simp at hvar
  · rw [← hmark]
    exact hvar

lemma Even.bind_isSome (h : vars.Even) {binding : BitVec 64 × BitVec 64}
    (hvar : binding.1.toNat + 1 < 2 ^ 64) : ∃ vars', vars.bind binding = some vars' := by
  have hlt := h.lt_ensure hvar
  have hlt' := hlt
  rw [← (h.ensure hlt).1] at hlt'
  simp [Variables.bind, put, hlt, hlt']

lemma Even.grows_write (h : vars.Even) {var : ℕ} {value : Option (BitVec 64)}
    (hwrite : vars.write var value = some vars') : vars.Grows vars' := by
  obtain ⟨-, hmark, -⟩ := h.write hwrite
  constructor
  · intro other hother
    rw [hmark, Function.update_apply]
    split_ifs
    · rfl
    · exact hother
  · intro other hother
    rw [hmark, Function.update_apply]
    split_ifs
    · exact two_ne_zero
    · exact hother

lemma Even.lt_of_mark (h : vars.Even) {var : ℕ} (hmark : vars.mark var ≠ 0) :
    var < vars.bound.length ∧ var < vars.registers.length := by
  have hbound : var < vars.bound.length := by
    by_contra hout
    exact hmark (List.getD_eq_default _ _ (Nat.not_lt.mp hout))
  exact ⟨hbound, h.symm ▸ hbound⟩

/-- What was said to be written needn't be said again. -/
lemma Even.write_none (h : vars.Even) {var : ℕ} (hmark : vars.mark var = 2) :
    vars.write var none = some vars := by
  obtain ⟨hbound, hregisters⟩ := h.lt_of_mark (hmark ▸ two_ne_zero)
  have hget : vars.bound[var] = 2 := by
    rw [← List.getD_eq_getElem vars.bound 0 hbound]
    exact hmark
  have hset : vars.bound.set var 2 = vars.bound := by
    rw [← hget]
    exact List.set_getElem_self hbound
  simp [Variables.write, Variables.ensure, hold, put, Nat.not_le.mpr hregisters, hbound, hget,
    hset]

/-! ## The variables that were written -/

/-- The variables that were written are listed once each, by numbers that a word can say. -/
structure Listed (vars : Variables) : Prop where
  even : vars.Even
  nodup : vars.dirty.Nodup
  mem_iff : ∀ var, var ∈ vars.dirty ↔ vars.mark var = 2
  small : ∀ var ∈ vars.dirty, var < 2 ^ 64

lemma Listed.write (h : vars.Listed) {var : ℕ} (hvar : var < 2 ^ 64)
    {value : Option (BitVec 64)} (hwrite : vars.write var value = some vars') :
    vars'.Listed := by
  obtain ⟨heven, hmark, -, hdirty, -⟩ := h.even.write hwrite
  refine ⟨heven, ?_, fun other => ?_, fun other hother => ?_⟩
  · rw [hdirty]
    split_ifs with htwo
    · exact h.nodup
    · rw [List.nodup_append]
      refine ⟨h.nodup, List.nodup_singleton _, fun a ha b hb => ?_⟩
      rw [List.mem_singleton.mp hb]
      rintro rfl
      exact htwo ((h.mem_iff a).mp ha)
  · rw [hdirty, hmark, Function.update_apply]
    by_cases htwo : vars.mark var = 2 <;> by_cases hsame : other = var
    · simp [hsame, h.mem_iff, htwo]
    · simp [hsame, h.mem_iff, htwo]
    · simp [hsame, htwo]
    · simp [hsame, h.mem_iff, htwo]
  · rw [hdirty] at hother
    split_ifs at hother with htwo
    · exact h.small other hother
    · rcases List.mem_append.mp hother with hother | hother
      · exact h.small other hother
      · rw [List.mem_singleton.mp hother]
        exact hvar

lemma Listed.registers (h : vars.Listed) {registers : List (BitVec 64)}
    (hlength : registers.length = vars.registers.length) :
    { vars with registers := registers }.Listed :=
  ⟨hlength.trans h.even, h.nodup, h.mem_iff, h.small⟩

/-- Each of them can be said. -/
lemma Listed.mapM_said (h : vars.Listed) : vars.dirty.mapM vars.said =
    some (vars.dirty.map fun var => [BitVec.ofNat 64 var, vars.value var]) := by
  have hall : ∀ var ∈ vars.dirty, vars.said var =
      some [BitVec.ofNat 64 var, vars.value var] := by
    intro var hvar
    have hlt := (h.even.lt_of_mark (((h.mem_iff var).mp hvar) ▸ two_ne_zero)).2
    rw [said, value, List.getD_eq_getElem _ _ hlt, List.getElem?_eq_getElem hlt]
    rfl
  generalize vars.dirty = dirty at hall
  induction dirty with
  | nil => rfl
  | cons var dirty ih =>
    rw [List.mapM_cons, hall var List.mem_cons_self,
      ih fun other hother => hall other (List.mem_cons_of_mem _ hother)]
    rfl

/-- Variables of which none was written, with room for some. -/
structure Unwritten (count : ℕ) (vars : Variables) : Prop where
  even : vars.Even
  dirty : vars.dirty = []
  marks : ∀ var, vars.mark var ≠ 2
  count : count ≤ vars.registers.length

lemma Unwritten.bind {count : ℕ} (h : vars.Unwritten count)
    {binding : BitVec 64 × BitVec 64} (hbind : vars.bind binding = some vars') :
    vars'.Unwritten count := by
  obtain ⟨heven, hdirty, hmark, hle⟩ := h.even.bind hbind
  exact ⟨heven, hdirty.trans h.dirty, fun var hvar => h.marks var (hmark var hvar),
    h.count.trans hle⟩

/-- There are all the numbers of variables before any is bound. -/
lemma unwritten_ensure (variableCount : BitVec 64) :
    (if variableCount ≠ 0 then
      (⟨[], [], []⟩ : Variables).ensure (variableCount.toNat - 1) else ⟨[], [], []⟩).Unwritten
        variableCount.toNat := by
  have hempty : (⟨[], [], []⟩ : Variables).Even := rfl
  split_ifs with hzero
  · have hpos : variableCount.toNat ≠ 0 := fun h0 => hzero (BitVec.eq_of_toNat_eq h0)
    have hlt := hempty.lt_ensure (show variableCount.toNat - 1 + 1 < 2 ^ 64 by omega)
    obtain ⟨heven, hmark, -, hdirty, -⟩ := hempty.ensure hlt
    refine ⟨heven, hdirty, fun var => by rw [hmark]; simp [mark], ?_⟩
    rw [heven]
    omega
  · obtain rfl := not_not.mp hzero
    exact ⟨hempty, rfl, fun var => by simp [mark], Nat.zero_le _⟩

/-- The variables at the start, of which none was written. -/
lemma listed_start {variableCount : BitVec 64} {bindings : List (BitVec 64 × BitVec 64)}
    (hstart : start variableCount bindings = some vars) :
    vars.Listed ∧ variableCount.toNat ≤ vars.registers.length := by
  obtain ⟨heven, hdirty, hmarks, hcount⟩ :=
    foldlM_keeps (fun _ _ _ _ h => h.bind) (unwritten_ensure variableCount) hstart
  refine ⟨⟨heven, ?_, fun var => ?_, ?_⟩, hcount⟩
  · simp [hdirty]
  · simp [hdirty, hmarks]
  · simp [hdirty]

/-- There are variables at the start, unless one has the last number that there is. -/
lemma start_isSome (variableCount : BitVec 64) {bindings : List (BitVec 64 × BitVec 64)}
    (hbindings : ∀ binding ∈ bindings, binding.1.toNat + 1 < 2 ^ 64) :
    ∃ vars, start variableCount bindings = some vars := by
  obtain ⟨vars, hstart, -⟩ := foldlM_isSome
    (fun vars binding hmem (h : vars.Unwritten variableCount.toNat) => by
      obtain ⟨vars', hbind⟩ := h.even.bind_isSome (hbindings binding hmem)
      exact ⟨vars', hbind, h.bind hbind⟩) (unwritten_ensure variableCount)
  exact ⟨vars, hstart⟩

end Variables

namespace Output

variable {vars vars' : Variables} {output : Output} {state : List (BitVec 64)} {copy : Bool}

lemma cases_of_take (htake : output.take state copy vars = some vars') :
    (output.reached state = some false ∧ vars' = vars) ∨
      (output.reached state = some true ∧ ∃ value, vars.write output.var value = some vars') := by
  simp only [take, Option.bind_eq_bind, Option.bind_eq_some_iff] at htake
  obtain ⟨reached, hreached, htake⟩ := htake
  cases reached with
  | false => exact .inl ⟨hreached, (Option.some.inj htake).symm⟩
  | true =>
    cases copy with
    | false => exact .inr ⟨hreached, none, htake⟩
    | true =>
      obtain ⟨value, -, hvalue⟩ := Option.bind_eq_some_iff.mp htake
      exact .inr ⟨hreached, _, hvalue⟩

lemma grows_of_take (h : vars.Even) (htake : output.take state copy vars = some vars') :
    vars'.Even ∧ vars.Grows vars' ∧ (output.flag = none → vars'.mark output.var = 2) := by
  rcases cases_of_take htake with ⟨hreached, rfl⟩ | ⟨-, value, hwrite⟩
  · refine ⟨h, .refl _, fun hflag => ?_⟩
    simp [Output.reached, hflag] at hreached
  · obtain ⟨heven, hmark, -⟩ := h.write hwrite
    refine ⟨heven, h.grows_write hwrite, fun _ => ?_⟩
    rw [hmark, Function.update_self]

/-- An output that is always written, and was said to be, says nothing more. -/
lemma take_false_of_mark (h : vars.Even) (hflag : output.flag = none)
    (hmark : vars.mark output.var = 2) : output.take state false vars = some vars := by
  have hwrite := h.write_none hmark
  simp [take, Output.reached, hflag, hwrite]

end Output

section TakeAll

variable {vars vars' : Variables} {outputs : List Output} {state : List (BitVec 64)} {copy : Bool}

lemma takeAll_cons (output : Output) :
    takeAll (output :: outputs) state copy vars =
      (output.take state copy vars).bind (takeAll outputs state copy) := by
  simp only [takeAll, List.foldlM_cons]
  rfl

lemma grows_of_takeAll (h : vars.Even) (htake : takeAll outputs state copy vars = some vars') :
    vars'.Even ∧ vars.Grows vars' ∧
      ∀ output ∈ outputs, output.flag = none → vars'.mark output.var = 2 := by
  induction outputs generalizing vars with
  | nil =>
    obtain rfl : vars = vars' := by simpa [takeAll] using htake
    exact ⟨h, .refl _, by simp⟩
  | cons output outputs ih =>
    rw [takeAll_cons, Option.bind_eq_some_iff] at htake
    obtain ⟨between, hfirst, hrest⟩ := htake
    obtain ⟨heven, hgrows, hsaid⟩ := Output.grows_of_take h hfirst
    obtain ⟨heven', hgrows', hsaid'⟩ := ih heven hrest
    refine ⟨heven', hgrows.trans hgrows', fun other hother hflag => ?_⟩
    rcases List.mem_cons.mp hother with rfl | hother
    · exact hgrows'.written _ (hsaid hflag)
    · exact hsaid' other hother hflag

/-- **Those with a flag are enough, once the others were said to be written.** -/
theorem takeAll_flagged (h : vars.Even)
    (hsaid : ∀ output ∈ outputs, output.flag = none → vars.mark output.var = 2) :
    takeAll (outputs.filter fun output => output.flag.isSome) state false vars =
      takeAll outputs state false vars := by
  induction outputs generalizing vars with
  | nil => rfl
  | cons output outputs ih =>
    have hrest : ∀ other ∈ outputs, other.flag = none → vars.mark other.var = 2 :=
      fun other hother => hsaid other (List.mem_cons_of_mem _ hother)
    cases hflag : output.flag with
    | none =>
      -- it is marked already, and to mark it again changes nothing
      rw [List.filter_cons_of_neg (by simp [hflag]), takeAll_cons,
        Output.take_false_of_mark h hflag (hsaid output List.mem_cons_self hflag), ih h hrest]
      rfl
    | some flag =>
      rw [List.filter_cons_of_pos (by simp [hflag]), takeAll_cons, takeAll_cons]
      refine Option.bind_congr fun between hbetween => ?_
      obtain ⟨heven, hgrows, -⟩ := Output.grows_of_take h hbetween
      exact ih heven fun other hother hnone => hgrows.written _ (hrest other hother hnone)

end TakeAll

/-- A range that is called with registers, or without any, leaves as many to the chain. -/
lemma ChainProgram.length_registers (program : ChainProgram W E) {state : List (BitVec 64)}
    {registers : List (BitVec 64)} {direct : Bool} {cells cells' : Cells W E} {next : BitVec 64}
    {homes : Homes}
    (h : program.function ⟨state, if direct then some registers else none⟩ cells =
      some (next, homes, cells')) :
    (homes.registers.getD registers).length = registers.length := by
  obtain ⟨-, hregisters⟩ := program.sameSize _ _ _ _ _ h
  cases direct with
  | true =>
    simp only [if_true, Option.map_some] at hregisters
    obtain ⟨registers', hsome, hlength⟩ := Option.map_eq_some_iff.mp hregisters
    rw [hsome, Option.getD_some, hlength]
  | false =>
    simp only [Bool.false_eq_true, if_false, Option.map_none, Option.map_eq_none_iff] at hregisters
    rw [hregisters, Option.getD_none]

/-! ## Chains whose pointers are to what is there -/

/-- What an entry is, but for what it remembers and counts. -/
def ChainEntry.ranged (entry : ChainEntry P) : Ranged P :=
  ⟨entry.range, entry.executions, entry.optimizeAt⟩

namespace Chain

/-- What there is at the addresses of a chain. -/
def ranges (chain : Chain P) (pc : Address) : Option (Ranged P) :=
  (chain.find pc).map ChainEntry.ranged

variable {programs : P → ChainProgram W E}

/-- What is so of an entry between runs: what it remembers of another is where that is, what it
remembers of a run is of one that was, and nothing is left of what a run did of it. -/
structure Kept (programs : P → ChainProgram W E) (entries : Address → Option ℕ) (run : ℕ)
    (entry : ChainEntry P) : Prop where
  target : ∀ target, entry.lastTarget = some target → entries entry.lastNext = some target
  said : entry.outputsSaid ≤ run
  ready : entry.readyIn ≤ run
  range : entry.range.WellFormed (programs entry.range.program).maxSlot
  direct : entry.range.direct = (programs entry.range.program).direct
  executions : entry.executions < 2 ^ 64
  touched : entry.touched = false
  runs : entry.runs = 0
  executed : entry.executed = 0

/-- A chain between runs: every address that has an entry has one of its own, which is there. -/
structure Coherent (programs : P → ChainProgram W E) (chain : Chain P) : Prop where
  apart : ∀ pc pc' node, chain.entries pc = some node → chain.entries pc' = some node → pc = pc'
  old : ∀ pc node, chain.entries pc = some node → node < chain.fresh
  entry : ∀ pc node, chain.entries pc = some node →
    ∃ entry, chain.nodes node = some entry ∧ Kept programs chain.entries chain.run entry

variable {chain : Chain P}

lemma coherent_new : (Chain.new : Chain P).Coherent programs := by
  constructor <;> simp [Chain.new]

lemma coherent_clear (chain : Chain P) : chain.clear.Coherent programs := by
  constructor <;> simp [Chain.clear]

lemma ranges_of_entries (chain : Chain P) {pc : Address} {node : ℕ} {entry : ChainEntry P}
    (h : chain.entries pc = some node) (hentry : chain.nodes node = some entry) :
    chain.ranges pc = some entry.ranged := by
  rw [ranges, find, h, Option.bind_some, hentry, Option.map_some]

lemma ranges_of_entries_none (chain : Chain P) {pc : Address} (h : chain.entries pc = none) :
    chain.ranges pc = none := by
  rw [ranges, find, h, Option.bind_none, Option.map_none]

/-- An entry is changed, and the others stay as they are. -/
lemma nodes_modify (chain : Chain P) (node : ℕ) (f : ChainEntry P → ChainEntry P) (other : ℕ) :
    (chain.modify node f).nodes other =
      if other = node then (chain.nodes node).map f else chain.nodes other :=
  Function.update_apply chain.nodes node ((chain.nodes node).map f) other

lemma Coherent.modify (h : chain.Coherent programs) {node : ℕ}
    {f : ChainEntry P → ChainEntry P} (hf : ∀ entry, Kept programs chain.entries chain.run entry →
      Kept programs chain.entries chain.run (f entry)) :
    (chain.modify node f).Coherent programs := by
  refine ⟨h.apart, h.old, fun pc other hother => ?_⟩
  obtain ⟨entry, hentry, hkept⟩ := h.entry pc other hother
  rw [nodes_modify]
  split_ifs with hsame
  · subst hsame
    exact ⟨f entry, by rw [hentry, Option.map_some], hf entry hkept⟩
  · exact ⟨entry, hentry, hkept⟩

/-- What is at an address is what there was before, where nothing is changed. -/
lemma Coherent.ranges_congr (h : chain.Coherent programs) {chain' : Chain P} {pc : Address}
    (hentries : chain'.entries pc = chain.entries pc)
    (hnodes : ∀ node, chain.entries pc = some node →
      (chain'.nodes node).map ChainEntry.ranged = (chain.nodes node).map ChainEntry.ranged) :
    chain'.ranges pc = chain.ranges pc := by
  cases hpc : chain.entries pc with
  | none =>
    rw [chain.ranges_of_entries_none hpc, chain'.ranges_of_entries_none (hentries.trans hpc)]
  | some node =>
    obtain ⟨entry, hentry, -⟩ := h.entry pc node hpc
    have hmap := hnodes node hpc
    rw [hentry, Option.map_some] at hmap
    obtain ⟨entry', hentry', hsame⟩ := Option.map_eq_some_iff.mp hmap
    rw [chain.ranges_of_entries hpc hentry,
      chain'.ranges_of_entries (hentries.trans hpc) hentry', hsame]

/-- What is at an address whose entry is changed is what it is changed to. -/
lemma Coherent.ranges_modify (h : chain.Coherent programs) {pc : Address} {node : ℕ}
    {entry : ChainEntry P} (hpc : chain.entries pc = some node)
    (hentry : chain.nodes node = some entry) (f : ChainEntry P → ChainEntry P) :
    (chain.modify node f).ranges = Function.update chain.ranges pc (some (f entry).ranged) := by
  ext1 other
  rw [Function.update_apply]
  split_ifs with hsame
  · subst hsame
    refine ranges_of_entries (chain.modify node f) hpc ?_
    rw [nodes_modify, if_pos rfl, hentry, Option.map_some]
  · refine h.ranges_congr rfl fun node' hother => ?_
    have hne : node' ≠ node := fun heq => hsame (h.apart other pc node (heq ▸ hother) hpc)
    rw [nodes_modify, if_neg hne]

/-- **`bap_jit_chain_optimizing` says when a range is to be optimized, and nothing else.** -/
theorem Coherent.optimizing (h : chain.Coherent programs) (pc : Address)
    (executions : BitVec 64) :
    (chain.optimizing pc executions).Coherent programs ∧
      (chain.optimizing pc executions).ranges = Function.update chain.ranges pc
        ((chain.ranges pc).map fun ranged => { ranged with
          optimizeAt := optional (BitVec.ofNat 64 ranged.executions + executions) }) := by
  rw [Chain.optimizing]
  cases hpc : chain.entries pc with
  | none =>
    refine ⟨h, ?_⟩
    have hnone := chain.ranges_of_entries_none hpc
    rw [hnone, Option.map_none, ← hnone, Function.update_eq_self]
  | some node =>
    refine ⟨h.modify fun entry hkept => ⟨hkept.target, hkept.said, hkept.ready, hkept.range,
      hkept.direct, hkept.executions, hkept.touched, hkept.runs, hkept.executed⟩, ?_⟩
    obtain ⟨entry, hentry, -⟩ := h.entry pc node hpc
    rw [chain.ranges_of_entries hpc hentry, Option.map_some]
    exact h.ranges_modify hpc hentry _

/-- The chain with another entry at an address that has none. -/
lemma Coherent.emplace (h : chain.Coherent programs) {pc : Address}
    (hpc : chain.entries pc = none) {entry : ChainEntry P}
    (hkept : ∀ entries, Kept programs entries chain.run entry) :
    (chain.emplace pc entry).Coherent programs ∧
      (chain.emplace pc entry).ranges = Function.update chain.ranges pc (some entry.ranged) := by
  have hentries : ∀ other, other ≠ pc →
      (chain.emplace pc entry).entries other = chain.entries other := by
    intro other hother
    exact Function.update_of_ne hother _ _
  have hself : (chain.emplace pc entry).entries pc = some chain.fresh := Function.update_self ..
  have hnode : (chain.emplace pc entry).nodes chain.fresh = some entry := Function.update_self ..
  have hnodes : ∀ other node, chain.entries other = some node →
      (chain.emplace pc entry).nodes node = chain.nodes node := by
    intro other node hother
    exact Function.update_of_ne (h.old other node hother).ne _ _
  refine ⟨⟨?_, ?_, ?_⟩, ?_⟩
  · intro one other node hone hother
    -- what is put where nothing was yet is at no other address
    by_cases h1 : one = pc <;> by_cases h2 : other = pc
    · rw [h1, h2]
    · subst h1
      rw [hself] at hone
      rw [hentries other h2] at hother
      have := h.old other node hother
      have := Option.some.inj hone
      omega
    · subst h2
      rw [hself] at hother
      rw [hentries one h1] at hone
      have := h.old one node hone
      have := Option.some.inj hother
      omega
    · rw [hentries one h1] at hone
      rw [hentries other h2] at hother
      exact h.apart one other node hone hother
  · intro other node hother
    by_cases hsame : other = pc
    · rw [hsame, hself] at hother
      obtain rfl := Option.some.inj hother
      exact Nat.lt_succ_self _
    · rw [hentries other hsame] at hother
      exact Nat.lt_succ_of_lt (h.old other node hother)
  · intro other node hother
    by_cases hsame : other = pc
    · rw [hsame, hself] at hother
      obtain rfl := Option.some.inj hother
      exact ⟨entry, hnode, hkept _⟩
    · rw [hentries other hsame] at hother
      obtain ⟨old, hold, hbefore⟩ := h.entry other node hother
      refine ⟨old, (hnodes other node hother).trans hold,
        { hbefore with target := fun target hlast => ?_ }⟩
      -- where it went last is not where there was nothing
      have hthere := hbefore.target target hlast
      have hne : old.lastNext ≠ pc := by
        intro heq
        rw [heq, hpc] at hthere
        simp at hthere
      rw [hentries old.lastNext hne, hthere]
  · ext1 other
    rw [Function.update_apply]
    split_ifs with hsame
    · rw [hsame]
      exact ranges_of_entries _ hself hnode
    · exact h.ranges_congr (hentries other hsame) fun node hother => by
        rw [hnodes other node hother]

/-- The chain without an entry, which nothing remembers. -/
lemma Coherent.remove (h : chain.Coherent programs) {pc : Address} {node : ℕ}
    (hpc : chain.entries pc = some node) :
    (chain.remove pc node).Coherent programs ∧
      (chain.remove pc node).ranges = Function.update chain.ranges pc none := by
  have hentries : ∀ other, other ≠ pc →
      (chain.remove pc node).entries other = chain.entries other := by
    intro other hother
    exact Function.update_of_ne hother _ _
  have hself : (chain.remove pc node).entries pc = none := Function.update_self ..
  have hnodes : ∀ other node', other ≠ pc → chain.entries other = some node' →
      (chain.remove pc node).nodes node' =
        (chain.nodes node').map fun entry => { entry with lastTarget := none } := by
    intro other node' hne hother
    have hapart : node' ≠ node := fun heq => hne (h.apart other pc node (heq ▸ hother) hpc)
    simp only [Chain.remove, Function.update_of_ne hapart]
  refine ⟨⟨?_, ?_, ?_⟩, ?_⟩
  · intro one other node' hone hother
    by_cases h1 : one = pc
    · simp [h1, hself] at hone
    by_cases h2 : other = pc
    · simp [h2, hself] at hother
    rw [hentries one h1] at hone
    rw [hentries other h2] at hother
    exact h.apart one other node' hone hother
  · intro other node' hother
    by_cases hsame : other = pc
    · simp [hsame, hself] at hother
    rw [hentries other hsame] at hother
    exact h.old other node' hother
  · intro other node' hother
    by_cases hsame : other = pc
    · simp [hsame, hself] at hother
    rw [hentries other hsame] at hother
    obtain ⟨old, hold, hbefore⟩ := h.entry other node' hother
    -- it has forgotten where it went last, whether that is gone or not
    refine ⟨{ old with lastTarget := none }, ?_, ?_⟩
    · rw [hnodes other node' hsame hother, hold, Option.map_some]
    · exact { hbefore with target := fun target hlast => by simp at hlast }
  · ext1 other
    rw [Function.update_apply]
    split_ifs with hsame
    · rw [hsame]
      exact ranges_of_entries_none _ hself
    · refine h.ranges_congr (hentries other hsame) fun node' hother => ?_
      rw [hnodes other node' hsame hother, Option.map_map]
      rfl

/-- **`bap_jit_chain_add` puts the range that it reads at its address, where no entry remembers
what was there before, and refuses what it doesn't take.** -/
theorem Coherent.add (h : chain.Coherent programs) (pc : Address) (id : BitVec 64) (program : P)
    (words : List (BitVec 64)) :
    match ChainData.read words (programs program).maxSlot with
    | .error message => chain.add programs pc id program words = .error message
    | .ok data => ∃ chain', chain.add programs pc id program words = .ok chain' ∧
        chain'.Coherent programs ∧
        chain'.ranges = Function.update chain.ranges pc
          (some ⟨data.range program id (programs program).direct, data.executions.toNat,
            optional data.optimizeAt⟩) := by
  cases hread : ChainData.read words (programs program).maxSlot with
  | error message => simp only [Chain.add, hread]
  | ok data =>
    have hkept : ∀ entries run, Kept programs entries run (entryOf programs program id data) :=
      fun entries run => ⟨fun _ hlast => absurd hlast (by simp [entryOf]), Nat.zero_le _,
        Nat.zero_le _, ChainData.wellFormed_of_valid (ChainData.read_ok hread).2 program id _, rfl,
        data.executions.isLt, rfl, rfl, rfl⟩
    simp only [Chain.add, hread]
    cases hpc : chain.entries pc with
    | none =>
      obtain ⟨hcoherent, hranges⟩ := h.emplace hpc fun entries => hkept entries chain.run
      exact ⟨_, rfl, hcoherent, hranges⟩
    | some node =>
      obtain ⟨hremoved, hranges⟩ := h.remove hpc
      have hnone : (chain.remove pc node).entries pc = none := Function.update_self ..
      obtain ⟨hcoherent, hranges'⟩ := hremoved.emplace hnone fun entries => hkept entries chain.run
      refine ⟨_, rfl, hcoherent, ?_⟩
      rw [hranges', hranges, Function.update_idem]
      rfl

end Chain

end BapNative.Jit
