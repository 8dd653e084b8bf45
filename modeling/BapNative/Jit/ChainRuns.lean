import BapNative.Jit.ChainCaches

/-!
# Runs of a chain

A run of `bap_jit_run_chain` goes from range to range as the turns do.  Its entries are changed in
place, by what they remember and what they count, and are otherwise those that there were before.
-/

namespace BapNative.Jit

open Lockstep PagedMemory

variable {W E P : Type}

/-! ## The entries of a chain within a run -/

/-- What is counted of an entry is what ran at its address. -/
structure Counted (ran : List (Address × ℕ)) (pc : Address) (old entry : ChainEntry P) :
    Prop where
  range : entry.range = old.range
  optimizeAt : entry.optimizeAt = old.optimizeAt
  executions : entry.executions = old.ranged.executionsAfter ran pc
  touched : entry.touched = decide (pc ∈ ran.map Prod.fst)
  runs : entry.runs = runsAt ran pc
  executed : entry.executed = executedAt ran pc

/-- What an entry remembers is so: another is where it is remembered to be, and what it always
writes was written, or what it needs is bound, if that was found in this run. -/
structure Remembers (entries : Address → Option ℕ) (run : ℕ) (vars : Variables)
    (entry : ChainEntry P) : Prop where
  target : ∀ target, entry.lastTarget = some target → entries entry.lastNext = some target
  said : entry.outputsSaid ≤ run
  ready : entry.readyIn ≤ run
  outputs : entry.outputsSaid = run →
    ∀ output ∈ entry.range.outputs, output.flag = none → vars.mark output.var = 2
  required : entry.readyIn = run → ∀ var ∈ entry.range.required, vars.mark var ≠ 0

lemma Remembers.grows {entries : Address → Option ℕ} {run : ℕ} {vars vars' : Variables}
    {entry : ChainEntry P} (h : Remembers entries run vars entry) (hgrows : vars.Grows vars') :
    Remembers entries run vars' entry :=
  { h with
    outputs := fun hrun output houtput hflag =>
      hgrows.written _ (h.outputs hrun output houtput hflag)
    required := fun hrun var hvar => hgrows.bound _ (h.required hrun var hvar) }

/-- A chain within a run, of which there is what ran so far. -/
structure Within (before : Chain P) (ran : List (Address × ℕ)) (vars : Variables)
    (chain : Chain P) : Prop where
  entries : chain.entries = before.entries
  fresh : chain.fresh = before.fresh
  run : chain.run = before.run + 1
  entry : ∀ pc node old, before.entries pc = some node → before.nodes node = some old →
    ∃ entry, chain.nodes node = some entry ∧ Counted ran pc old entry ∧
      Remembers before.entries (before.run + 1) vars entry

namespace Within

variable {programs : P → ChainProgram W E} {before chain : Chain P} {ran : List (Address × ℕ)}
  {vars vars' : Variables}

lemma grows (h : Within before ran vars chain) (hgrows : vars.Grows vars') :
    Within before ran vars' chain := by
  refine ⟨h.entries, h.fresh, h.run, fun pc node old hpc hold => ?_⟩
  obtain ⟨entry, hentry, hcounted, hremembers⟩ := h.entry pc node old hpc hold
  exact ⟨entry, hentry, hcounted, hremembers.grows hgrows⟩

/-- An entry is changed to one that remembers what is so. -/
lemma modify (h : Within before ran vars chain) (hbefore : before.Coherent programs)
    {pc : Address} {node : ℕ} (hpc : before.entries pc = some node)
    {f : ChainEntry P → ChainEntry P}
    (hf : ∀ old entry, before.nodes node = some old → chain.nodes node = some entry →
      Counted ran pc old entry → Remembers before.entries (before.run + 1) vars entry →
      Counted ran pc old (f entry) ∧
        Remembers before.entries (before.run + 1) vars (f entry)) :
    Within before ran vars (chain.modify node f) := by
  refine ⟨h.entries, h.fresh, h.run, fun pc' node' old hpc' hold => ?_⟩
  obtain ⟨entry, hentry, hcounted, hremembers⟩ := h.entry pc' node' old hpc' hold
  rw [Chain.nodes_modify]
  split_ifs with hsame
  · subst hsame
    -- no other address has this entry
    obtain rfl := hbefore.apart pc' pc node' hpc' hpc
    exact ⟨f entry, by rw [hentry, Option.map_some], hf old entry hold hentry hcounted hremembers⟩
  · exact ⟨entry, hentry, hcounted, hremembers⟩

/-- A run of an entry is counted. -/
lemma count (h : Within before ran vars chain) (hbefore : before.Coherent programs)
    {pc : Address} {node : ℕ} (hpc : before.entries pc = some node) (executed : ℕ) :
    Within before (ran ++ [(pc, executed)]) vars
      (chain.modify node (ChainEntry.count executed)) := by
  refine ⟨h.entries, h.fresh, h.run, fun pc' node' old hpc' hold => ?_⟩
  obtain ⟨entry, hentry, hcounted, hremembers⟩ := h.entry pc' node' old hpc' hold
  rw [Chain.nodes_modify]
  split_ifs with hsame
  · subst hsame
    obtain rfl := hbefore.apart pc' pc node' hpc' hpc
    refine ⟨entry.count executed, by rw [hentry, Option.map_some],
      ⟨hcounted.range, hcounted.optimizeAt, ?_, ?_, ?_, ?_⟩, hremembers.target, hremembers.said,
      hremembers.ready, hremembers.outputs, hremembers.required⟩
    · rw [Ranged.executionsAfter, executedAt_append, if_pos rfl, ← Nat.add_assoc]
      rw [ChainEntry.count, hcounted.executions, Ranged.executionsAfter, Nat.mod_add_mod]
    · simp [ChainEntry.count]
    · rw [runsAt_append, if_pos rfl, ← hcounted.runs]
      rfl
    · rw [executedAt_append, if_pos rfl, ← hcounted.executed]
      rfl
  · have hne : pc' ≠ pc := by
      rintro rfl
      exact hsame (Option.some.inj (hpc'.symm.trans hpc))
    refine ⟨entry, hentry, ⟨hcounted.range, hcounted.optimizeAt, ?_, ?_, ?_, ?_⟩, hremembers⟩
    · rw [hcounted.executions, Ranged.executionsAfter, Ranged.executionsAfter, executedAt_append,
        if_neg hne, Nat.add_zero]
    · rw [hcounted.touched]
      simp [hne]
    · rw [hcounted.runs, runsAt_append, if_neg hne, Nat.add_zero]
    · rw [hcounted.executed, executedAt_append, if_neg hne, Nat.add_zero]

end Within

/-! ## A turn of the chain -/

/-- What a run of a chain is, but for the chain. -/
def ChainRun.turns (s : ChainRun W E P) (pc : Address) (ran : List (Address × ℕ)) : Turns W E :=
  ⟨pc, ran, s.vars, s.state, s.spare, s.budget, s.chained, s.cells, s.next⟩

section Turns

variable (s : ChainRun W E P) (pc : Address) (ran : List (Address × ℕ))

@[simp] lemma ChainRun.turns_pc : (s.turns pc ran).pc = pc := rfl

@[simp] lemma ChainRun.turns_ran : (s.turns pc ran).ran = ran := rfl

@[simp] lemma ChainRun.turns_vars : (s.turns pc ran).vars = s.vars := rfl

@[simp] lemma ChainRun.turns_state : (s.turns pc ran).state = s.state := rfl

@[simp] lemma ChainRun.turns_budget : (s.turns pc ran).budget = s.budget := rfl

@[simp] lemma ChainRun.turns_cells : (s.turns pc ran).cells = s.cells := rfl

@[simp] lemma ChainRun.turns_next : (s.turns pc ran).next = s.next := rfl

@[simp] lemma ChainEntry.ranged_range (entry : ChainEntry P) : entry.ranged.range = entry.range :=
  rfl

@[simp] lemma ChainEntry.ranged_optimizeAt (entry : ChainEntry P) :
    entry.ranged.optimizeAt = entry.optimizeAt := rfl

end Turns

/-- A run of a chain is at the entry of an address, after what ran. -/
structure InTurn (before : Chain P) (s : ChainRun W E P) (pc : Address)
    (ran : List (Address × ℕ)) : Prop where
  within : Within before ran s.vars s.chain
  pc : before.entries pc = some s.current
  even : s.vars.Even
  first : s.first = ran.isEmpty
  touched : List.Forall₂ (fun pc node => before.entries pc = some node) (firsts ran) s.touched

/-- A run of a chain and the turns that it is to take are at the same address. -/
def Same (before : Chain P) (pc : Address) (ran : List (Address × ℕ)) (s : ChainRun W E P)
    (t : Turns W E) : Prop :=
  t = s.turns pc ran ∧ InTurn before s pc ran

namespace InTurn

variable {programs : P → ChainProgram W E} {before : Chain P} {s : ChainRun W E P} {pc : Address}
  {ran : List (Address × ℕ)}

/-- The entry that a run is at is there. -/
lemma current (h : InTurn before s pc ran) (hbefore : before.Coherent programs) :
    ∃ old entry, before.nodes s.current = some old ∧ before.ranges pc = some old.ranged ∧
      s.chain.nodes s.current = some entry ∧ Counted ran pc old entry ∧
      Remembers before.entries (before.run + 1) s.vars entry ∧
      Chain.Kept programs before.entries before.run old := by
  obtain ⟨old, hold, hkept⟩ := hbefore.entry pc s.current h.pc
  obtain ⟨entry, hentry, hcounted, hremembers⟩ := h.within.entry pc s.current old h.pc hold
  exact ⟨old, entry, hold, before.ranges_of_entries h.pc hold, hentry, hcounted, hremembers, hkept⟩

/-- The variables are others, of which those stay that were bound or written. -/
lemma vars (h : InTurn before s pc ran) {vars : Variables} (heven : vars.Even)
    (hgrows : s.vars.Grows vars) : InTurn before { s with vars := vars } pc ran :=
  ⟨h.within.grows hgrows, h.pc, heven, h.first, h.touched⟩

lemma rel_call (h : InTurn before s pc ran) (range : ChainRange P) :
    Option.Rel (Same before pc ran) (s.call programs range)
      ((s.turns pc ran).call programs range) := by
  rw [ChainRun.call, Turns.call]
  simp only [ChainRun.turns, Option.bind_eq_bind]
  cases hcall : (programs range.program).function
    ⟨s.state, if range.direct then some s.vars.registers else none⟩
    { s.cells with pendingSite := false } with
  | none => exact .none
  | some result =>
    obtain ⟨next, homes, cells⟩ := result
    have heven : (homes.registers.getD s.vars.registers).length = s.vars.bound.length :=
      (ChainProgram.length_registers _ hcall).trans h.even
    exact .some ⟨rfl, ⟨h.within.grows ⟨fun _ => id, fun _ => id⟩, h.pc, heven, h.first, h.touched⟩⟩

/-- The outputs that are taken may be others, if they come out the same. -/
lemma rel_takeAll (h : InTurn before s pc ran) {outputs outputs' : List Output} {copy : Bool}
    (hsame : takeAll outputs s.state copy s.vars = takeAll outputs' s.state copy s.vars)
    {r : ChainRun W E P → Turns W E → Prop} {f : Variables → ChainRun W E P}
    {g : Variables → Turns W E}
    (hnext : ∀ vars, takeAll outputs' s.state copy s.vars = some vars → vars.Even →
      s.vars.Grows vars → r (f vars) (g vars)) :
    Option.Rel r ((takeAll outputs s.state copy s.vars).bind fun vars => some (f vars))
      ((takeAll outputs' s.state copy s.vars).bind fun vars => some (g vars)) := by
  rw [hsame]
  cases htake : takeAll outputs' s.state copy s.vars with
  | none => exact .none
  | some vars =>
    obtain ⟨heven, hgrows, -⟩ := grows_of_takeAll h.even htake
    exact .some (hnext vars htake heven hgrows)

lemma rel_copied (h : InTurn before s pc ran) (range : ChainRange P) :
    Option.Rel (fun s' t => Same before pc ran s' t ∧ s'.next = s.next) (s.copied range)
      ((s.turns pc ran).copied range) := by
  rw [ChainRun.copied, Turns.copied]
  cases range.direct with
  | true => exact .some ⟨⟨rfl, h⟩, rfl⟩
  | false =>
    exact h.rel_takeAll rfl fun _ _ heven hgrows => ⟨⟨rfl, h.vars heven hgrows⟩, rfl⟩

/-- What a range always writes needn't be said again. -/
lemma rel_sayWritten (h : InTurn before s pc ran) (hbefore : before.Coherent programs)
    {old : ChainEntry P} (hold : before.nodes s.current = some old) :
    Option.Rel (Same before pc ran) (s.sayWritten old.range)
      ((s.turns pc ran).take old.range false) := by
  obtain ⟨old', entry, hold', -, hentry, hcounted, hremembers, hkept⟩ := h.current hbefore
  obtain rfl := Option.some.inj (hold.symm.trans hold')
  rw [ChainRun.sayWritten, hentry]
  simp only [Option.bind_eq_bind, Option.bind_some]
  by_cases hplain : old.range.isPlainAt s.next = true
  · rw [if_pos hplain]
    have hat : old.range.outputsAt s.next = old.range.outputs := by
      rw [ChainRange.outputsAt, Option.isNone_iff_eq_none.mp hplain, Option.getD_none]
    have hsame : takeAll (if entry.outputsSaid = s.chain.run then old.range.flagged
        else old.range.outputs) s.state false s.vars =
          takeAll (old.range.outputsAt s.next) s.state false s.vars := by
      rw [hat]
      split_ifs with hsaid
      · -- said in this run, and what is said of a variable stays said
        rw [hkept.range.flagged]
        refine takeAll_flagged h.even ?_
        rw [← hcounted.range]
        exact hremembers.outputs (hsaid.trans h.within.run)
      · rfl
    refine h.rel_takeAll hsame fun vars htake heven hgrows => ⟨rfl, ?_⟩
    refine ⟨?_, h.pc, heven, h.first, h.touched⟩
    refine (h.within.grows hgrows).modify hbefore h.pc
      fun old' entry' hold' _ hcounted' hremembers' => ⟨{ hcounted' with }, ?_⟩
    obtain rfl := Option.some.inj (hold.symm.trans hold')
    refine { hremembers' with said := h.within.run.le, outputs := fun _ => ?_ }
    rw [hcounted'.range]
    exact (grows_of_takeAll h.even (hat ▸ htake)).2.2
  · rw [if_neg hplain]
    exact h.rel_takeAll rfl fun _ _ heven hgrows => ⟨rfl, h.vars heven hgrows⟩

lemma rel_said (h : InTurn before s pc ran) (hbefore : before.Coherent programs)
    {old : ChainEntry P} (hold : before.nodes s.current = some old) :
    Option.Rel (Same before pc ran) (s.said old.range) ((s.turns pc ran).said old.range) := by
  rw [ChainRun.said, Turns.said]
  split_ifs
  · exact h.rel_sayWritten hbefore hold
  · exact .some ⟨rfl, h⟩

/-- A run of a range is counted. -/
lemma count_spec (h : InTurn before s pc ran) (hbefore : before.Coherent programs)
    (executed : ℕ) :
    ∃ s', s.count executed = some s' ∧
      s'.turns pc (ran ++ [(pc, executed)]) = (s.turns pc ran).count executed ∧
      InTurn before s' pc (ran ++ [(pc, executed)]) := by
  obtain ⟨old, entry, -, -, hentry, hcounted, -⟩ := h.current hbefore
  rw [ChainRun.count, hentry]
  refine ⟨_, rfl, rfl, h.within.count hbefore h.pc executed, h.pc, h.even, by simp, ?_⟩
  rw [firsts_append, hcounted.touched]
  by_cases hmem : pc ∈ ran.map Prod.fst
  · simp only [hmem, decide_true, if_true]
    exact h.touched
  · simp only [hmem, decide_false, Bool.false_eq_true, if_false]
    exact List.rel_append h.touched (.cons h.pc .nil)

/-- Where a range went is where the chain has what is there. -/
lemma findTarget_spec (h : InTurn before s pc ran) (hbefore : before.Coherent programs) :
    ∃ s', s.findTarget = some (before.entries s.next, s') ∧ s'.turns pc ran = s.turns pc ran ∧
      InTurn before s' pc ran := by
  obtain ⟨old, entry, -, -, hentry, hcounted, hremembers, -⟩ := h.current hbefore
  rw [ChainRun.findTarget, hentry]
  simp only [Option.bind_eq_bind, Option.bind_some]
  cases hlast : if entry.lastNext = s.next then entry.lastTarget else none with
  | some target =>
    -- a pointer is to what the chain has there still
    split_ifs at hlast with hnext
    refine ⟨s, ?_, rfl, h⟩
    rw [← hnext, hremembers.target target hlast]
    rfl
  | none =>
    rw [h.within.entries]
    cases hfound : before.entries s.next with
    | none => exact ⟨s, rfl, rfl, h⟩
    | some target =>
      refine ⟨_, rfl, rfl, ?_, h.pc, h.even, h.first, h.touched⟩
      refine h.within.modify hbefore h.pc fun old' entry' _ _ hcounted' hremembers' =>
        ⟨{ hcounted' with }, { hremembers' with target := fun target' htarget' => ?_ }⟩
      obtain rfl := Option.some.inj htarget'
      exact hfound

/-- What an entry needs is bound, if that was found in this run. -/
lemma ready_spec (h : InTurn before s pc ran) (hbefore : before.Coherent programs)
    {target : ℕ} {at_ : Address} {old : ChainEntry P} (htarget : before.entries at_ = some target)
    (hold : before.nodes target = some old) :
    ∃ s', s.ready target = some (old.range.required.all s.vars.isBound, s') ∧
      s'.turns pc ran = s.turns pc ran ∧ InTurn before s' pc ran := by
  obtain ⟨entry, hentry, hcounted, hremembers⟩ := h.within.entry at_ target old htarget hold
  rw [ChainRun.ready, hentry]
  simp only [Option.bind_eq_bind, Option.bind_some, hcounted.range]
  have hall : (∀ var ∈ old.range.required, s.vars.mark var ≠ 0) ↔
      old.range.required.all s.vars.isBound = true := by
    rw [List.all_eq_true]
    simp only [Variables.isBound, bne_iff_ne]
    rfl
  split_ifs with hready hbound
  · -- found bound in this run, in which no variable is unbound again
    have hbound := hremembers.required (hready.trans h.within.run)
    rw [hcounted.range] at hbound
    rw [hall.mp hbound]
    exact ⟨s, rfl, rfl, h⟩
  · rw [hbound]
    refine ⟨_, rfl, rfl, ?_, h.pc, h.even, h.first, h.touched⟩
    refine h.within.modify hbefore htarget fun old' entry' hold' _ hcounted' hremembers' =>
      ⟨{ hcounted' with }, { hremembers' with ready := h.within.run.le, required := fun _ => ?_ }⟩
    obtain rfl := Option.some.inj (hold.symm.trans hold')
    rw [hcounted'.range]
    exact hall.mpr hbound
  · rw [(Bool.not_eq_true _).mp hbound]
    exact ⟨s, rfl, rfl, h⟩

/-- The run goes on with the entry that there is at an address. -/
lemma rel_goOn (h : InTurn before s pc ran) {target : ℕ} {old : ChainEntry P}
    (htarget : before.entries s.next = some target) (hold : before.nodes target = some old)
    (left : ℕ) :
    Option.Rel (Same before s.next ran) (s.goOn target left)
      ((s.turns pc ran).goOn old.ranged left) := by
  obtain ⟨entry, hentry, hcounted, -⟩ := h.within.entry s.next target old htarget hold
  rw [ChainRun.goOn, hentry, Turns.goOn]
  simp only [Option.bind_eq_bind, Option.bind_some, hcounted.range, hcounted.optimizeAt,
    hcounted.executions, ChainEntry.ranged_range, ChainEntry.ranged_optimizeAt,
    ChainRun.turns_ran, ChainRun.turns_next, ChainRun.turns_budget, ChainRun.turns_vars]
  generalize nextBudget _ _ _ = budget
  change Option.Rel _ ((enterSlots old.range s.vars budget s.spare).bind _)
    ((enterSlots old.range s.vars budget s.spare).bind _)
  cases enterSlots old.range s.vars budget s.spare with
  | none => exact .none
  | some state => exact .some ⟨rfl, h.within, htarget, h.even, h.first, h.touched⟩

/-- A run of a chain and its turns are somewhere together. -/
def Together (before : Chain P) (s : ChainRun W E P) (t : Turns W E) : Prop :=
  ∃ pc ran, Same before pc ran s t

lemma rel_goTo (h : InTurn before s pc ran) (hbefore : before.Coherent programs)
    (range : ChainRange P) {target : ℕ} {old : ChainEntry P}
    (htarget : before.entries s.next = some target) (hold : before.nodes target = some old)
    (left : ℕ) :
    Option.Rel (Sum.LiftRel (Together before) (Together before)) (s.goTo range target left)
      ((s.turns pc ran).goTo range old.ranged left) := by
  obtain ⟨entry, hentry, hcounted, -⟩ := h.within.entry s.next target old htarget hold
  rw [ChainRun.goTo, hentry, Turns.goTo]
  simp only [Option.bind_eq_bind, Option.bind_some, hcounted.optimizeAt, hcounted.executions,
    ChainEntry.ranged_optimizeAt, ChainRun.turns_ran, ChainRun.turns_next,
    ChainEntry.ranged_range]
  by_cases hoptimize : toOptimize old.optimizeAt (old.ranged.executionsAfter ran s.next) = true
  · simp only [hoptimize, if_true]
    exact .some (.inr ⟨pc, ran, rfl, h⟩)
  simp only [hoptimize, Bool.false_eq_true, if_false]
  refine rel_bind (h.rel_copied range) ?_
  rintro copied t ⟨⟨rfl, hcopied⟩, hnext⟩
  rw [← hnext] at htarget
  obtain ⟨readied, hready, hturns, hreadied⟩ := hcopied.ready_spec hbefore htarget hold
  rw [hready, Option.bind_some, ChainRun.turns_vars]
  by_cases hbound : old.range.required.all copied.vars.isBound = true
  · rw [← show readied.next = copied.next from congrArg Turns.next hturns] at htarget
    simp only [hbound, if_true]
    rw [← hturns]
    refine rel_bind (hreadied.rel_goOn htarget hold left) fun gone t hsame => ?_
    exact .some (.inl ⟨_, _, hsame⟩)
  · rw [Bool.not_eq_true] at hbound
    simp only [hbound, Bool.false_eq_true, if_false]
    exact .some (.inr ⟨pc, ran, hturns.symm, hreadied⟩)

lemma rel_goFrom (h : InTurn before s pc ran) (hbefore : before.Coherent programs)
    (range : ChainRange P) (effect : BitVec 64) (left : ℕ) :
    Option.Rel (Sum.LiftRel (Together before) (Together before)) (s.goFrom range effect left)
      ((s.turns pc ran).goFrom before.ranges range effect left) := by
  rw [ChainRun.goFrom, Turns.goFrom]
  simp only [Option.bind_eq_bind, ChainRun.turns_cells, ChainRun.turns_budget]
  by_cases hleaves : leavesAfter range effect s.cells.leanRan (s.budget - left) = true
  · simp only [hleaves, if_true]
    exact .some (.inr ⟨pc, ran, rfl, h⟩)
  simp only [hleaves, Bool.false_eq_true, if_false]
  obtain ⟨found, hfind, hsame, hfound⟩ := h.findTarget_spec hbefore
  rw [hfind, Option.bind_some, ← hsame]
  have hnext : found.next = s.next := congrArg Turns.next hsame
  cases htarget : before.entries s.next with
  | none =>
    rw [ChainRun.turns_next, hnext, before.ranges_of_entries_none htarget]
    exact .some (.inr ⟨pc, ran, rfl, hfound⟩)
  | some target =>
    obtain ⟨there, hthere, -⟩ := hbefore.entry s.next target htarget
    rw [ChainRun.turns_next, hnext, before.ranges_of_entries htarget hthere]
    rw [← hnext] at htarget
    exact hfound.rel_goTo hbefore range htarget hthere left

/-- **A turn of the chain is a turn.** -/
theorem rel_step (h : InTurn before s pc ran) (hbefore : before.Coherent programs) :
    Option.Rel (Sum.LiftRel (Together before) (Together before)) (s.step programs)
      ((s.turns pc ran).step programs before.ranges) := by
  obtain ⟨old, entry, hold, hranges, hentry, hcounted, -⟩ := h.current hbefore
  have hcurrent : ∀ {s' : ChainRun W E P} {ran'}, InTurn before s' pc ran' →
      before.nodes s'.current = some old := by
    intro s' ran' h'
    rw [Option.some.inj (h'.pc.symm.trans h.pc), hold]
  rw [ChainRun.step, hentry, Turns.step, ChainRun.turns_pc, hranges]
  simp only [Option.bind_eq_bind, Option.bind_some, hcounted.range, ChainEntry.ranged_range]
  refine rel_bind (h.rel_call old.range) ?_
  rintro called t ⟨rfl, hcalled⟩
  rw [ChainRun.turns_cells]
  split_ifs with herror
  · exact .some (.inr ⟨pc, ran, rfl, hcalled⟩)
  refine rel_bind (hcalled.rel_said hbefore (hcurrent hcalled)) ?_
  rintro said t ⟨rfl, hsaid⟩
  simp only [ChainRun.turns_state, ChainRun.turns_budget, ChainRun.turns_ran, hsaid.first]
  cases slotOr said.state old.range.effectSlot 0 with
  | none => exact .none
  | some effect =>
  cases slotOr said.state old.range.budgetSlot (BitVec.ofNat 64 said.budget) with
  | none => exact .none
  | some left =>
  simp only [Option.bind_some]
  obtain ⟨counted, hcount, hturns, hin⟩ := hsaid.count_spec hbefore
    (executedOf ran.isEmpty (ranChained said.budget left))
  rw [hcount, Option.bind_some, ← hturns]
  exact hin.rel_goFrom hbefore old.range effect _

end InTurn

/-! ## Before the first turn -/

section Start

variable {programs : P → ChainProgram W E} {chain : Chain P}

/-- Nothing was found in a run that starts. -/
lemma Chain.Coherent.within_start (h : chain.Coherent programs) (vars : Variables) :
    Within chain [] vars { chain with run := chain.run + 1 } := by
  refine ⟨rfl, rfl, rfl, fun pc node old hpc hold => ?_⟩
  obtain ⟨entry, hentry, hkept⟩ := h.entry pc node hpc
  obtain rfl := Option.some.inj (hold.symm.trans hentry)
  have hsaid := hkept.said
  have hready := hkept.ready
  refine ⟨old, hold, ⟨rfl, rfl, (Nat.mod_eq_of_lt hkept.executions).symm, hkept.touched, hkept.runs,
    hkept.executed⟩, hkept.target, by omega, by omega, fun hrun => ?_, fun hrun => ?_⟩
  · omega
  · omega

/-- What a run starts with is what its turns do, or the same is wrong with the call. -/
def SameStart (before : Chain P) (pc : Address) (x : Except String (ChainRun W E P))
    (y : Except String (Turns W E)) : Prop :=
  (∃ message, x = .error message ∧ y = .error message) ∨
    ∃ s t, x = .ok s ∧ y = .ok t ∧ Same before pc [] s t

/-- The chain starts a run where one is to start. -/
lemma Chain.Coherent.rel_start [DecidableEq P] (h : chain.Coherent programs)
    (call : ChainCall W P) :
    Option.Rel (SameStart chain call.firstPc)
      (call.start chain : Option (Except String (ChainRun W E P)))
      (call.enter chain.ranges) := by
  rw [ChainCall.enter, ChainCall.start]
  cases hvars : Variables.start call.variableCount call.bindings with
  | none => exact .none
  | some vars =>
  simp only [Option.bind_eq_bind, Option.bind_some]
  cases hpc : chain.entries call.firstPc with
  | none =>
    rw [chain.ranges_of_entries_none hpc]
    exact .some (.inl ⟨_, rfl, rfl⟩)
  | some node =>
    obtain ⟨entry, hentry, -⟩ := h.entry call.firstPc node hpc
    have hfind : chain.find call.firstPc = some entry := by
      rw [Chain.find, hpc, Option.bind_some, hentry]
    rw [chain.ranges_of_entries hpc hentry, hfind]
    simp only [ChainEntry.ranged_range]
    cases call.problem entry.range with
    | some message => exact .some (.inl ⟨message, rfl, rfl⟩)
    | none =>
      exact .some (.inr ⟨_, _, rfl, rfl, rfl, h.within_start _, hpc,
        (Variables.listed_start hvars).1.even, rfl, .nil⟩)

end Start

/-! ## After the last turn -/

/-- What is left of an entry at the end of a run, with what its executions come to. -/
def ChainEntry.settle (left : ℕ → ℕ → ℕ) (entry : ChainEntry P) : ChainEntry P :=
  { entry with executions := left entry.executions entry.executed }.rest

/-- An entry that is at rest stays as it is. -/
lemma ChainEntry.settle_of_rested {left : ℕ → ℕ → ℕ}
    (hzero : ∀ executions, left executions 0 = executions) {entry : ChainEntry P}
    (htouched : entry.touched = false) (hruns : entry.runs = 0) (hexecuted : entry.executed = 0) :
    entry.settle left = entry := by
  cases entry
  subst htouched hruns hexecuted
  simp only [settle, rest, hzero]

lemma Chain.nodes_modifyAll (f : ChainEntry P → ChainEntry P) {nodes : List ℕ}
    (hnodup : nodes.Nodup)
    (chain : Chain P) (node : ℕ) :
    (chain.modifyAll nodes f).nodes node =
      if node ∈ nodes then (chain.nodes node).map f else chain.nodes node := by
  induction nodes generalizing chain with
  | nil => rfl
  | cons first nodes ih =>
    obtain ⟨hfirst, hrest⟩ := List.nodup_cons.mp hnodup
    rw [Chain.modifyAll, List.foldl_cons, ← Chain.modifyAll, ih hrest, Chain.nodes_modify]
    by_cases hsame : node = first
    · subst hsame
      simp [hfirst]
    · simp [hsame]

lemma Chain.modifyAll_same (f : ChainEntry P → ChainEntry P) (nodes : List ℕ) (chain : Chain P) :
    (chain.modifyAll nodes f).entries = chain.entries ∧
      (chain.modifyAll nodes f).fresh = chain.fresh ∧
      (chain.modifyAll nodes f).run = chain.run := by
  induction nodes generalizing chain with
  | nil => exact ⟨rfl, rfl, rfl⟩
  | cons first nodes ih => exact ih (chain.modify first f)

namespace InTurn

variable {programs : P → ChainProgram W E} {before : Chain P} {s : ChainRun W E P} {pc : Address}
  {ran : List (Address × ℕ)}

/-- Every entry that ran is there once. -/
lemma touched_spec (h : InTurn before s pc ran) (hbefore : before.Coherent programs) :
    s.touched.Nodup ∧ ∀ at_ node, before.entries at_ = some node →
      (node ∈ s.touched ↔ at_ ∈ ran.map Prod.fst) := by
  have hapart : ∀ {addresses : List Address} {nodes : List ℕ},
      List.Forall₂ (fun pc node => before.entries pc = some node) addresses nodes →
      (addresses.Nodup → nodes.Nodup) ∧
        ∀ at_ node, before.entries at_ = some node → (node ∈ nodes ↔ at_ ∈ addresses) := by
    intro addresses nodes hall
    induction hall with
    | nil => simp
    | @cons address node addresses nodes hnode _ ih =>
      have hiff : ∀ at_ node', before.entries at_ = some node' →
          (node' = node ↔ at_ = address) := by
        intro at_ node' hat
        constructor
        · rintro rfl
          exact hbefore.apart at_ address node' hat hnode
        · rintro rfl
          exact Option.some.inj (hat.symm.trans hnode)
      refine ⟨fun hnodup => ?_, fun at_ node' hat => ?_⟩
      · obtain ⟨hnot, hrest⟩ := List.nodup_cons.mp hnodup
        rw [List.nodup_cons, ih.2 address node hnode]
        exact ⟨hnot, ih.1 hrest⟩
      · rw [List.mem_cons, List.mem_cons, hiff at_ node' hat, ih.2 at_ node' hat]
  obtain ⟨hnodup, hmem⟩ := hapart h.touched
  exact ⟨hnodup (nodup_firsts ran), fun at_ node hat => by rw [hmem at_ node hat, mem_firsts]⟩

/-- **Every entry is at rest after a run, with the executions that what ran comes to.** -/
theorem settle (h : InTurn before s pc ran) (hbefore : before.Coherent programs)
    {left : ℕ → ℕ → ℕ} (hzero : ∀ executions, left executions 0 = executions)
    (hle : ∀ executions executed, left executions executed ≤ executions) :
    (s.chain.modifyAll s.touched (ChainEntry.settle left)).Coherent programs ∧
      (s.chain.modifyAll s.touched (ChainEntry.settle left)).ranges = fun pc =>
        (before.ranges pc).map fun ranged => { ranged with
          executions := left (ranged.executionsAfter ran pc) (executedAt ran pc) } := by
  obtain ⟨hnodup, hmem⟩ := h.touched_spec hbefore
  obtain ⟨hentries, hfresh, hrun⟩ :=
    s.chain.modifyAll_same (ChainEntry.settle left) s.touched
  rw [h.within.entries] at hentries
  rw [h.within.fresh] at hfresh
  rw [h.within.run] at hrun
  -- an entry that did not run is at rest already
  have hentry : ∀ pc node old, before.entries pc = some node → before.nodes node = some old →
      ∃ entry, Counted ran pc old entry ∧
        Remembers before.entries (before.run + 1) s.vars entry ∧
        (s.chain.modifyAll s.touched (ChainEntry.settle left)).nodes node =
          some (entry.settle left) := by
    intro pc node old hpc hold
    obtain ⟨entry, hnode, hcounted, hremembers⟩ := h.within.entry pc node old hpc hold
    refine ⟨entry, hcounted, hremembers, ?_⟩
    rw [Chain.nodes_modifyAll _ hnodup, hnode]
    split_ifs with htouched
    · rfl
    · rw [hmem pc node hpc] at htouched
      have hruns : runsAt ran pc = 0 := List.count_eq_zero.mpr htouched
      have hexecuted : executedAt ran pc = 0 := by
        rw [executedAt, List.filter_eq_nil_iff.mpr, List.map_nil, List.sum_nil]
        intro turn hturn hsame
        exact htouched (List.mem_map.mpr ⟨turn, hturn, by simpa using hsame⟩)
      rw [ChainEntry.settle_of_rested hzero (by rw [hcounted.touched, decide_eq_false htouched])
        (by rw [hcounted.runs, hruns]) (by rw [hcounted.executed, hexecuted])]
  refine ⟨⟨?_, ?_, ?_⟩, ?_⟩
  · rw [hentries]
    exact hbefore.apart
  · rw [hentries, hfresh]
    exact hbefore.old
  · rw [hentries, hrun]
    intro pc node hpc
    obtain ⟨old, hold, hkept⟩ := hbefore.entry pc node hpc
    obtain ⟨entry, hcounted, hremembers, hnode⟩ := hentry pc node old hpc hold
    refine ⟨_, hnode, hremembers.target, hremembers.said, hremembers.ready, ?_, ?_, ?_, rfl, rfl,
      rfl⟩
    · rw [show (entry.settle left).range = old.range from hcounted.range]
      exact hkept.range
    · rw [show (entry.settle left).range = old.range from hcounted.range]
      exact hkept.direct
    · refine (hle _ _).trans_lt ?_
      rw [hcounted.executions]
      exact Nat.mod_lt _ (Nat.two_pow_pos 64)
  · ext1 pc
    cases hpc : before.entries pc with
    | none =>
      rw [before.ranges_of_entries_none hpc, Option.map_none]
      exact Chain.ranges_of_entries_none _ (by rw [hentries, hpc])
    | some node =>
      obtain ⟨old, hold, -⟩ := hbefore.entry pc node hpc
      obtain ⟨entry, hcounted, -, hnode⟩ := hentry pc node old hpc hold
      rw [before.ranges_of_entries hpc hold, Option.map_some,
        Chain.ranges_of_entries _ (by rw [hentries, hpc]) hnode]
      simp only [ChainEntry.ranged, ChainEntry.settle, ChainEntry.rest, hcounted.range,
        hcounted.optimizeAt, hcounted.executions, hcounted.executed]

/-- What is said of the entries that ran is what ran. -/
lemma mapM_touched (h : InTurn before s pc ran) (hbefore : before.Coherent programs) :
    ∃ entries, s.touched.mapM s.chain.nodes = some entries ∧
      (firsts ran).mapM (fun pc => (before.ranges pc).map fun ranged => ranged.ran ran pc) =
        some (entries.map ChainEntry.ran) := by
  -- over the entries in the order in which they first ran, beside their addresses
  have hall := h.touched
  generalize firsts ran = addresses at hall ⊢
  generalize s.touched = nodes at hall ⊢
  induction hall with
  | nil => exact ⟨[], rfl, rfl⟩
  | @cons address node addresses nodes hnode _ ih =>
    obtain ⟨entries, hentries, haddresses⟩ := ih
    obtain ⟨old, hold, -⟩ := hbefore.entry address node hnode
    obtain ⟨entry, hentry, hcounted, -⟩ := h.within.entry address node old hnode hold
    refine ⟨entry :: entries, ?_, ?_⟩
    · rw [List.mapM_cons, hentry, hentries]
      rfl
    · rw [List.mapM_cons, before.ranges_of_entries hnode hold, haddresses, List.map_cons,
        ChainEntry.ran, hcounted.range, hcounted.runs, hcounted.executed]
      rfl

/-- A run of a chain says at its end what the turns say. -/
lemma info_eq (h : InTurn before s pc ran) (hbefore : before.Coherent programs)
    (range : ChainRange P) : s.info range = (s.turns pc ran).info before.ranges range := by
  obtain ⟨entries, hentries, haddresses⟩ := h.mapM_touched hbefore
  rw [ChainRun.info, Turns.info, ChainRun.turns_ran, haddresses, hentries,
    h.touched.length_eq]
  simp only [List.flatMap_def]
  rfl

end InTurn

/-- What a run of a chain leaves is what its turns leave. -/
structure AfterTurns (programs : P → ChainProgram W E) (after : ChainAfter W E P)
    (turns : TurnsAfter W E P) : Prop where
  coherent : after.chain.Coherent programs
  ranges : after.chain.ranges = turns.ranges
  world : after.world = turns.world
  pages : after.pages = turns.pages
  filter : after.filter = turns.filter
  result : after.result = turns.result

lemma InTurn.rel_finish {programs : P → ChainProgram W E} {before : Chain P}
    {s : ChainRun W E P} {pc : Address} {ran : List (Address × ℕ)} (h : InTurn before s pc ran)
    (hbefore : before.Coherent programs) (order : LogOrder) :
    Option.Rel (AfterTurns programs) (s.finish order)
      ((s.turns pc ran).finish order before.ranges) := by
  rw [ChainRun.finish, Turns.finish, ChainRun.turns_cells]
  simp only [Option.bind_eq_bind]
  cases s.cells.error with
  | some error =>
    -- what a run that failed counted is taken back, and `settle` has both ways to leave it
    obtain ⟨hcoherent, hranges⟩ := h.settle hbefore
      (fun executions => by rw [Nat.min_zero, Nat.sub_zero]) fun executions executed =>
        Nat.sub_le executions (min executions executed)
    exact .some ⟨hcoherent, hranges, rfl, rfl, rfl, rfl⟩
  | none =>
    obtain ⟨hcoherent, hranges⟩ := h.settle hbefore (fun _ => rfl) fun executions _ =>
      le_refl executions
    obtain ⟨old, entry, -, hpc, hentry, hcounted, -⟩ := h.current hbefore
    simp only [ChainRun.turns_pc, hpc, hentry, Option.bind_some, h.info_eq hbefore, hcounted.range,
      ChainEntry.ranged_range]
    cases fillArray s.cells.changes.count _ with
    | none => exact .none
    | some addresses =>
    cases fillArray s.cells.changes.count _ with
    | none => exact .none
    | some values =>
    cases (s.turns pc ran).info before.ranges old.range with
    | none => exact .none
    | some info => exact .some ⟨hcoherent, hranges, rfl, rfl, rfl, rfl⟩

/-- **A run of a chain is its turns.**  Whatever the chain remembers from the runs before, and
whatever the ranges do, it goes where the turns go, and is undefined only where a turn is. -/
theorem Chain.Coherent.rel_runChain [DecidableEq P] {programs : P → ChainProgram W E}
    {chain : Chain P} (h : chain.Coherent programs) (userError : String → E) (order : LogOrder)
    (call : ChainCall W P) (fuel : ℕ) :
    Option.Rel (Sum.LiftRel (InTurn.Together chain) (AfterTurns programs))
      (runChain userError order programs call chain fuel)
      (runTurns userError order programs call chain.ranges fuel) := by
  rw [runChain, runTurns]
  have hstart := h.rel_start (E := E) call
  generalize call.start chain = x at hstart
  generalize call.enter chain.ranges = y at hstart
  rcases hstart with (⟨message, rfl, rfl⟩ | ⟨s, _, rfl, rfl, rfl, hin⟩) | -
  · exact .some (.inr ⟨h, rfl, rfl, rfl, rfl, rfl⟩)
  · have hrun := rel_run (Q := InTurn.Together chain)
      (fun s t (htogether : InTurn.Together chain s t) => by
        obtain ⟨pc, ran, rfl, hin⟩ := htogether
        exact hin.rel_step h) fuel ⟨_, _, rfl, hin⟩
    simp only
    revert hrun
    generalize Lockstep.run (ChainRun.step programs) fuel s = a
    generalize Lockstep.run (Turns.step programs chain.ranges) fuel (s.turns call.firstPc []) = b
    rintro (hrel | -)
    · rcases hrel with htogether | ⟨pc, ran, rfl, hin⟩
      · exact .some (.inl htogether)
      · exact rel_map (hin.rel_finish h order) fun _ _ => .inr
    · exact .none
  · exact .none

end BapNative.Jit
