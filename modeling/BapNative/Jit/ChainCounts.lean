import BapNative.Jit.ChainRuns

/-!
# What a run of a chain counts

Every range that a run goes on to takes one from its budget, and so does every block that a range
enters, so that a run is over after as many ranges as its budget has, and what it counts of each
range adds up to the blocks that it says were entered, which are no more than the budget.
-/

namespace BapNative.Jit

open Lockstep PagedMemory

variable {W E P : Type}

namespace Turns

variable {programs : P → ChainProgram W E} {ranges : Address → Option (Ranged P)}
  {t t' : Turns W E} {range : ChainRange P}

/-! ## What a turn is made of -/

/-- Only what the code of a range has to do with changes. -/
structure Ran (t t' : Turns W E) : Prop where
  pc : t'.pc = t.pc
  ran : t'.ran = t.ran
  budget : t'.budget = t.budget
  chained : t'.chained = t.chained
  state : t'.state.length = t.state.length
  vars : ∃ registers, registers.length = t.vars.registers.length ∧
    t'.vars = { t.vars with registers := registers }

/-- Only what the variables hold changes. -/
def OnlyVars (t t' : Turns W E) : Prop := ∃ vars, t' = { t with vars := vars }

lemma ran_of_call (h : t.call programs range = some t') : Ran t t' := by
  rw [call] at h
  simp only [Option.bind_eq_bind, Option.bind_eq_some_iff] at h
  obtain ⟨⟨next, homes, cells⟩, hfunction, hsome⟩ := h
  obtain rfl := Option.some.inj hsome
  exact ⟨rfl, rfl, rfl, rfl, ((programs range.program).sameSize _ _ _ _ _ hfunction).1, _,
    ChainProgram.length_registers _ hfunction, rfl⟩

lemma onlyVars_of_take {copy : Bool} (h : t.take range copy = some t') :
    OnlyVars t t' ∧ takeAll (range.outputsAt t.next) t.state copy t.vars = some t'.vars := by
  rw [take] at h
  simp only [Option.bind_eq_bind, Option.bind_eq_some_iff] at h
  obtain ⟨vars, htake, hsome⟩ := h
  obtain rfl := Option.some.inj hsome
  exact ⟨⟨vars, rfl⟩, htake⟩

lemma goOn_cases {target : Ranged P} {ran : ℕ} (h : t.goOn target ran = some t') :
    ∃ state, t' = { t with
      pc := t.next
      chained := t.chained + ran + 1
      budget := nextBudget target.optimizeAt (target.executionsAfter t.ran t.next) (t.budget - ran)
      state := state
      spare := t.state } := by
  rw [goOn] at h
  simp only [Option.bind_eq_bind, Option.bind_eq_some_iff] at h
  obtain ⟨state, -, hsome⟩ := h
  exact ⟨state, (Option.some.inj hsome).symm⟩

lemma onlyVars_of_said (h : t.said range = some t') : OnlyVars t t' := by
  rw [said] at h
  split_ifs at h
  · exact (onlyVars_of_take h).1
  · obtain rfl := Option.some.inj h
    exact ⟨_, rfl⟩

lemma onlyVars_of_copied (h : t.copied range = some t') : OnlyVars t t' := by
  rw [copied] at h
  split_ifs at h
  · obtain rfl := Option.some.inj h
    exact ⟨_, rfl⟩
  · exact (onlyVars_of_take h).1

/-- The range that a turn is of has run, and is counted, with so much of its budget gone. -/
def Counts (programs : P → ChainProgram W E) (range : ChainRange P) (t : Turns W E) (ran : ℕ)
    (effect : BitVec 64) (t' : Turns W E) : Prop :=
  ∃ called said left, t.call programs range = some called ∧
    called.cells.error = none ∧ called.said range = some said ∧
    slotOr said.state range.effectSlot 0 = some effect ∧
    slotOr said.state range.budgetSlot (BitVec.ofNat 64 said.budget) = some left ∧
    ran = ranChained said.budget left ∧ t' = said.count (executedOf said.ran.isEmpty ran)

/-- **What a turn does.**  The code of its range fails, or it is counted, and is the last, or is
gone on from if there is budget left. -/
theorem step_cases {x : Turns W E ⊕ Turns W E} (h : t.step programs ranges = some x) :
    ∃ ranged, ranges t.pc = some ranged ∧
      ((∃ called, t.call programs ranged.range = some called ∧ called.cells.error.isSome ∧
        x = .inr called) ∨
      ∃ counted ran effect, Counts programs ranged.range t ran effect counted ∧
        (x = .inr counted ∨ ∃ copied, counted.copied ranged.range = some copied ∧
          (x = .inr copied ∨ ∃ target,
            leavesAfter ranged.range effect counted.cells.leanRan (counted.budget - ran) = false ∧
            ranges counted.next = some target ∧
            target.range.required.all copied.vars.isBound = true ∧
            ∃ gone, copied.goOn target ran = some gone ∧ x = .inl gone))) := by
  rw [step] at h
  simp only [Option.bind_eq_bind, Option.bind_eq_some_iff] at h
  obtain ⟨ranged, hranged, called, hcalled, h⟩ := h
  refine ⟨ranged, hranged, ?_⟩
  split_ifs at h with herror
  · exact .inl ⟨called, hcalled, herror, (Option.some.inj h).symm⟩
  simp only [Option.bind_eq_some_iff] at h
  obtain ⟨said, hsaid, effect, heffect, left, hleft, h⟩ := h
  refine .inr ⟨_, _, effect, ⟨called, said, left, hcalled, by simpa using herror, hsaid, heffect,
    hleft, rfl, rfl⟩, ?_⟩
  rw [goFrom] at h
  split_ifs at h with hleaves
  · exact .inl (Option.some.inj h).symm
  cases htarget : ranges (said.count (executedOf said.ran.isEmpty
      (ranChained said.budget left))).next with
  | none =>
    simp only [htarget] at h
    exact .inl (Option.some.inj h).symm
  | some target =>
    simp only [htarget] at h
    rw [goTo] at h
    simp only [Option.bind_eq_bind] at h
    split_ifs at h with hoptimize
    · exact .inl (Option.some.inj h).symm
    obtain ⟨copied, hcopied, h⟩ := Option.bind_eq_some_iff.mp h
    refine .inr ⟨copied, hcopied, ?_⟩
    split_ifs at h with hbound
    · obtain ⟨gone, hgone, h⟩ := Option.bind_eq_some_iff.mp h
      exact .inr ⟨target, by simpa using hleaves, rfl, hbound, gone, hgone,
        (Option.some.inj h).symm⟩
    · exact .inl (Option.some.inj h).symm

/-! ## Budgets -/

lemma ranChained_le (budget : ℕ) (left : BitVec 64) : ranChained budget left ≤ budget := by
  rw [ranChained]
  split_ifs
  · exact Nat.sub_le _ _
  · exact Nat.zero_le _

lemma nextBudget_le (optimizeAt : Option ℕ) (executions remaining : ℕ) :
    nextBudget optimizeAt executions remaining ≤ remaining - 1 := by
  cases optimizeAt with
  | none => exact le_refl _
  | some bound => exact Nat.min_le_left _ _

/-- What a run has spent of its budget when it comes to a range. -/
structure Paid (first : ℕ) (t : Turns W E) : Prop where
  budget : t.chained + t.budget ≤ first
  chained : t.chained = if t.ran.isEmpty then 0 else executedAll t.ran + 1
  turns : t.ran.length ≤ t.chained

/-- What it has spent when it leaves its last range. -/
structure Spent (ranges : Address → Option (Ranged P)) (first : ℕ) (t : Turns W E) : Prop where
  executed : executedAll t.ran ≤ first
  turns : t.ran.length ≤ executedAll t.ran + 1
  entered : t.cells.error = none → ∃ ranged, ranges t.pc = some ranged ∧
    t.entered ranged.range = some (executedAll t.ran)

lemma Paid.executed {first : ℕ} (h : t.Paid first) : executedAll t.ran ≤ first := by
  have hbudget := h.budget
  have hchained := h.chained
  cases hran : t.ran with
  | nil => simp [executedAll]
  | cons turn ran =>
    rw [hran] at hchained
    simp only [List.isEmpty_cons, Bool.false_eq_true, if_false] at hchained
    omega

lemma Paid.length_ran {first : ℕ} (h : t.Paid first) : t.ran.length ≤ executedAll t.ran + 1 := by
  have hturns := h.turns
  rw [h.chained] at hturns
  split_ifs at hturns <;> omega

/-- A range that ran is counted with what it took from the budget. -/
lemma Paid.counts {first ran : ℕ} {effect : BitVec 64} (h : t.Paid first) (hfirst : first < 2 ^ 64)
    (hcounts : Counts programs range t ran effect t') :
    t'.pc = t.pc ∧ t'.budget = t.budget ∧ t'.chained = t.chained ∧ ran ≤ t'.budget ∧
      t'.ran ≠ [] ∧ t'.ran.length ≤ t'.chained + 1 ∧ executedAll t'.ran = t'.chained + ran ∧
      t'.entered range = some (executedAll t'.ran) := by
  obtain ⟨called, said, left, hcall, -, hsaid, -, hleft, rfl, rfl⟩ := hcounts
  obtain ⟨hpc, hran, hbudget, hchained, -, -⟩ := ran_of_call hcall
  obtain ⟨vars, rfl⟩ := onlyVars_of_said hsaid
  -- Lean counted the entry of the first range, so that each one after it adds one
  have hsum : executedAll (called.ran ++ [(called.pc,
      executedOf called.ran.isEmpty (ranChained called.budget left))]) =
        called.chained + ranChained called.budget left := by
    rw [executedAll_append, hchained, h.chained, hran, executedOf]
    cases t.ran with
    | nil => simp [executedAll]
    | cons turn ran =>
      simp only [List.isEmpty_cons, Bool.false_eq_true, if_false]
      omega
  have hturns : called.ran.length + 1 ≤ called.chained + 1 := by
    rw [hran, hchained]
    exact Nat.succ_le_succ h.turns
  refine ⟨hpc, hbudget, hchained, ranChained_le _ _, by simp [count],
    by simpa [count] using hturns, hsum, ?_⟩
  have hsum' : executedAll (count (executedOf called.ran.isEmpty (ranChained called.budget left))
      { called with vars := vars }).ran = called.chained + ranChained called.budget left := hsum
  rw [hsum', entered]
  cases hslot : range.budgetSlot with
  | none =>
    have hbound : called.budget < 2 ^ 64 := by
      have := h.budget
      omega
    obtain rfl : BitVec.ofNat 64 called.budget = left := by
      simpa [slotOr, hslot] using hleft
    have hsame : (BitVec.ofNat 64 called.budget).toNat = called.budget := by
      rw [BitVec.toNat_ofNat, Nat.mod_eq_of_lt hbound]
    rw [ranChained, hsame, if_pos (le_refl _), Nat.sub_self]
    rfl
  | some slot =>
    have hstate : called.state[slot]? = some left := by simpa [slotOr, hslot] using hleft
    simp [hstate, count]

/-- **Every turn is paid for.** -/
theorem Paid.step {first : ℕ} (h : t.Paid first) (hfirst : first < 2 ^ 64)
    {x : Turns W E ⊕ Turns W E} (hstep : t.step programs ranges = some x) :
    Sum.elim (fun t' => t'.Paid first ∧ t'.budget < t.budget) (Spent ranges first) x := by
  obtain ⟨ranged, hranged, ⟨called, hcall, herror, rfl⟩ | ⟨counted, ran, effect, hcounts, hx⟩⟩ :=
    step_cases hstep
  · have hran := ran_of_call hcall
    refine ⟨?_, ?_, fun hnone => ?_⟩
    · rw [hran.ran]
      exact h.executed
    · rw [hran.ran]
      exact h.length_ran
    · rw [hnone] at herror
      simp at herror
  obtain ⟨hpc, hbudget, hchained, hle, hne, hturns, hsum, hentered⟩ := h.counts hfirst hcounts
  have hpaid := h.budget
  have hspent : Spent ranges first counted :=
    ⟨by omega, by omega, fun _ => ⟨ranged, by rw [hpc, hranged], hentered⟩⟩
  rcases hx with rfl | ⟨copied, hcopied, hx⟩
  · exact hspent
  obtain ⟨vars, rfl⟩ := onlyVars_of_copied hcopied
  rcases hx with rfl | ⟨target, hleaves, -, -, gone, hgone, rfl⟩
  · exact ⟨hspent.executed, hspent.turns, hspent.entered⟩
  · obtain ⟨state, rfl⟩ := goOn_cases hgone
    simp only [leavesAfter, Bool.or_eq_false_iff, decide_eq_false_iff_not] at hleaves
    have hnext := nextBudget_le target.optimizeAt
      (target.executionsAfter counted.ran counted.next) (counted.budget - ran)
    have hempty : counted.ran.isEmpty = false := by simpa using hne
    refine ⟨⟨?_, ?_, ?_⟩, ?_⟩
    · simp only
      omega
    · simp only [hempty, Bool.false_eq_true, if_false]
      omega
    · simp only
      omega
    · simp only
      omega

/-- A run is over once it has had as many turns as its budget has, and one more. -/
lemma Paid.run {first : ℕ} (hfirst : first < 2 ^ 64) {fuel : ℕ} (h : t.Paid first)
    (hfuel : t.budget < fuel) {x : Turns W E ⊕ Turns W E}
    (hrun : Lockstep.run (Turns.step programs ranges) fuel t = some x) :
    ∃ t', x = .inr t' ∧ t'.Spent ranges first := by
  -- each turn that is not the last has less budget than the one before
  induction fuel generalizing t with
  | zero => omega
  | succ fuel ih =>
    rw [Lockstep.run] at hrun
    cases hstep : t.step programs ranges with
    | none => simp [hstep] at hrun
    | some y =>
      have hy := h.step hfirst hstep
      cases y with
      | inl next =>
        obtain ⟨hpaid, hless⟩ := hy
        simp only [hstep] at hrun
        exact ih hpaid (by omega) hrun
      | inr last =>
        simp only [hstep] at hrun
        exact ⟨last, (Option.some.inj hrun).symm, hy⟩

end Turns

/-! ## What is there -/

section TakeAll

variable {vars vars' : Variables} {outputs : List Output} {state : List (BitVec 64)}
  {slotCount : ℕ} {copy : Bool}

/-- What is taken is listed, and no variable is lost. -/
lemma listed_of_takeAll (h : vars.Listed) (hsmall : ∀ output ∈ outputs, output.var < 2 ^ 64)
    (htake : takeAll outputs state copy vars = some vars') :
    vars'.Listed ∧ vars.registers.length ≤ vars'.registers.length := by
  refine foldlM_keeps (I := fun vars' =>
    vars'.Listed ∧ vars.registers.length ≤ vars'.registers.length) ?_ ⟨h, le_rfl⟩ htake
  rintro between next output houtput ⟨hbetween, hle⟩ hnext
  rcases Output.cases_of_take hnext with ⟨-, rfl⟩ | ⟨-, value, hwrite⟩
  · exact ⟨hbetween, hle⟩
  · exact ⟨hbetween.write (hsmall output houtput) hwrite,
      hle.trans (hbetween.even.write hwrite).2.2.2.2⟩

/-- What a range wrote can be taken, as it has every slot that it names, unless it is of the
variable of the last number. -/
lemma Output.WellFormed.take_isSome {output : Output} (h : output.WellFormed slotCount)
    (hvar : output.var + 1 < 2 ^ 64) (hstate : slotCount ≤ state.length) (hvars : vars.Even)
    (copy : Bool) : ∃ vars', output.take state copy vars = some vars' := by
  obtain ⟨reached, hreached⟩ : ∃ reached, output.reached state = some reached := by
    rw [Output.reached]
    cases hflag : output.flag with
    | none => exact ⟨true, rfl⟩
    | some flag =>
      have hlt : flag < state.length := (h.flag flag hflag).trans_le hstate
      simp [List.getElem?_eq_getElem hlt]
  have hslot : output.slot < state.length := h.slot.trans_le hstate
  rw [Output.take, hreached]
  cases reached with
  | false => exact ⟨vars, rfl⟩
  | true =>
    cases copy with
    | false => exact hvars.write_isSome hvar none
    | true =>
      rw [List.getElem?_eq_getElem hslot]
      exact hvars.write_isSome hvar _

lemma takeAll_isSome (h : ∀ output ∈ outputs, output.WellFormed slotCount)
    (hnumbers : ∀ output ∈ outputs, output.var + 1 < 2 ^ 64) (hstate : slotCount ≤ state.length)
    (hvars : vars.Even) (copy : Bool) : ∃ vars', takeAll outputs state copy vars = some vars' := by
  obtain ⟨vars', htake, -⟩ := foldlM_isSome (I := Variables.Even)
    (fun vars output houtput heven => by
      obtain ⟨vars', htake⟩ :=
        (h output houtput).take_isSome (hnumbers output houtput) hstate heven copy
      exact ⟨vars', htake, (Output.grows_of_take heven htake).1⟩) hvars
  exact ⟨vars', htake⟩

end TakeAll

namespace ChainRange

variable {range : ChainRange P} {maxSlot : ℕ}

lemma WellFormed.outputsAt (h : range.WellFormed maxSlot) (pc : BitVec 64) :
    ∀ output ∈ range.outputsAt pc, output.WellFormed range.slotCount := by
  rw [ChainRange.outputsAt]
  cases hpc : range.checkpoints pc with
  | none => exact h.outputs
  | some outputs => exact h.checkpoints pc outputs hpc

/-- No output, of the range or of a checkpoint, is of the variable of the last number. -/
def Numbered (range : ChainRange P) : Prop :=
  ∀ pc, ∀ output ∈ range.outputsAt pc, output.var + 1 < 2 ^ 64

/-- **A range has every slot that it starts with.** -/
theorem WellFormed.enterSlots_isSome (h : range.WellFormed maxSlot) {vars : Variables}
    (hvars : vars.Even) (budget : ℕ) (spare : List (BitVec 64)) :
    ∃ state, enterSlots range vars budget spare = some state ∧
      state.length = range.slotCount := by
  have hput : ∀ (state : List (BitVec 64)) (index : ℕ) (value : BitVec 64),
      state.length = range.slotCount → index < range.slotCount →
      ∃ state', put state index value = some state' ∧ state'.length = range.slotCount :=
    fun state index value hlength hindex =>
      ⟨_, if_pos (hlength ▸ hindex), List.length_set.trans hlength⟩
  have hputSlot : ∀ (state : List (BitVec 64)) (slot : Option ℕ) (value : BitVec 64),
      state.length = range.slotCount → (∀ index ∈ slot, index < range.slotCount) →
      ∃ state', putSlot state slot value = some state' ∧ state'.length = range.slotCount := by
    intro state slot value hlength hslot
    cases slot with
    | none => exact ⟨state, rfl, hlength⟩
    | some index => exact hput state index value hlength (hslot index rfl)
  obtain ⟨zeroed, hzeroed, hlength⟩ := foldlM_isSome
    (fun state slot hslot hstate => hput state slot 0 hstate (h.zeroed slot hslot))
    (Variables.length_resize spare range.slotCount 0)
  obtain ⟨laid, hlaid, hlength⟩ :
      ∃ laid, layOut range vars zeroed = some laid ∧ laid.length = range.slotCount := by
    rw [layOut]
    split_ifs
    · exact ⟨zeroed, rfl, hlength⟩
    refine foldlM_isSome (fun state binding hbinding hstate => ?_) hlength
    rw [putVariable]
    split_ifs with hbound
    · -- what is bound has a register
      have hmark : vars.mark binding.1 ≠ 0 := by rwa [Variables.isBound, bne_iff_ne] at hbound
      have hlt := (hvars.lt_of_mark hmark).2
      rw [List.getElem?_eq_getElem hlt]
      exact hput state binding.2 _ hstate (h.layout binding hbinding)
    · exact ⟨state, rfl, hstate⟩
  obtain ⟨budgeted, hbudgeted, hlength⟩ := hputSlot laid range.budgetSlot
    (BitVec.ofNat 64 budget) hlength h.budgetSlot
  obtain ⟨state, hstate, hlength⟩ := hputSlot budgeted range.observedSlot 0 hlength h.observedSlot
  refine ⟨state, ?_, hlength⟩
  simp only [enterSlots, Option.bind_eq_bind, hzeroed, hlaid, hbudgeted, hstate, Option.bind_some]

end ChainRange

/-- No output that a range is read with is of the variable of the last number. -/
structure ChainData.Numbered (data : ChainData) : Prop where
  outputs : ∀ words ∈ data.outputs, words.1.toNat + 1 < 2 ^ 64
  checkpoints : ∀ checkpoint ∈ data.checkpoints, ∀ words ∈ checkpoint.2,
    words.1.toNat + 1 < 2 ^ 64

/-- What Lean registers has no such output, if its variables have no such number. -/
lemma Registered.Short.numbered_of_decodeAll {registered : Registered} (h : registered.Short)
    (houtputs : ∀ output ∈ registered.outputs, output.1 + 1 < 2 ^ 64)
    (hcheckpoints : ∀ checkpoint ∈ registered.checkpoints, ∀ output ∈ checkpoint.2,
      output.1 + 1 < 2 ^ 64) {data : ChainData}
    (hdata : ChainData.codec.decodeAll registered.data = some data) : data.Numbered := by
  obtain rfl := Option.some.inj (h.decodeAll.symm.trans hdata)
  have hword : ∀ output : ℕ × ℕ × ℕ, output.1 + 1 < 2 ^ 64 →
      (Registered.outputWords output).1.toNat + 1 < 2 ^ 64 := by
    intro output hlt
    simp only [Registered.outputWords, Registered.toWord, BitVec.toNat_ofNat]
    omega
  refine ⟨fun words hwords => ?_, fun checkpoint hcheckpoint words hwords => ?_⟩
  · obtain ⟨output, houtput, rfl⟩ := List.mem_map.mp hwords
    exact hword output (houtputs output houtput)
  · obtain ⟨registered', hmem, rfl⟩ := List.mem_map.mp hcheckpoint
    obtain ⟨output, houtput, rfl⟩ := List.mem_map.mp hwords
    exact hword output (hcheckpoints registered' hmem output houtput)

lemma ChainData.Numbered.range {data : ChainData} (h : data.Numbered) (program : P)
    (id : BitVec 64) (direct : Bool) : (data.range program id direct).Numbered := by
  intro pc output houtput
  rw [ChainRange.outputsAt] at houtput
  cases hpc : (data.range program id direct).checkpoints pc with
  | none =>
    rw [hpc, Option.getD_none] at houtput
    obtain ⟨words, hwords, rfl⟩ := List.mem_map.mp houtput
    exact h.outputs words hwords
  | some outputs =>
    rw [hpc, Option.getD_some] at houtput
    obtain ⟨checkpoint, hcheckpoint, words, hwords, rfl⟩ :=
      fromWords_checkpointsOf pc outputs hpc output houtput
    exact h.checkpoints checkpoint hcheckpoint words hwords

/-- Code returns, called as a chain calls it: on a state with as many slots as it requires, with as
many registers, if it is to use them, as there are variables, and on cells that are good, as it
leaves them. -/
def ChainProgram.Returns (program : ChainProgram W E) (variableCount : ℕ)
    (Good : Cells W E → Prop) : Prop :=
  ∀ state registers cells, program.maxSlot ≤ state.length → variableCount ≤ registers.length →
    Good cells → ∃ next homes cells',
      program.function ⟨state, if program.direct then some registers else none⟩
        { cells with pendingSite := false } = some (next, homes, cells') ∧ Good cells'

/-- What is known of the code of programs: it returns, from cells as they are at first on. -/
structure CodeReturns (programs : P → ChainProgram W E) (variableCount : ℕ)
    (Good : Cells W E → Prop) : Prop where
  starts : ∀ world filter pages, pages.WellFormed → Good (Cells.start world (some filter) pages)
  logs : ∀ cells, Good cells → cells.changes.WellFormed
  returns : ∀ program, (programs program).Returns variableCount Good

/-- The ranges of a chain have every slot that they name. -/
def RangesFit (programs : P → ChainProgram W E) (ranges : Address → Option (Ranged P)) : Prop :=
  ∀ pc ranged, ranges pc = some ranged →
    ranged.range.WellFormed (programs ranged.range.program).maxSlot ∧
      ranged.range.direct = (programs ranged.range.program).direct

/-- None of their outputs is of the variable of the last number. -/
def RangesNumbered (ranges : Address → Option (Ranged P)) : Prop :=
  ∀ pc ranged, ranges pc = some ranged → ranged.range.Numbered

lemma Chain.Coherent.rangesFit {programs : P → ChainProgram W E} {chain : Chain P}
    (h : chain.Coherent programs) : RangesFit programs chain.ranges := by
  intro pc ranged hranged
  obtain ⟨entry, hfind, rfl⟩ := Option.map_eq_some_iff.mp hranged
  obtain ⟨node, hnode, hentry⟩ := Option.bind_eq_some_iff.mp hfind
  obtain ⟨entry', hentry', hkept⟩ := h.entry pc node hnode
  obtain rfl := Option.some.inj (hentry.symm.trans hentry')
  exact ⟨hkept.range, hkept.direct⟩

namespace Turns

variable {programs : P → ChainProgram W E} {ranges : Address → Option (Ranged P)}
  {variableCount : ℕ} {Good : Cells W E → Prop} {t t' : Turns W E}

/-- What is so of turns wherever they get: what ran is there, the variables that were written are
listed, and there is a register for each that there is a number for. -/
structure Told (ranges : Address → Option (Ranged P)) (variableCount : ℕ) (t : Turns W E) :
    Prop where
  ran : ∀ turn ∈ t.ran, (ranges turn.1).isSome
  vars : t.vars.Listed
  registers : variableCount ≤ t.vars.registers.length

section Told

variable {range : ChainRange P} {copy : Bool}

lemma Told.call (h : t.Told ranges variableCount) (hcall : t.call programs range = some t') :
    t'.Told ranges variableCount := by
  obtain ⟨-, hran, -, -, -, registers, hlength, hvars⟩ := ran_of_call hcall
  refine ⟨hran ▸ h.ran, ?_, ?_⟩
  · rw [hvars]
    exact h.vars.registers hlength
  · rw [hvars]
    exact h.registers.trans hlength.ge

lemma Told.take (h : t.Told ranges variableCount) {slotCount : ℕ}
    (hrange : range.WellFormed slotCount) (htake : t.take range copy = some t') :
    t'.Told ranges variableCount := by
  obtain ⟨⟨vars, rfl⟩, htaken⟩ := onlyVars_of_take htake
  obtain ⟨hlisted, hle⟩ := listed_of_takeAll h.vars
    (fun output houtput => (hrange.outputsAt t.next output houtput).var) htaken
  exact ⟨h.ran, hlisted, h.registers.trans hle⟩

lemma Told.said (h : t.Told ranges variableCount) {slotCount : ℕ}
    (hrange : range.WellFormed slotCount) (hsaid : t.said range = some t') :
    t'.Told ranges variableCount := by
  rw [Turns.said] at hsaid
  split_ifs at hsaid
  · exact h.take hrange hsaid
  · exact Option.some.inj hsaid ▸ h

lemma Told.copied (h : t.Told ranges variableCount) {slotCount : ℕ}
    (hrange : range.WellFormed slotCount) (hcopied : t.copied range = some t') :
    t'.Told ranges variableCount := by
  rw [Turns.copied] at hcopied
  split_ifs at hcopied
  · exact Option.some.inj hcopied ▸ h
  · exact h.take hrange hcopied

lemma Told.count (h : t.Told ranges variableCount) (hhere : (ranges t.pc).isSome)
    (executed : ℕ) : (t.count executed).Told ranges variableCount := by
  refine ⟨fun turn hturn => ?_, h.vars, h.registers⟩
  rcases List.mem_append.mp hturn with hturn | hturn
  · exact h.ran turn hturn
  · rw [List.mem_singleton.mp hturn]
    exact hhere

/-- **Every turn keeps it so.** -/
theorem Told.step (h : t.Told ranges variableCount) (hfit : RangesFit programs ranges)
    {x : Turns W E ⊕ Turns W E} (hstep : t.step programs ranges = some x) :
    Sum.elim (Told ranges variableCount) (Told ranges variableCount) x := by
  obtain ⟨ranged, hranged, ⟨called, hcall, -, rfl⟩ | ⟨counted, ran, effect, hcounts, hx⟩⟩ :=
    step_cases hstep
  · exact h.call hcall
  obtain ⟨called, said, left, hcall, -, hsaid, -, -, -, rfl⟩ := hcounts
  have hwf := (hfit t.pc ranged hranged).1
  have hhere : (ranges said.pc).isSome := by
    obtain ⟨vars, rfl⟩ := onlyVars_of_said hsaid
    rw [show called.pc = t.pc from (ran_of_call hcall).pc, hranged]
    rfl
  have hcounted := ((h.call hcall).said hwf hsaid).count hhere (executedOf said.ran.isEmpty ran)
  rcases hx with rfl | ⟨copied, hcopied, hx⟩
  · exact hcounted
  have htold := hcounted.copied hwf hcopied
  rcases hx with rfl | ⟨target, -, -, -, gone, hgone, rfl⟩
  · exact htold
  · obtain ⟨state, rfl⟩ := goOn_cases hgone
    exact ⟨htold.ran, htold.vars, htold.registers⟩

end Told

/-- A run has what it needs: the slots of the range that it is at, and cells that are good. -/
structure Sound (Good : Cells W E → Prop) (ranges : Address → Option (Ranged P))
    (variableCount : ℕ) (t : Turns W E) : Prop where
  told : t.Told ranges variableCount
  here : ∃ ranged, ranges t.pc = some ranged ∧ ranged.range.slotCount ≤ t.state.length
  cells : Good t.cells

lemma Sound.call (h : t.Sound Good ranges variableCount) (hfit : RangesFit programs ranges)
    (hreturns : CodeReturns programs variableCount Good) {ranged : Ranged P}
    (hranged : ranges t.pc = some ranged) :
    ∃ t', t.call programs ranged.range = some t' ∧ t'.Sound Good ranges variableCount := by
  obtain ⟨ranged', hranged', hslots⟩ := h.here
  obtain rfl := Option.some.inj (hranged.symm.trans hranged')
  obtain ⟨hwf, hdirect⟩ := hfit t.pc ranged hranged
  obtain ⟨next, homes, cells, hfunction, hgood⟩ := hreturns.returns ranged.range.program t.state
    t.vars.registers t.cells (hwf.maxSlot.trans hslots) h.told.registers h.cells
  rw [← hdirect] at hfunction
  obtain ⟨t', hcall, hcells⟩ : ∃ t', t.call programs ranged.range = some t' ∧
      t'.cells = cells := by
    rw [Turns.call, hfunction]
    exact ⟨_, rfl, rfl⟩
  have hran := ran_of_call hcall
  exact ⟨t', hcall, h.told.call hcall, ⟨ranged, hran.pc ▸ hranged, hran.state.symm ▸ hslots⟩,
    hcells ▸ hgood⟩

lemma Sound.take (h : t.Sound Good ranges variableCount) (hfit : RangesFit programs ranges)
    (hnumbers : RangesNumbered ranges) {ranged : Ranged P} (hranged : ranges t.pc = some ranged)
    (copy : Bool) :
    ∃ t', t.take ranged.range copy = some t' ∧ t'.Sound Good ranges variableCount := by
  obtain ⟨ranged', hranged', hslots⟩ := h.here
  obtain rfl := Option.some.inj (hranged.symm.trans hranged')
  have hwf := (hfit t.pc ranged hranged).1
  obtain ⟨vars, htaken⟩ := takeAll_isSome (hwf.outputsAt t.next)
    (hnumbers t.pc ranged hranged t.next) hslots h.told.vars.even copy
  have htake : t.take ranged.range copy = some { t with vars := vars } := by
    rw [Turns.take, htaken]
    rfl
  exact ⟨_, htake, h.told.take hwf htake, ⟨ranged, hranged, hslots⟩, h.cells⟩

lemma slotOr_isSome {state : List (BitVec 64)} {slot : Option ℕ}
    (h : ∀ number ∈ slot, number < state.length) (value : BitVec 64) :
    ∃ found, slotOr state slot value = some found := by
  cases slot with
  | none => exact ⟨value, rfl⟩
  | some number => exact ⟨_, List.getElem?_eq_getElem (h number rfl)⟩

lemma Sound.said (h : t.Sound Good ranges variableCount) (hfit : RangesFit programs ranges)
    (hnumbers : RangesNumbered ranges) {ranged : Ranged P} (hranged : ranges t.pc = some ranged) :
    ∃ t', t.said ranged.range = some t' ∧ t'.Sound Good ranges variableCount := by
  rw [Turns.said]
  split_ifs
  · exact h.take hfit hnumbers hranged false
  · exact ⟨t, rfl, h⟩

lemma Sound.copied (h : t.Sound Good ranges variableCount) (hfit : RangesFit programs ranges)
    (hnumbers : RangesNumbered ranges) {ranged : Ranged P} (hranged : ranges t.pc = some ranged) :
    ∃ t', t.copied ranged.range = some t' ∧ t'.Sound Good ranges variableCount := by
  rw [Turns.copied]
  split_ifs
  · exact ⟨t, rfl, h⟩
  · exact h.take hfit hnumbers hranged true

lemma Sound.count (h : t.Sound Good ranges variableCount) (executed : ℕ) :
    (t.count executed).Sound Good ranges variableCount := by
  obtain ⟨ranged, hranged, hslots⟩ := h.here
  exact ⟨h.told.count (by rw [hranged]; rfl) executed, ⟨ranged, hranged, hslots⟩, h.cells⟩

/-- The next range has its slots. -/
lemma Sound.goOn (h : t.Sound Good ranges variableCount) (hfit : RangesFit programs ranges)
    {target : Ranged P} (htarget : ranges t.next = some target) (ran : ℕ) :
    ∃ t', t.goOn target ran = some t' ∧ t'.Sound Good ranges variableCount := by
  obtain ⟨state, hstate, hlength⟩ := (hfit t.next target htarget).1.enterSlots_isSome
    h.told.vars.even
    (nextBudget target.optimizeAt (target.executionsAfter t.ran t.next) (t.budget - ran)) t.spare
  simp only [Turns.goOn, hstate]
  exact ⟨_, rfl, ⟨h.told.ran, h.told.vars, h.told.registers⟩, ⟨target, htarget, hlength.ge⟩,
    h.cells⟩

lemma Sound.goFrom (h : t.Sound Good ranges variableCount) (hfit : RangesFit programs ranges)
    (hnumbers : RangesNumbered ranges) {ranged : Ranged P} (hranged : ranges t.pc = some ranged)
    (effect : BitVec 64) (ran : ℕ) :
    ∃ x, t.goFrom ranges ranged.range effect ran = some x ∧
      Sum.elim (Sound Good ranges variableCount) (Sound Good ranges variableCount) x := by
  rw [Turns.goFrom]
  split_ifs with hleaves
  · exact ⟨_, rfl, h⟩
  cases htarget : ranges t.next with
  | none => exact ⟨_, rfl, h⟩
  | some target =>
    simp only [goTo]
    split_ifs with hoptimize
    · exact ⟨_, rfl, h⟩
    obtain ⟨copied, hcopied, hsound⟩ := h.copied hfit hnumbers hranged
    obtain ⟨vars, rfl⟩ := onlyVars_of_copied hcopied
    simp only [hcopied, Option.bind_eq_bind, Option.bind_some]
    split_ifs with hbound
    · obtain ⟨gone, hgone, hgood⟩ := hsound.goOn hfit htarget ran
      exact ⟨.inl gone, by rw [hgone]; rfl, hgood⟩
    · exact ⟨_, rfl, hsound⟩

/-- **A turn is never undefined, and leaves what the next one needs.** -/
theorem Sound.step (h : t.Sound Good ranges variableCount) (hfit : RangesFit programs ranges)
    (hnumbers : RangesNumbered ranges) (hreturns : CodeReturns programs variableCount Good) :
    ∃ x, t.step programs ranges = some x ∧
      Sum.elim (Sound Good ranges variableCount) (Sound Good ranges variableCount) x := by
  obtain ⟨ranged, hranged, -⟩ := h.here
  obtain ⟨called, hcall, hcalled⟩ := h.call hfit hreturns hranged
  have hpc := (ran_of_call hcall).pc
  rw [Turns.step, hranged]
  simp only [Option.bind_eq_bind, Option.bind_some, hcall]
  split_ifs with herror
  · exact ⟨_, rfl, hcalled⟩
  obtain ⟨said, hsaid, hsound⟩ := hcalled.said hfit hnumbers (hpc ▸ hranged)
  obtain ⟨vars, rfl⟩ := onlyVars_of_said hsaid
  obtain ⟨hwf, -⟩ := hfit t.pc ranged hranged
  obtain ⟨ranged', hranged', hslots⟩ := hsound.here
  obtain rfl := Option.some.inj (hranged.symm.trans (hpc ▸ hranged'))
  obtain ⟨effect, heffect⟩ := slotOr_isSome
    (fun slot hslot => (hwf.effectSlot slot hslot).trans_le hslots) 0
  obtain ⟨left, hleft⟩ := slotOr_isSome
    (fun slot hslot => (hwf.budgetSlot slot hslot).trans_le hslots) (BitVec.ofNat 64 called.budget)
  simp only [hsaid, Option.bind_some, heffect, hleft]
  exact (hsound.count _).goFrom hfit hnumbers hranged' effect _

/-! ## Whole runs -/

/-- What ran can be said. -/
lemma Told.info (h : t.Told ranges variableCount) {first : ℕ} (hspent : t.Spent ranges first)
    (hfine : t.cells.error = none) {ranged : Ranged P} (hranged : ranges t.pc = some ranged) :
    ∃ each, (firsts t.ran).mapM (fun pc => (ranges pc).map fun ranged => ranged.ran t.ran pc) =
        some each ∧
      t.info ranges ranged.range = some ([ranged.range.id,
        BitVec.ofNat 64 (executedAll t.ran), if ranged.range.direct then 1 else 0,
        BitVec.ofNat 64 t.vars.dirty.length] ++
        t.vars.dirty.flatMap (fun var => [BitVec.ofNat 64 var, t.vars.value var]) ++
        [BitVec.ofNat 64 (firsts t.ran).length] ++ each.flatten) := by
  have hmapM : ∀ addresses : List Address, (∀ pc ∈ addresses, (ranges pc).isSome) →
      ∃ each, addresses.mapM (fun pc => (ranges pc).map fun ranged => ranged.ran t.ran pc) =
        some each := by
    intro addresses
    induction addresses with
    | nil => exact fun _ => ⟨[], rfl⟩
    | cons pc addresses ih =>
      intro hall
      obtain ⟨ranged, hranged⟩ := Option.isSome_iff_exists.mp (hall pc List.mem_cons_self)
      obtain ⟨each, heach⟩ := ih fun other hother => hall other (List.mem_cons_of_mem _ hother)
      refine ⟨ranged.ran t.ran pc :: each, ?_⟩
      rw [List.mapM_cons, hranged, heach]
      rfl
  obtain ⟨each, heach⟩ := hmapM (firsts t.ran) fun pc hpc => by
    obtain ⟨turn, hturn, rfl⟩ := List.mem_map.mp ((mem_firsts t.ran).mp hpc)
    exact h.ran turn hturn
  obtain ⟨ranged', hranged', hentered⟩ := hspent.entered hfine
  obtain rfl := Option.some.inj (hranged.symm.trans hranged')
  refine ⟨each, heach, ?_⟩
  rw [Turns.info, hentered, h.vars.mapM_said, heach]
  simp only [List.flatMap_def]
  rfl

/-- What is left after the last turn is defined. -/
lemma Sound.finish (h : t.Sound Good ranges variableCount)
    (hchanges : t.cells.changes.WellFormed) {first : ℕ} (hspent : t.Spent ranges first)
    (order : LogOrder) : ∃ after, t.finish order ranges = some after := by
  rw [Turns.finish]
  cases hfine : t.cells.error with
  | some error => exact ⟨_, rfl⟩
  | none =>
    obtain ⟨ranged, hranged, -⟩ := h.here
    obtain ⟨each, -, hinfo⟩ := h.told.info hspent hfine hranged
    have hnumbers := (order t.cells.changes).property
    simp only [hranged, Option.bind_eq_bind, Option.bind_some, hinfo,
      fillArray_map_forEach hchanges hnumbers]
    exact ⟨_, rfl⟩

end Turns

/-- A call is refused, or a run begins, unless it is to bind the variable of the last number. -/
lemma ChainCall.enter_isSome [DecidableEq P] (call : ChainCall W P)
    (ranges : Address → Option (Ranged P))
    (hbindings : ∀ binding ∈ call.bindings, binding.1.toNat + 1 < 2 ^ 64) :
    ∃ start : Except String (Turns W E), call.enter ranges = some start := by
  obtain ⟨vars, hvars⟩ := Variables.start_isSome call.variableCount hbindings
  simp only [ChainCall.enter, hvars, Option.bind_eq_bind, Option.bind_some]
  cases hranged : ranges call.firstPc with
  | none => exact ⟨_, rfl⟩
  | some ranged =>
    cases hproblem : call.problem ranged.range with
    | some message => exact ⟨.error message, by simp [hproblem]⟩
    | none => exact ⟨_, by simp only [hproblem]; rfl⟩

/-- A run that begins is at a range of the chain that its call is for. -/
lemma ChainCall.enter_ok [DecidableEq P] {ranges : Address → Option (Ranged P)}
    {call : ChainCall W P} {t : Turns W E} (h : call.enter ranges = some (.ok t)) :
    ∃ ranged vars, ranges call.firstPc = some ranged ∧ call.problem ranged.range = none ∧
      Variables.start call.variableCount call.bindings = some vars ∧
      t = ⟨call.firstPc, [], vars, call.state, [], call.firstBudget.toNat, 0,
        Cells.start call.world (some call.filter) call.pages, 0⟩ := by
  obtain ⟨vars, hvars, h⟩ := Option.bind_eq_some_iff.mp h
  cases hranged : ranges call.firstPc with
  | none => simp [hranged] at h
  | some ranged =>
    simp only [hranged] at h
    cases hproblem : call.problem ranged.range with
    | some message => simp [hproblem] at h
    | none =>
      simp only [hproblem] at h
      exact ⟨ranged, vars, rfl, hproblem, hvars, (Except.ok.inj (Option.some.inj h)).symm⟩

/-- Nothing is spent before the first turn. -/
lemma ChainCall.paid_enter [DecidableEq P] {ranges : Address → Option (Ranged P)}
    {call : ChainCall W P} {t : Turns W E} (h : call.enter ranges = some (.ok t)) :
    t.Paid call.firstBudget.toNat ∧ t.budget = call.firstBudget.toNat := by
  obtain ⟨ranged, vars, -, -, -, rfl⟩ := enter_ok h
  exact ⟨⟨by simp, rfl, le_refl 0⟩, rfl⟩

/-- Nothing was written before it. -/
lemma ChainCall.told_enter [DecidableEq P] {ranges : Address → Option (Ranged P)}
    {call : ChainCall W P} {t : Turns W E} (h : call.enter ranges = some (.ok t)) :
    t.Told ranges call.variableCount.toNat := by
  obtain ⟨ranged, vars, -, -, hvars, rfl⟩ := enter_ok h
  obtain ⟨hlisted, hlength⟩ := Variables.listed_start hvars
  exact ⟨by simp, hlisted, hlength⟩

/-- What is left after the last turn: a run that failed is taken back, and what another one
counted stays. -/
lemma Turns.finish_cases {ranges : Address → Option (Ranged P)} {order : LogOrder}
    {t : Turns W E} {after : TurnsAfter W E P} (h : t.finish order ranges = some after) :
    (∃ error, after.result = .error error ∧
      after.ranges = fun pc => (ranges pc).map fun ranged => ranged.takeBack t.ran pc) ∨
    ∃ ranged result, t.cells.error = none ∧ ranges t.pc = some ranged ∧
      t.info ranges ranged.range = some result.info ∧ after.result = .ok result ∧
      after.ranges = fun pc => (ranges pc).map fun ranged =>
        { ranged with executions := ranged.executionsAfter t.ran pc } := by
  rw [Turns.finish] at h
  cases hfine : t.cells.error with
  | some error =>
    simp only [hfine] at h
    obtain rfl := Option.some.inj h
    exact .inl ⟨error, rfl, rfl⟩
  | none =>
    simp only [hfine, Option.bind_eq_bind, Option.bind_eq_some_iff] at h
    obtain ⟨ranged, hranged, addresses, -, values, -, info, hinfo, hlast⟩ := h
    obtain rfl := Option.some.inj hlast
    exact .inr ⟨ranged, _, rfl, hranged, hinfo, rfl, rfl⟩

/-- What was counted can be taken back, if the count didn't come to 2 ^ 64. -/
lemma Ranged.takeBack_eq {ranged : Ranged P} {ran : List (Address × ℕ)} {pc : Address}
    (h : ranged.executions + executedAt ran pc < 2 ^ 64) : ranged.takeBack ran pc = ranged := by
  have hafter : ranged.executionsAfter ran pc = ranged.executions + executedAt ran pc :=
    Nat.mod_eq_of_lt h
  have hback : ranged.executionsAfter ran pc -
      min (ranged.executionsAfter ran pc) (executedAt ran pc) = ranged.executions := by omega
  rw [Ranged.takeBack, hback]

section Runs

variable [DecidableEq P] {programs : P → ChainProgram W E} {ranges : Address → Option (Ranged P)}
  {userError : String → E} {order : LogOrder} {call : ChainCall W P} {fuel : ℕ}

/-- **What a run leaves comes of its turns**, which were paid for, and tell what they did, or
there was something wrong with the call. -/
theorem runTurns_cases (hfit : RangesFit programs ranges) (hfuel : call.firstBudget.toNat < fuel)
    {after : TurnsAfter W E P}
    (hrun : runTurns userError order programs call ranges fuel = some (.inr after)) :
    (∃ message, after = ⟨ranges, call.world, call.pages, some call.filter,
      .error (userError message)⟩) ∨
    ∃ first t : Turns W E, call.enter ranges = some (.ok first) ∧
      Lockstep.run (Turns.step programs ranges) fuel first = some (.inr t) ∧
      t.Spent ranges call.firstBudget.toNat ∧ t.Told ranges call.variableCount.toNat ∧
      t.finish order ranges = some after := by
  rw [runTurns] at hrun
  cases henter : (call.enter ranges : Option (Except String (Turns W E))) with
  | none => simp [henter] at hrun
  | some start =>
  cases start with
  | error message =>
    simp only [henter] at hrun
    exact .inl ⟨message, (Sum.inr.inj (Option.some.inj hrun)).symm⟩
  | ok first =>
    obtain ⟨hpaid, hbudget⟩ := ChainCall.paid_enter henter
    have htold := ChainCall.told_enter henter
    simp only [henter] at hrun
    cases hturns : Lockstep.run (Turns.step programs ranges) fuel first with
    | none => simp [hturns] at hrun
    | some x =>
      obtain ⟨last, rfl, hspent⟩ := hpaid.run call.firstBudget.isLt (hbudget ▸ hfuel) hturns
      have hlast := run_invariant
        (fun t x (h : Turns.Told ranges call.variableCount.toNat t) => h.step hfit) htold hturns
      simp only [hturns] at hrun
      obtain ⟨after', hfinish, hafter⟩ := Option.map_eq_some_iff.mp hrun
      obtain rfl := Sum.inr.inj hafter
      exact .inr ⟨first, last, rfl, hturns, hspent, hlast, hfinish⟩

/-- After a run, what is at an address is of the range that it was. -/
lemma range_of_runTurns (hfit : RangesFit programs ranges)
    (hfuel : call.firstBudget.toNat < fuel) {after : TurnsAfter W E P}
    (hrun : runTurns userError order programs call ranges fuel = some (.inr after)) {pc : Address}
    {ranged : Ranged P} (hranged : after.ranges pc = some ranged) :
    ∃ old, ranges pc = some old ∧ ranged.range = old.range := by
  rcases runTurns_cases hfit hfuel hrun with ⟨message, rfl⟩ | ⟨_, last, -, -, -, -, hfinish⟩
  · exact ⟨ranged, hranged, rfl⟩
  rcases Turns.finish_cases hfinish with ⟨_, -, hranges⟩ | ⟨_, _, -, -, -, -, hranges⟩
  · rw [hranges] at hranged
    obtain ⟨old, hold, rfl⟩ := Option.map_eq_some_iff.mp hranged
    exact ⟨old, hold, rfl⟩
  · rw [hranges] at hranged
    obtain ⟨old, hold, rfl⟩ := Option.map_eq_some_iff.mp hranged
    exact ⟨old, hold, rfl⟩

/-- **A run that failed leaves the ranges as they were.** -/
theorem ranges_of_failed (hfit : RangesFit programs ranges)
    (hfuel : call.firstBudget.toNat < fuel) {after : TurnsAfter W E P}
    (hrun : runTurns userError order programs call ranges fuel = some (.inr after)) {error : E}
    (herror : after.result = .error error)
    (hcounts : ∀ pc ranged, ranges pc = some ranged →
      ranged.executions + call.firstBudget.toNat < 2 ^ 64) : after.ranges = ranges := by
  rcases runTurns_cases hfit hfuel hrun with ⟨message, rfl⟩ | ⟨_, last, -, -, hspent, -, hfinish⟩
  · rfl
  rcases Turns.finish_cases hfinish with ⟨error', -, hranges⟩ | ⟨_, result, -, -, -, hok, -⟩
  · rw [hranges]
    funext pc
    cases hranged : ranges pc with
    | none => rfl
    | some ranged =>
      have hcount := hcounts pc ranged hranged
      have hexecuted := (executedAt_le_executedAll last.ran pc).trans hspent.executed
      rw [Option.map_some, Ranged.takeBack_eq (by omega)]
  · simp [hok] at herror

variable {variableCount : ℕ} {Good : Cells W E → Prop}

/-- What the first turn needs is there. -/
lemma ChainCall.sound_enter (hreturns : CodeReturns programs variableCount Good)
    (hcount : variableCount ≤ call.variableCount.toNat) (hpages : call.pages.WellFormed)
    {t : Turns W E} (h : call.enter ranges = some (.ok t)) :
    t.Sound Good ranges variableCount := by
  obtain ⟨hran, hvars, hregisters⟩ := told_enter h
  obtain ⟨ranged, vars, hranged, hproblem, -, rfl⟩ := enter_ok h
  have hslots : ranged.range.slotCount ≤ call.state.length := by
    rw [ChainCall.problem] at hproblem
    split_ifs at hproblem with hother hfew
    exact Nat.not_lt.mp hfew
  exact ⟨⟨hran, hvars, hcount.trans hregisters⟩, ⟨ranged, hranged, hslots⟩,
    hreturns.starts _ _ _ hpages⟩

/-- **The turns of a run come to an end**, unless one is of the variable of the last number. -/
theorem runTurns_isSome (hfit : RangesFit programs ranges) (hnumbers : RangesNumbered ranges)
    (hreturns : CodeReturns programs variableCount Good) (userError : String → E)
    (order : LogOrder) (hcount : variableCount ≤ call.variableCount.toNat)
    (hbindings : ∀ binding ∈ call.bindings, binding.1.toNat + 1 < 2 ^ 64)
    (hpages : call.pages.WellFormed) (hfuel : call.firstBudget.toNat < fuel) :
    ∃ after, runTurns userError order programs call ranges fuel = some (.inr after) := by
  obtain ⟨start, henter⟩ := call.enter_isSome (E := E) ranges hbindings
  rw [runTurns, henter]
  cases start with
  | error message => exact ⟨_, rfl⟩
  | ok first =>
    obtain ⟨hpaid, hbudget⟩ := ChainCall.paid_enter henter
    obtain ⟨x, hrun, hlast⟩ := run_total
      (fun t (h : Turns.Sound Good ranges variableCount t) => h.step hfit hnumbers hreturns) fuel
      (ChainCall.sound_enter hreturns hcount hpages henter)
    obtain ⟨last, rfl, hspent⟩ := hpaid.run call.firstBudget.isLt (hbudget ▸ hfuel) hrun
    obtain ⟨after, hfinish⟩ := hlast.finish (hreturns.logs _ hlast.cells) hspent order
    simp only [hrun, hfinish]
    exact ⟨after, rfl⟩

end Runs

end BapNative.Jit
