import BapNative.Jit.Chain

/-!
# Ranges in turn

What a run of a chain is to be, by obligation 17 of `Bap.Jit`: ranges one after another, each
found by where the last one went, with what the variables hold by then.  Nothing is remembered
from one to the next.  Every range is searched for, whatever it needs is looked up each time,
and whatever it wrote is said each time.  The ranges themselves do not change while they run.
What is counted of them, and all that the run says at its end, comes of the list of what ran.

The chain of `native/bap_jit.cpp` is not that.  An entry has a pointer to where it went last,
and two numbers of runs for which nothing has to be looked at again, and counters that are
changed in place.  This file shows that it does the same, as long as its pointers are to entries
that are there, and that every operation of a chain keeps them so.
-/

namespace BapNative.Jit

open Lockstep PagedMemory

variable {W E P : Type}

/-! ## What ran -/

/-- What there is at an address: a range, how often it ran and when it is to be optimized. -/
structure Ranged (P : Type) where
  range : ChainRange P
  executions : ℕ
  optimizeAt : Option ℕ

/-- The blocks that the runs of what is at an address entered. -/
def executedAt (ran : List (Address × ℕ)) (pc : Address) : ℕ :=
  ((ran.filter fun turn => turn.1 = pc).map Prod.snd).sum

/-- How many runs there were of what is at an address. -/
def runsAt (ran : List (Address × ℕ)) (pc : Address) : ℕ := (ran.map Prod.fst).count pc

/-- All the blocks that were entered. -/
def executedAll (ran : List (Address × ℕ)) : ℕ := (ran.map Prod.snd).sum

/-- The addresses of what ran, each once, as they were first come to. -/
def firsts (ran : List (Address × ℕ)) : List Address := (ran.map Prod.fst).eraseDups

/-- How often what is at an address has run by then. -/
def Ranged.executionsAfter (ranged : Ranged P) (ran : List (Address × ℕ)) (pc : Address) : ℕ :=
  (ranged.executions + executedAt ran pc) % 2 ^ 64

section Append

variable (ran : List (Address × ℕ)) (pc : Address) (executed : ℕ)

lemma executedAt_append (other : Address) :
    executedAt (ran ++ [(pc, executed)]) other =
      executedAt ran other + if other = pc then executed else 0 := by
  rw [executedAt, executedAt, List.filter_append, List.map_append, List.sum_append]
  by_cases hsame : other = pc
  · simp [hsame]
  · simp [hsame, Ne.symm hsame]

lemma runsAt_append (other : Address) :
    runsAt (ran ++ [(pc, executed)]) other = runsAt ran other + if other = pc then 1 else 0 := by
  rw [runsAt, runsAt, List.map_append, List.count_append]
  by_cases hsame : other = pc
  · simp [hsame]
  · simp [hsame, Ne.symm hsame]

lemma executedAll_append :
    executedAll (ran ++ [(pc, executed)]) = executedAll ran + executed := by
  simp [executedAll]

lemma executedAt_le_executedAll : executedAt ran pc ≤ executedAll ran := by
  induction ran with
  | nil => exact le_refl 0
  | cons turn ran ih =>
    simp only [executedAt, executedAll, List.map_cons, List.sum_cons] at ih ⊢
    by_cases hsame : turn.1 = pc
    · simpa [hsame] using ih
    · simp only [List.filter_cons, hsame, decide_false, Bool.false_eq_true, if_false]
      omega

lemma firsts_append : firsts (ran ++ [(pc, executed)]) =
    if pc ∈ ran.map Prod.fst then firsts ran else firsts ran ++ [pc] := by
  rw [firsts, firsts, List.map_append, List.eraseDups_append]
  split_ifs with hmem
  · simp [List.removeAll, hmem]
  · simp [List.removeAll, hmem, List.eraseDups_cons]

lemma nodup_firsts : (firsts ran).Nodup := by
  induction ran using List.reverseRecOn with
  | nil => exact List.nodup_nil
  | append_singleton ran turn ih =>
    rw [firsts_append]
    split_ifs with hmem
    · exact ih
    · rw [List.nodup_append]
      refine ⟨ih, List.nodup_singleton _, fun pc hpc other hother => ?_⟩
      rw [List.mem_singleton.mp hother]
      rintro rfl
      exact hmem (List.mem_eraseDups.mp hpc)

lemma mem_firsts {other : Address} : other ∈ firsts ran ↔ other ∈ ran.map Prod.fst :=
  List.mem_eraseDups

end Append

/-! ## Turns -/

/-- A run that has come to the range at an address. -/
structure Turns (W E : Type) where
  pc : Address
  ran : List (Address × ℕ)
  vars : Variables
  state : List (BitVec 64)
  spare : List (BitVec 64)
  budget : ℕ
  chained : ℕ
  cells : Cells W E
  next : BitVec 64

namespace Turns

/-- The code of a range runs. -/
def call (programs : P → ChainProgram W E) (range : ChainRange P) (t : Turns W E) :
    Option (Turns W E) := do
  let homes : Homes := ⟨t.state, if range.direct then some t.vars.registers else none⟩
  let (next, homes, cells) ← (programs range.program).function homes
    { t.cells with pendingSite := false }
  return { t with
    state := homes.state
    vars := { t.vars with registers := homes.registers.getD t.vars.registers }
    cells := cells
    next := next }

/-- The variables hold what the range wrote. -/
def take (range : ChainRange P) (copy : Bool) (t : Turns W E) : Option (Turns W E) := do
  return { t with vars := ← takeAll (range.outputsAt t.next) t.state copy t.vars }

/-- That is said of a range with registers when it has run. -/
def said (range : ChainRange P) (t : Turns W E) : Option (Turns W E) :=
  if range.direct then t.take range false else some t

/-- It is taken of one without when it is gone on from. -/
def copied (range : ChainRange P) (t : Turns W E) : Option (Turns W E) :=
  if range.direct then some t else t.take range true

/-- The range is one that ran. -/
def count (executed : ℕ) (t : Turns W E) : Turns W E :=
  { t with ran := t.ran ++ [(t.pc, executed)] }

/-- The next range is at where the last one went. -/
def goOn (target : Ranged P) (ran : ℕ) (t : Turns W E) : Option (Turns W E) := do
  let budget := nextBudget target.optimizeAt (target.executionsAfter t.ran t.next) (t.budget - ran)
  return { t with
    pc := t.next
    chained := t.chained + ran + 1
    budget := budget
    state := ← enterSlots target.range t.vars budget t.spare
    spare := t.state }

/-- What comes after a range that went to another. -/
def goTo (range : ChainRange P) (target : Ranged P) (ran : ℕ) (t : Turns W E) :
    Option (Turns W E ⊕ Turns W E) := do
  if toOptimize target.optimizeAt (target.executionsAfter t.ran t.next) then return .inr t
  let t ← t.copied range
  if target.range.required.all t.vars.isBound then return .inl (← t.goOn target ran)
  else return .inr t

/-- What comes after a range that ran. -/
def goFrom (ranges : Address → Option (Ranged P)) (range : ChainRange P) (effect : BitVec 64)
    (ran : ℕ) (t : Turns W E) : Option (Turns W E ⊕ Turns W E) :=
  if leavesAfter range effect t.cells.leanRan (t.budget - ran) then some (.inr t)
  else
    match ranges t.next with
    | none => some (.inr t)
    | some target => t.goTo range target ran

/-- A turn. -/
def step (programs : P → ChainProgram W E) (ranges : Address → Option (Ranged P))
    (t : Turns W E) : Option (Turns W E ⊕ Turns W E) := do
  let ranged ← ranges t.pc
  let range := ranged.range
  let t ← t.call programs range
  if t.cells.error.isSome then return .inr t
  let t ← t.said range
  let effect ← slotOr t.state range.effectSlot 0
  let left ← slotOr t.state range.budgetSlot (BitVec.ofNat 64 t.budget)
  let ran := ranChained t.budget left
  (t.count (executedOf t.ran.isEmpty ran)).goFrom ranges range effect ran

end Turns

/-! ## A whole run -/

/-- A run before its first turn, or what is wrong with the call. -/
def ChainCall.enter [DecidableEq P] (call : ChainCall W P) (ranges : Address → Option (Ranged P)) :
    Option (Except String (Turns W E)) := do
  let vars ← Variables.start call.variableCount call.bindings
  match ranges call.firstPc with
  | some ranged =>
    match call.problem ranged.range with
    | some message => return .error message
    | none =>
      return .ok {
        pc := call.firstPc
        ran := []
        vars := vars
        state := call.state
        spare := []
        budget := call.firstBudget.toNat
        chained := 0
        cells := Cells.start call.world (some call.filter) call.pages
        next := 0 }
  | none => return .error "JIT chain does not start at a range of the chain"

/-- What is to be said of what ran at an address: its number, its runs and its executions. -/
def Ranged.ran (ranged : Ranged P) (ran : List (Address × ℕ)) (pc : Address) : List (BitVec 64) :=
  [ranged.range.id, BitVec.ofNat 64 (runsAt ran pc), BitVec.ofNat 64 (executedAt ran pc)]

/-- What a run that failed leaves of what is at an address. -/
def Ranged.takeBack (ranged : Ranged P) (ran : List (Address × ℕ)) (pc : Address) : Ranged P :=
  { ranged with
    executions := ranged.executionsAfter ran pc -
      min (ranged.executionsAfter ran pc) (executedAt ran pc) }

/-- What a run leaves after it. -/
structure TurnsAfter (W E P : Type) where
  ranges : Address → Option (Ranged P)
  world : W
  pages : PagedMemory
  filter : Option MemoryFilter
  result : Except E ChainResult

namespace Turns

/-- The blocks that were entered after the first of all. -/
def entered (range : ChainRange P) (t : Turns W E) : Option ℕ := do
  match range.budgetSlot with
  | some slot => return t.chained + ranChained t.budget (← t.state[slot]?)
  | none => return t.chained

/-- `info`, of what ran. -/
def info (ranges : Address → Option (Ranged P)) (range : ChainRange P) (t : Turns W E) :
    Option (List (BitVec 64)) := do
  let entered ← t.entered range
  let written ← t.vars.dirty.mapM t.vars.said
  let each ← (firsts t.ran).mapM fun pc => (ranges pc).map fun ranged => ranged.ran t.ran pc
  return [range.id, BitVec.ofNat 64 entered, if range.direct then 1 else 0,
      BitVec.ofNat 64 t.vars.dirty.length] ++ written.flatten ++
    [BitVec.ofNat 64 (firsts t.ran).length] ++ each.flatten

/-- What is done after the last turn. -/
def finish (order : LogOrder) (ranges : Address → Option (Ranged P)) (t : Turns W E) :
    Option (TurnsAfter W E P) := do
  let changed := t.cells.changes.forEach (order t.cells.changes)
  let pages := noteChanges t.cells.pages changed
  match t.cells.error with
  | some error =>
    return ⟨fun pc => (ranges pc).map fun ranged => ranged.takeBack t.ran pc, t.cells.world, pages,
      t.cells.filter, .error error⟩
  | none =>
    let ranged ← ranges t.pc
    let addresses ← fillArray t.cells.changes.count (changed.map Prod.fst)
    let values ← fillArray t.cells.changes.count (changed.map Prod.snd)
    let info ← t.info ranges ranged.range
    let after := fun pc => (ranges pc).map fun ranged =>
      { ranged with executions := ranged.executionsAfter t.ran pc }
    return ⟨after, t.cells.world, pages, t.cells.filter,
      .ok ⟨t.next, t.state, addresses, values, info⟩⟩

end Turns

/-- `bap_jit_run_chain` as it is to be, for so many turns. -/
def runTurns [DecidableEq P] (userError : String → E) (order : LogOrder)
    (programs : P → ChainProgram W E) (call : ChainCall W P)
    (ranges : Address → Option (Ranged P)) (fuel : ℕ) :
    Option (Turns W E ⊕ TurnsAfter W E P) :=
  match call.enter ranges with
  | none => none
  | some (.error message) =>
    some (.inr ⟨ranges, call.world, call.pages, some call.filter, .error (userError message)⟩)
  | some (.ok t) =>
    match run (Turns.step programs ranges) fuel t with
    | none => none
    | some (.inl t) => some (.inl t)
    | some (.inr t) => (t.finish order ranges).map .inr

end BapNative.Jit
