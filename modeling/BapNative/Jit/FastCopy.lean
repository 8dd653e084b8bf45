import BapNative.Jit.Graph
import BapNative.Lib.Dfs

/-!
# A copy that doesn't count

What `compileOps` makes of a program with a budget when it is optimized.  A block leaves when
the budget is used up, which it checks before it goes on to the block that takes one from it.
The copy of a graph doesn't check there: the budget is checked against the number of all these
checks at its start and at each target of a jump back, and while it is enough the copy goes on,
and otherwise the blocks as they were.

Between two such points a run comes to no block twice, so that there are no more checks than the
budget that was there, and each that is left out would have gone on.
-/

namespace BapNative.Jit

open Llvm Lockstep PagedMemory

variable {W E N M : Type}

namespace Terminator

/-- A terminator with other blocks. -/
def map (f : N → M) : Terminator N → Terminator M
  | .ret value => .ret value
  | .retSlot src => .retSlot src
  | .br target => .br (f target)
  | .condBr condition yes no => .condBr condition (f yes) (f no)
  | .budgetBr slot least yes no => .budgetBr slot least (f yes) (f no)
  | .switch slot cases default =>
    .switch slot (cases.map fun case => (case.1, f case.2)) (f default)
  | .unreachable => .unreachable

/-- `getSuccessor`, of each index. -/
def successors : Terminator N → List N
  | .ret _ | .retSlot _ | .unreachable => []
  | .br target => [target]
  | .condBr _ yes no | .budgetBr _ _ yes no => [yes, no]
  | .switch _ cases default => default :: cases.map Prod.snd

/-- `budgetBranch`: whether it is a branch by whether the budget is used up. -/
def isBudget (budgetSlot : ℕ) : Terminator N → Bool
  | .condBr condition _ _ => condition == budgetSlot
  | _ => false

/-- Where a branch goes on by the budget, if it is one. -/
def checked (budgetSlot : ℕ) : Terminator N → Option N
  | .condBr condition yes _ => if condition == budgetSlot then some yes else none
  | _ => none

/-- The terminator of a copy, which doesn't check the budget. -/
def unchecked (budgetSlot : ℕ) : Terminator N → Terminator N
  | .condBr condition yes no =>
    if condition == budgetSlot then .br yes else .condBr condition yes no
  | terminator => terminator

end Terminator

/-- The blocks of what is made: as they were, of the copy, and those that check the budget before
a block of the copy. -/
inductive Node (N : Type) where
  | slow (block : N)
  | fast (block : N)
  | check (block : N)
deriving DecidableEq

namespace Graph

variable (budgetSlot : ℕ) (nodes : Finset N) (graph : Graph N)

/-- Where a block of the copy may go. -/
def copySuccessors (block : N) : List N :=
  ((graph.block block).exit.unchecked budgetSlot).successors

/-- How many blocks check the budget. -/
def checks : ℕ := (nodes.filter fun block => (graph.block block).exit.isBudget budgetSlot).card

/-- A graph that has no copy. -/
def unchanged : Graph (Node N) where
  entry := .slow graph.entry
  block
    | .slow block | .fast block | .check block =>
      ⟨(graph.block block).body, (graph.block block).exit.map .slow⟩

variable [DecidableEq N]

/-- The targets of the jumps back of the copy. -/
def jumpsBack : Option (List N) :=
  let successors := graph.copySuccessors budgetSlot
  Dfs.search successors (∑ block ∈ nodes, ((successors block).length + 1))
    (Dfs.start successors graph.entry)

/-- Where the copy goes, which checks the budget before the targets of its jumps back. -/
def copyTarget (targets : List N) (target : N) : Node N :=
  if target ∈ targets then .check target else .fast target

/-- A graph with a copy of it, which has these as the targets of its jumps back. -/
def withCopy (targets : List N) : Graph (Node N) where
  entry := .check graph.entry
  block
    | .slow block => ⟨(graph.block block).body, (graph.block block).exit.map .slow⟩
    | .fast block =>
      ⟨(graph.block block).body,
        ((graph.block block).exit.unchecked budgetSlot).map (copyTarget targets)⟩
    | .check block =>
      ⟨[], .budgetBr budgetSlot (BitVec.ofNat 64 (graph.checks budgetSlot nodes)) (.fast block)
        (.slow block)⟩

/-- What is made of a graph, which stays as it is if nothing checks the budget. -/
def fastCopy : Option (Graph (Node N)) :=
  if graph.checks budgetSlot nodes = 0 then some graph.unchanged
  else do
    let targets ← graph.jumpsBack budgetSlot nodes
    return graph.withCopy budgetSlot nodes targets

end Graph

/-! ## Where a block goes -/

/-- A block ends in the same way whatever its successors are called. -/
lemma Graph.leave_cases (exit : Terminator N) (native : Native W E) :
    (∃ target ∈ exit.successors, ∀ (M : Type) (f : N → M) (graph : Graph M),
      graph.leave native (exit.map f) = some (.inl (graph.block (f target), native))) ∨
    (∃ value, ∀ (M : Type) (f : N → M) (graph : Graph M),
      graph.leave native (exit.map f) = some (.inr (value, native))) ∨
    ∀ (M : Type) (f : N → M) (graph : Graph M), graph.leave native (exit.map f) = none := by
  cases exit with
  | ret value => exact Or.inr (Or.inl ⟨value, fun _ _ _ => rfl⟩)
  | retSlot src =>
    cases hload : native.load src with
    | none => exact Or.inr (Or.inr fun _ _ _ => by simp [Terminator.map, leave, hload])
    | some value =>
      exact Or.inr (Or.inl ⟨value, fun _ _ _ => by simp [Terminator.map, leave, hload]⟩)
  | br target => exact Or.inl ⟨target, List.mem_singleton_self target, fun _ _ _ => rfl⟩
  | condBr condition yes no =>
    cases hload : native.load condition with
    | none => exact Or.inr (Or.inr fun _ _ _ => by simp [Terminator.map, leave, hload])
    | some value =>
      refine Or.inl ⟨if icmp .ne value 0#64 then yes else no, ?_, fun M f graph => ?_⟩
      · split_ifs <;> simp [Terminator.successors]
      · by_cases hvalue : icmp .ne value 0#64 <;> simp [Terminator.map, leave, hload, hvalue]
  | budgetBr slot least yes no =>
    cases hload : native.load slot with
    | none => exact Or.inr (Or.inr fun _ _ _ => by simp [Terminator.map, leave, hload])
    | some value =>
      refine Or.inl ⟨if icmp .uge value least then yes else no, ?_, fun M f graph => ?_⟩
      · split_ifs <;> simp [Terminator.successors]
      · by_cases hvalue : icmp .uge value least <;> simp [Terminator.map, leave, hload, hvalue]
  | switch slot cases default =>
    cases hload : native.load slot with
    | none => exact Or.inr (Or.inr fun _ _ _ => by simp [Terminator.map, leave, hload])
    | some value =>
      refine Or.inl ⟨((cases.find? fun case => case.1 == value).map Prod.snd).getD default, ?_,
        fun M f graph => ?_⟩
      · cases hfind : cases.find? fun case => case.1 == value with
        | none => exact List.mem_cons_self
        | some found =>
          have hmem := List.mem_of_find?_eq_some hfind
          exact List.mem_cons_of_mem _ (List.mem_map.mpr ⟨found, hmem, rfl⟩)
      · have hfind :
            (cases.map fun case => (case.1, f case.2)).find? (fun case => case.1 == value) =
            (cases.find? fun case => case.1 == value).map fun case => (case.1, f case.2) :=
          List.find?_map
        simp only [Terminator.map, leave, hload, Option.bind_eq_bind, Option.bind_some, hfind]
        cases cases.find? fun case => case.1 == value <;> rfl
  | unreachable => exact Or.inr (Or.inr fun _ _ _ => rfl)

/-! ## Graphs that count -/

/-- The operation that takes one from the budget. -/
def decrement (budgetSlot : ℕ) : Op := .add budgetSlot budgetSlot (BitVec.allOnes 64)

/-- How a run comes to a block that still owes what the check before `first` let it go on for:
`first` right after that check, which alone goes there, and another block from one that owes the
same, and that comes before it. -/
def Enters (budgetSlot : ℕ) (nodes : Finset N) (graph : Graph N) (head : N → Option N)
    (place : N → ℕ) (block target first : N) : Prop :=
  (first = target ∧ (graph.block block).exit.checked budgetSlot = some target ∧
    ∀ other ∈ nodes, target ∈ (graph.block other).exit.successors → other = block) ∨
  (head block = some first ∧ decrement budgetSlot ∉ (graph.block block).body ∧
    place block < place target)

/-- A graph takes one from its budget at most once for each time that it was checked that there is
one: `head` says at which block a run went on from the check that a block still owes one for. -/
structure Metered (budgetSlot : ℕ) (nodes : Finset N) (graph : Graph N) (head : N → Option N)
    (place : N → ℕ) : Prop where
  once : ∀ block ∈ nodes, (graph.block block).body.count (decrement budgetSlot) ≤ 1
  only : ∀ block ∈ nodes, ∀ op ∈ (graph.block block).body, op ≠ decrement budgetSlot →
    op.writes ≠ some budgetSlot
  entry : head graph.entry = none
  counts : ∀ block ∈ nodes, decrement budgetSlot ∈ (graph.block block).body → head block ≠ none
  enters : ∀ block ∈ nodes, ∀ target ∈ (graph.block block).exit.successors,
    ∀ first ∈ head target, Enters budgetSlot nodes graph head place block target first

instance [DecidableEq N] (budgetSlot : ℕ) (nodes : Finset N) (graph : Graph N)
    (head : N → Option N) (place : N → ℕ) (block target first : N) :
    Decidable (Enters budgetSlot nodes graph head place block target first) :=
  inferInstanceAs (Decidable ((first = target ∧ _ = some target ∧
    ∀ other ∈ nodes, target ∈ (graph.block other).exit.successors → other = block) ∨ _))

/-- Whether a graph counts so can be checked, block by block. -/
instance [DecidableEq N] (budgetSlot : ℕ) (nodes : Finset N) (graph : Graph N)
    (head : N → Option N) (place : N → ℕ) :
    Decidable (Metered budgetSlot nodes graph head place) :=
  decidable_of_iff
    ((∀ block ∈ nodes, (graph.block block).body.count (decrement budgetSlot) ≤ 1) ∧
      (∀ block ∈ nodes, ∀ op ∈ (graph.block block).body, op ≠ decrement budgetSlot →
        op.writes ≠ some budgetSlot) ∧
      head graph.entry = none ∧
      (∀ block ∈ nodes, decrement budgetSlot ∈ (graph.block block).body → head block ≠ none) ∧
      ∀ block ∈ nodes, ∀ target ∈ (graph.block block).exit.successors, ∀ first ∈ head target,
        Enters budgetSlot nodes graph head place block target first)
    ⟨fun ⟨once, only, entry, counts, enters⟩ => ⟨once, only, entry, counts, enters⟩,
      fun h => ⟨h.once, h.only, h.entry, h.counts, h.enters⟩⟩

/-- What a run owes when it comes to a block. -/
def owed (head : N → Option N) (block : N) : ℕ := if (head block).isSome then 1 else 0

/-- What it owes where so much of a block is left. -/
def pending (budgetSlot : ℕ) (graph : Graph N) (head : N → Option N) (block : N)
    (body : List Op) : ℕ :=
  if decrement budgetSlot ∈ (graph.block block).body then body.count (decrement budgetSlot)
  else owed head block

section Copy

variable {budgetSlot : ℕ} {nodes : Finset N} {graph : Graph N} {head : N → Option N}
  {place : N → ℕ}

lemma unchecked_of_isBudget {exit : Terminator N} (h : exit.isBudget budgetSlot = false) :
    exit.unchecked budgetSlot = exit := by
  cases exit with
  | condBr condition yes no => exact if_neg (by simpa [Terminator.isBudget] using h)
  | _ => rfl

lemma checked_of_isBudget {exit : Terminator N} (h : exit.isBudget budgetSlot = false) :
    exit.checked budgetSlot = none := by
  cases exit with
  | condBr condition yes no => exact if_neg (by simpa [Terminator.isBudget] using h)
  | _ => rfl

lemma eq_condBr_of_isBudget {exit : Terminator N} (h : exit.isBudget budgetSlot = true) :
    ∃ yes no, exit = .condBr budgetSlot yes no ∧ exit.unchecked budgetSlot = .br yes := by
  cases exit with
  | condBr condition yes no =>
    obtain rfl : condition = budgetSlot := by simpa [Terminator.isBudget] using h
    exact ⟨yes, no, rfl, by simp [Terminator.unchecked]⟩
  | _ => simp [Terminator.isBudget] at h

/-- The copy goes where the graph does. -/
lemma mem_successors_of_copy {block target : N}
    (h : target ∈ graph.copySuccessors budgetSlot block) :
    target ∈ (graph.block block).exit.successors := by
  rw [Graph.copySuccessors] at h
  cases hbudget : (graph.block block).exit.isBudget budgetSlot with
  | false => rwa [unchecked_of_isBudget hbudget] at h
  | true =>
    obtain ⟨yes, no, heq, hunchecked⟩ := eq_condBr_of_isBudget hbudget
    rw [hunchecked] at h
    rw [heq]
    exact List.mem_cons.mpr (Or.inl (List.mem_singleton.mp h))

/-! ## Blocks that owe -/

section Owes

variable (hentry : graph.entry ∈ nodes)
  (hnodes : ∀ block, ∀ target ∈ (graph.block block).exit.successors, target ∈ nodes)

include hentry hnodes

/-- A way goes only to blocks of the graph. -/
lemma mem_nodes_of_walk {block : N} {path : List N}
    (hwalk : Dfs.Walk (graph.copySuccessors budgetSlot) graph.entry (block :: path)) :
    block ∈ nodes := by
  cases hwalk with
  | root => exact hentry
  | next hedge _ => exact hnodes _ _ (mem_successors_of_copy hedge)

variable (h : Metered budgetSlot nodes graph head place)

include h

/-- A way to a block that owes went through the block after its check. -/
lemma mem_of_walk {block first : N} {path : List N}
    (hwalk : Dfs.Walk (graph.copySuccessors budgetSlot) graph.entry (block :: path))
    (hhead : head block = some first) : first ∈ block :: path := by
  induction path generalizing block with
  | nil =>
    cases hwalk with
    | root =>
      rw [h.entry] at hhead
      simp at hhead
  | cons below path ih =>
    cases hwalk with
    | next hedge rest =>
      have hmem := mem_nodes_of_walk hentry hnodes rest
      rcases h.enters below hmem block (mem_successors_of_copy hedge) first hhead with
        ⟨rfl, -⟩ | ⟨hbelow, -⟩
      · exact List.mem_cons_self
      · exact List.mem_cons_of_mem _ (ih rest hbelow)

/-- A way from a block to one that owes the same and comes before it went through the block after
their check on the way. -/
lemma mem_front {block top first : N} {front path : List N}
    (hwalk : Dfs.Walk (graph.copySuccessors budgetSlot) graph.entry
      (top :: front ++ block :: path))
    (hhead : head top = some first) (hplace : place top < place block) :
    first ∈ top :: front := by
  induction front generalizing top with
  | nil =>
    cases hwalk with
    | next hedge rest =>
      have hmem := mem_nodes_of_walk hentry hnodes rest
      rcases h.enters block hmem top (mem_successors_of_copy hedge) first hhead with
        ⟨rfl, -⟩ | ⟨-, -, hlt⟩
      · exact List.mem_cons_self
      · exact absurd hlt (not_lt.mpr hplace.le)
  | cons below front ih =>
    cases hwalk with
    | next hedge rest =>
      have hmem := mem_nodes_of_walk hentry hnodes rest
      rcases h.enters below hmem top (mem_successors_of_copy hedge) first hhead with
        ⟨rfl, -⟩ | ⟨hbelow, -, hlt⟩
      · exact List.mem_cons_self
      · exact List.mem_cons_of_mem _ (ih rest hbelow (hlt.trans hplace))

/-- A block that owes isn't the target of a jump back. -/
lemma head_of_goesBack {target : N}
    (hback : Dfs.GoesBack (graph.copySuccessors budgetSlot) graph.entry target) :
    head target = none := by
  by_contra howes
  obtain ⟨first, hhead⟩ := Option.ne_none_iff_exists'.mp howes
  obtain ⟨last, path, hwalk, hnodup, hmem, hedge⟩ := hback
  obtain ⟨front, rest, heq⟩ := List.append_of_mem hmem
  have hbelow : Dfs.Walk (graph.copySuccessors budgetSlot) graph.entry (target :: rest) := by
    rw [heq] at hwalk
    exact hwalk.suffix
  have hfirst := mem_of_walk hentry hnodes h hbelow hhead
  have hmem := mem_nodes_of_walk hentry hnodes hwalk
  rcases h.enters last hmem target (mem_successors_of_copy hedge) first hhead with
    ⟨-, -, halone⟩ | ⟨hlast, -, hplace⟩
  · -- the way came to the target from the check, which is its last block
    cases hbelow with
    | root =>
      rw [h.entry] at hhead
      simp at hhead
    | @next _ before path' hedge' hrest =>
      have hbefore := mem_nodes_of_walk hentry hnodes hrest
      obtain rfl := halone before hbefore (mem_successors_of_copy hedge')
      cases front with
      | nil =>
        obtain ⟨rfl, rfl⟩ := List.cons.inj heq
        simp at hnodup
      | cons top front =>
        obtain ⟨rfl, rfl⟩ := List.cons.inj heq
        simp at hnodup
  · cases front with
    | nil =>
      obtain ⟨rfl, -⟩ := List.cons.inj heq
      exact lt_irrefl _ hplace
    | cons top front =>
      obtain ⟨rfl, rfl⟩ := List.cons.inj heq
      have hfront := mem_front hentry hnodes h hwalk hlast hplace
      exact (List.disjoint_of_nodup_append hnodup) hfront hfirst

end Owes

/-- A run owes no more within a block than when it came to it. -/
lemma Metered.pending_le (h : Metered budgetSlot nodes graph head place) {block : N}
    (hblock : block ∈ nodes) :
    pending budgetSlot graph head block (graph.block block).body ≤ owed head block := by
  rw [pending]
  split_ifs with hmem
  · rw [owed, if_pos (Option.isSome_iff_ne_none.mpr (h.counts block hblock hmem))]
    exact h.once block hblock
  · exact le_rfl

/-- A block that doesn't check the budget goes to none that owes more than it does at its end. -/
lemma Metered.owed_le (h : Metered budgetSlot nodes graph head place) {block target : N}
    (hmem : block ∈ nodes) (htarget : target ∈ (graph.block block).exit.successors)
    (hbudget : (graph.block block).exit.isBudget budgetSlot = false) :
    owed head target ≤ pending budgetSlot graph head block [] := by
  cases hhead : head target with
  | none => simp [owed, hhead]
  | some first =>
    rcases h.enters block hmem target htarget first hhead with
      ⟨-, hchecked, -⟩ | ⟨hblock, hfree, -⟩
    · rw [checked_of_isBudget hbudget] at hchecked
      simp at hchecked
    · simp [pending, hfree, owed, hhead, hblock]

lemma owed_le_one (head : N → Option N) (block : N) : owed head block ≤ 1 := by
  rw [owed]
  split_ifs <;> omega

lemma pending_decrement {block : N} (hmem : decrement budgetSlot ∈ (graph.block block).body)
    (body : List Op) : pending budgetSlot graph head block (decrement budgetSlot :: body) =
      pending budgetSlot graph head block body + 1 := by
  rw [pending, pending, if_pos hmem, if_pos hmem, List.count_cons_self]

lemma pending_cons {op : Op} (hop : op ≠ decrement budgetSlot) (block : N) (body : List Op) :
    pending budgetSlot graph head block (op :: body) =
      pending budgetSlot graph head block body := by
  rw [pending, pending, List.count_cons_of_ne hop]

/-! ## What is left of the budget -/

variable {targets reach : List N} {rank : N → ℕ} {setup : Setup W E}

/-- No more checks were passed than there are, and fewer if one is still to come. -/
lemma card_passed_lt {block : N} {passed : Finset N} (hmem : block ∈ nodes)
    (hbudget : (graph.block block).exit.isBudget budgetSlot = true)
    (hpassed : ∀ other ∈ passed, other ∈ nodes ∧
      (graph.block other).exit.isBudget budgetSlot = true ∧ rank block < rank other) :
    passed.card < graph.checks budgetSlot nodes := by
  refine Finset.card_lt_card (Finset.ssubset_iff_subset_ne.mpr ⟨fun other hother => ?_, ?_⟩)
  · obtain ⟨hnode, hother, -⟩ := hpassed other hother
    exact Finset.mem_filter.mpr ⟨hnode, hother⟩
  · intro heq
    have hself : block ∈ passed := by
      rw [heq]
      exact Finset.mem_filter.mpr ⟨hmem, hbudget⟩
    exact lt_irrefl _ (hpassed block hself).2.2

lemma card_passed_le {passed : Finset N} (hpassed : ∀ other ∈ passed, other ∈ nodes ∧
      (graph.block other).exit.isBudget budgetSlot = true) :
    passed.card ≤ graph.checks budgetSlot nodes :=
  Finset.card_le_card fun other hother => Finset.mem_filter.mpr (hpassed other hother)

/-- What an operation of a block leaves of the budget. -/
lemma Metered.execute (h : Metered budgetSlot nodes graph head place) {block : N}
    (hblock : block ∈ nodes) {op : Op} {body : List Op} (hop : op ∈ (graph.block block).body)
    {native native' : Native W E}
    {value : BitVec 64} (hexecute : native.execute setup op = some (.next native'))
    (hload : native.load budgetSlot = some value) {checks passed : ℕ} (hpassed : passed ≤ checks)
    (hleft : checks + pending budgetSlot graph head block (op :: body) ≤
      value.toNat + passed) :
    ∃ value', native'.load budgetSlot = some value' ∧
      checks + pending budgetSlot graph head block body ≤ value'.toNat + passed := by
  by_cases hdecrement : op = decrement budgetSlot
  · subst hdecrement
    rw [pending_decrement hop] at hleft
    have hslot : budgetSlot < native.state.length := (List.getElem?_eq_some_iff.mp hload).1
    have hnext : native' =
        ⟨native.state.set budgetSlot (value + BitVec.allOnes 64), native.cells⟩ := by
      simp only [decrement, Native.execute, hload] at hexecute
      exact Native.next_store_eq hexecute
    refine ⟨value + BitVec.allOnes 64, ?_, ?_⟩
    · simp [hnext, Native.load, hslot]
    · have hvalue := value.isLt
      have hpos : 1 ≤ value.toNat := by linarith [hpassed]
      rw [BitVec.toNat_add, BitVec.toNat_allOnes]
      omega
  · rw [pending_cons hdecrement] at hleft
    exact ⟨value,
      (Native.load_execute hexecute (h.only block hblock op hop hdecrement)).trans hload,
      hleft⟩

/-! ## The copy follows the graph -/

lemma Terminator.map_id (exit : Terminator N) : exit.map id = exit := by
  cases exit with
  | switch slot cases default => simp [Terminator.map]
  | _ => rfl

/-- The checks of the budget are steps of the copy alone. -/
def checkRank (point : BasicBlock (Node N) × Native W E) : ℕ :=
  match point.1.exit with
  | .budgetBr _ _ (.fast _) (.slow _) => 1
  | _ => 0

lemma checkRank_slow (body : List Op) (exit : Terminator N) (native : Native W E) :
    checkRank (⟨body, exit.map .slow⟩, native) = 0 := by
  cases exit <;> rfl

/-- Blocks under other names do what they did. -/
lemma follows_renamed {copy : Graph M} {f : N → M}
    {P : BasicBlock M × Native W E → BasicBlock N × Native W E → Prop}
    {measure : BasicBlock M × Native W E → ℕ}
    (hblock : ∀ block, copy.block (f block) =
      ⟨(graph.block block).body, (graph.block block).exit.map f⟩)
    (hP : ∀ body exit native, P (⟨body, exit.map f⟩, native) (⟨body, exit⟩, native))
    (body : List Op) (exit : Terminator N) (native : Native W E) :
    Follows (copy.step setup) (graph.step setup) P Eq measure
      (⟨body, exit.map f⟩, native) (⟨body, exit⟩, native) := by
  refine Or.inr fun y hy => ?_
  cases body with
  | nil =>
    simp only [Graph.step] at hy ⊢
    rw [← exit.map_id] at hy
    rcases Graph.leave_cases exit native with ⟨target, -, hleave⟩ | ⟨value, hleave⟩ | hleave
    · rw [hleave] at hy
      obtain rfl := Option.some.inj hy
      refine ⟨_, hleave _ _ _, .inl ?_⟩
      rw [hblock]
      exact hP _ _ _
    · rw [hleave] at hy
      obtain rfl := Option.some.inj hy
      exact ⟨_, hleave _ _ _, .inr rfl⟩
    · rw [hleave] at hy
      simp at hy
  | cons op body =>
    rcases Graph.step_cons hy with ⟨native', hnext, rfl⟩ | ⟨value, native', hret, rfl⟩
    · exact ⟨_, Graph.step_next hnext, .inl (hP _ _ _)⟩
    · exact ⟨_, Graph.step_ret hret, .inr rfl⟩

/-- What is left of a block, under other names, beside itself. -/
inductive Renamed (f : N → M) : BasicBlock M × Native W E → BasicBlock N × Native W E → Prop
  | intro (body : List Op) (exit : Terminator N) (native : Native W E) :
      Renamed f (⟨body, exit.map f⟩, native) (⟨body, exit⟩, native)

/-- A graph with blocks under other names does what it does. -/
lemma alike_renamed {copy : Graph M} {f : N → M}
    (hblock : ∀ block, copy.block (f block) =
      ⟨(graph.block block).body, (graph.block block).exit.map f⟩) {block : N}
    {native : Native W E} (hsafe : Safe (graph.step setup) (graph.block block, native)) :
    Alike (copy.step setup) (graph.step setup) Eq (copy.block (f block), native)
      (graph.block block, native) := by
  have hfollows : ∀ point point', Renamed f point point' → Follows (copy.step setup)
      (graph.step setup) (Renamed f) Eq (fun _ => 0) point point' := by
    rintro _ _ ⟨body, exit, native⟩
    exact follows_renamed hblock .intro body exit native
  rw [hblock]
  exact alike_of_follows hfollows (.intro _ _ native) hsafe

variable [DecidableEq N]

/-- What is left of a block of the copy, beside what is left of one of the graph.  In the copy the
budget has at least as much as there are checks, less those that were passed since it was last
checked, all of which have a higher rank than the block. -/
inductive Beside (budgetSlot : ℕ) (nodes : Finset N) (graph : Graph N) (head : N → Option N)
    (targets reach : List N) (rank : N → ℕ) :
    BasicBlock (Node N) × Native W E → BasicBlock N × Native W E → Prop
  | slow (body : List Op) (exit : Terminator N) (native : Native W E) :
      Beside budgetSlot nodes graph head targets reach rank (⟨body, exit.map .slow⟩, native)
        (⟨body, exit⟩, native)
  | check {block : N} {native : Native W E} (hreach : block ∈ reach) (hmem : block ∈ nodes)
      (hhead : head block = none) (hslot : budgetSlot < native.state.length) :
      Beside budgetSlot nodes graph head targets reach rank
        ((graph.withCopy budgetSlot nodes targets).block (.check block), native)
        (graph.block block, native)
  | fast {block : N} {body : List Op} {native : Native W E} {value : BitVec 64}
      {passed : Finset N} (hreach : block ∈ reach) (hmem : block ∈ nodes)
      (hsuffix : body <:+ (graph.block block).body) (hload : native.load budgetSlot = some value)
      (hpassed : ∀ other ∈ passed, other ∈ nodes ∧
        (graph.block other).exit.isBudget budgetSlot = true ∧ rank block < rank other)
      (hleft : graph.checks budgetSlot nodes + pending budgetSlot graph head block body ≤
        value.toNat + passed.card) :
      Beside budgetSlot nodes graph head targets reach rank
        (⟨body, ((graph.block block).exit.unchecked budgetSlot).map (Graph.copyTarget targets)⟩,
          native)
        (⟨body, (graph.block block).exit⟩, native)

lemma checkRank_fast (body : List Op) (exit : Terminator N) (native : Native W E) :
    checkRank (⟨body, exit.map (Graph.copyTarget targets)⟩, native) = 0 := by
  cases exit with
  | budgetBr slot least yes no =>
    by_cases hno : no ∈ targets <;> simp [checkRank, Terminator.map, Graph.copyTarget, hno]
  | _ => rfl

/-- Where the copy starts, and at the targets of its jumps back, it goes on if the budget has as
much as there are checks. -/
lemma follows_check (h : Metered budgetSlot nodes graph head place)
    (hchecks : graph.checks budgetSlot nodes < 2 ^ 64) {block : N} {native : Native W E}
    (hreach : block ∈ reach) (hmem : block ∈ nodes)
    (hhead : head block = none) (hslot : budgetSlot < native.state.length) :
    Follows ((graph.withCopy budgetSlot nodes targets).step setup) (graph.step setup)
      (Beside budgetSlot nodes graph head targets reach rank) Eq checkRank
      ((graph.withCopy budgetSlot nodes targets).block (.check block), native)
      (graph.block block, native) := by
  have hload : native.load budgetSlot = some (native.state[budgetSlot]) := by
    simp [Native.load, hslot]
  have hleast : icmp .uge native.state[budgetSlot]
      (BitVec.ofNat 64 (graph.checks budgetSlot nodes)) =
        decide (graph.checks budgetSlot nodes ≤ native.state[budgetSlot].toNat) := by
    rw [icmp, BitVec.ule, BitVec.toNat_ofNat, Nat.mod_eq_of_lt hchecks]
  refine Or.inl ?_
  by_cases henough : graph.checks budgetSlot nodes ≤ native.state[budgetSlot].toNat
  · refine ⟨((graph.withCopy budgetSlot nodes targets).block (.fast block), native), ?_, ?_, ?_⟩
    · simp [Graph.step, Graph.withCopy, Graph.leave, hload, hleast, henough]
    · refine .fast hreach hmem List.suffix_rfl hload
        (fun _ h => absurd h (Finset.notMem_empty _)) ?_
      have hnone : owed head block = 0 := by rw [owed, hhead]; rfl
      have hpending := h.pending_le hmem
      rw [hnone, Nat.le_zero] at hpending
      rw [hpending]
      simpa using henough
    · exact (checkRank_fast _ _ native).trans_lt Nat.zero_lt_one
  · refine ⟨((graph.withCopy budgetSlot nodes targets).block (.slow block), native), ?_, ?_, ?_⟩
    · simp [Graph.step, Graph.withCopy, Graph.leave, hload, hleast, henough]
    · exact .slow _ _ _
    · exact (checkRank_slow _ _ native).trans_lt Nat.zero_lt_one

section Follows

variable (hmetered : Metered budgetSlot nodes graph head place)
  (hcut : Dfs.Cut (graph.copySuccessors budgetSlot) graph.entry targets reach rank)
  (hentry : graph.entry ∈ nodes)
  (hnodes : ∀ block, ∀ target ∈ (graph.block block).exit.successors, target ∈ nodes)

include hmetered hcut hentry hnodes

/-- Where a block of the copy goes, the graph does. -/
lemma beside_target {block target : N} (hreach : block ∈ reach)
    (htarget : target ∈ graph.copySuccessors budgetSlot block) {native : Native W E}
    {value : BitVec 64} (hload : native.load budgetSlot = some value)
    (passed : Finset N) (hpassed : ∀ other ∈ passed, other ∈ nodes ∧
      (graph.block other).exit.isBudget budgetSlot = true ∧ rank block ≤ rank other)
    (hleft : graph.checks budgetSlot nodes + owed head target ≤ value.toNat + passed.card) :
    Beside budgetSlot nodes graph head targets reach rank
      ((graph.withCopy budgetSlot nodes targets).block (Graph.copyTarget targets target), native)
      (graph.block target, native) := by
  have hreach' := hcut.closed block hreach target htarget
  have hmem := hnodes block target (mem_successors_of_copy htarget)
  by_cases hback : target ∈ targets
  · rw [Graph.copyTarget, if_pos hback]
    exact .check hreach' hmem (head_of_goesBack hentry hnodes hmetered (hcut.back target hback))
      (List.getElem?_eq_some_iff.mp hload).1
  · have hfalls := (hcut.falls block hreach target htarget).resolve_left hback
    rw [Graph.copyTarget, if_neg hback]
    refine .fast hreach' hmem List.suffix_rfl hload (fun other hother => ?_)
      ((Nat.add_le_add_left (hmetered.pending_le hmem) _).trans hleft)
    obtain ⟨hnode, hbudget, hle⟩ := hpassed other hother
    exact ⟨hnode, hbudget, lt_of_lt_of_le hfalls hle⟩

/-- A block of the copy that doesn't check the budget ends as it does in the graph. -/
lemma follows_unchecked {block : N} {native : Native W E} {value : BitVec 64} {passed : Finset N}
    (hreach : block ∈ reach) (hmem : block ∈ nodes)
    (hload : native.load budgetSlot = some value)
    (hpassed : ∀ other ∈ passed, other ∈ nodes ∧
      (graph.block other).exit.isBudget budgetSlot = true ∧ rank block < rank other)
    (hleft : graph.checks budgetSlot nodes + pending budgetSlot graph head block [] ≤
      value.toNat + passed.card)
    (hbudget : (graph.block block).exit.isBudget budgetSlot = false) :
    Follows ((graph.withCopy budgetSlot nodes targets).step setup) (graph.step setup)
      (Beside budgetSlot nodes graph head targets reach rank) Eq checkRank
      (⟨[], ((graph.block block).exit.unchecked budgetSlot).map (Graph.copyTarget targets)⟩,
        native)
      (⟨[], (graph.block block).exit⟩, native) := by
  refine Or.inr fun y hy => ?_
  simp only [Graph.step] at hy ⊢
  rw [unchecked_of_isBudget hbudget]
  rw [← (graph.block block).exit.map_id] at hy
  rcases Graph.leave_cases (graph.block block).exit native with
    ⟨target, htarget, hleave⟩ | ⟨value, hleave⟩ | hleave
  · rw [hleave] at hy
    obtain rfl := Option.some.inj hy
    have hcopy : target ∈ graph.copySuccessors budgetSlot block := by
      rwa [Graph.copySuccessors, unchecked_of_isBudget hbudget]
    have howed := hmetered.owed_le hmem htarget hbudget
    refine ⟨_, hleave _ _ _, .inl ?_⟩
    refine beside_target hmetered hcut hentry hnodes hreach hcopy hload passed
      (fun other hother => ?_) (by omega)
    obtain ⟨hnode, hother, hlt⟩ := hpassed other hother
    exact ⟨hnode, hother, hlt.le⟩
  · rw [hleave] at hy
    obtain rfl := Option.some.inj hy
    exact ⟨_, hleave _ _ _, .inr rfl⟩
  · rw [hleave] at hy
    simp at hy

/-- A check that the copy leaves out would have gone on. -/
lemma follows_checked {block : N} {native : Native W E} {value : BitVec 64} {passed : Finset N}
    (hreach : block ∈ reach) (hmem : block ∈ nodes)
    (hload : native.load budgetSlot = some value)
    (hpassed : ∀ other ∈ passed, other ∈ nodes ∧
      (graph.block other).exit.isBudget budgetSlot = true ∧ rank block < rank other)
    (hleft : graph.checks budgetSlot nodes ≤ value.toNat + passed.card)
    (hbudget : (graph.block block).exit.isBudget budgetSlot = true) :
    Follows ((graph.withCopy budgetSlot nodes targets).step setup) (graph.step setup)
      (Beside budgetSlot nodes graph head targets reach rank) Eq checkRank
      (⟨[], ((graph.block block).exit.unchecked budgetSlot).map (Graph.copyTarget targets)⟩,
        native)
      (⟨[], (graph.block block).exit⟩, native) := by
  have hlt := card_passed_lt hmem hbudget hpassed
  obtain ⟨yes, no, hexit, hunchecked⟩ := eq_condBr_of_isBudget hbudget
  have hvalue : icmp .ne value 0#64 = true := by
    rw [icmp_ne_zero]
    rintro rfl
    simp at hleft
    omega
  have hcopy : yes ∈ graph.copySuccessors budgetSlot block := by
    rw [Graph.copySuccessors, hunchecked]
    exact List.mem_singleton_self yes
  have hnew : block ∉ passed := fun hself => lt_irrefl _ (hpassed block hself).2.2
  refine Or.inr fun y hy => ?_
  rw [hexit] at hy
  simp only [Graph.step, Graph.leave, hload, Option.bind_eq_bind, Option.bind_some, hvalue,
    if_true] at hy
  obtain rfl := Option.some.inj hy
  rw [hunchecked]
  refine ⟨_, rfl, .inl ?_⟩
  refine beside_target hmetered hcut hentry hnodes hreach hcopy hload (insert block passed)
    (fun other hother => ?_) ?_
  · rcases Finset.mem_insert.mp hother with rfl | hother
    · exact ⟨hmem, hbudget, le_rfl⟩
    · obtain ⟨hnode, hother, hlt⟩ := hpassed other hother
      exact ⟨hnode, hother, hlt.le⟩
  · have honce := owed_le_one head yes
    rw [Finset.card_insert_of_notMem hnew]
    omega

/-- **The copy follows the graph.** -/
theorem Beside.follows (hchecks : graph.checks budgetSlot nodes < 2 ^ 64)
    (point : BasicBlock (Node N) × Native W E) (point' : BasicBlock N × Native W E)
    (h : Beside budgetSlot nodes graph head targets reach rank point point') :
    Follows ((graph.withCopy budgetSlot nodes targets).step setup) (graph.step setup)
      (Beside budgetSlot nodes graph head targets reach rank) Eq checkRank point point' := by
  cases h with
  | slow body exit native => exact follows_renamed (fun _ => rfl) .slow body exit native
  | check hreach hmem hhead hslot => exact follows_check hmetered hchecks hreach hmem hhead hslot
  | @fast block body native value passed hreach hmem hsuffix hload hpassed hleft =>
    cases body with
    | nil =>
      cases hbudget : (graph.block block).exit.isBudget budgetSlot with
      | false =>
        exact follows_unchecked hmetered hcut hentry hnodes hreach hmem hload hpassed hleft hbudget
      | true =>
        exact follows_checked hmetered hcut hentry hnodes hreach hmem hload hpassed
          ((Nat.le_add_right _ _).trans hleft) hbudget
    | cons op body =>
      refine Or.inr fun y hy => ?_
      rcases Graph.step_cons hy with ⟨native', hnext, rfl⟩ | ⟨value, native', hret, rfl⟩
      · have hop : op ∈ (graph.block block).body := hsuffix.subset List.mem_cons_self
        have hle := card_passed_le fun other hother =>
          ⟨(hpassed other hother).1, (hpassed other hother).2.1⟩
        obtain ⟨value', hload', hleft'⟩ := hmetered.execute hmem hop hnext hload hle hleft
        have hsuffix' := (List.suffix_cons op body).trans hsuffix
        exact ⟨_, Graph.step_next hnext, .inl (.fast hreach hmem hsuffix' hload' hpassed hleft')⟩
      · exact ⟨_, Graph.step_ret hret, .inr rfl⟩

end Follows

/-- The blocks that the copy goes to are known: the search for its jumps back comes to an end. -/
lemma exists_jumpsBack (hentry : graph.entry ∈ nodes)
    (hnodes : ∀ block, ∀ target ∈ (graph.block block).exit.successors, target ∈ nodes) :
    ∃ targets, graph.jumpsBack budgetSlot nodes = some targets ∧ ∃ reach rank,
      Dfs.Cut (graph.copySuccessors budgetSlot) graph.entry targets reach rank := by
  have hcopy : ∀ block, ∀ target ∈ graph.copySuccessors budgetSlot block, target ∈ nodes :=
    fun block target htarget => hnodes block target (mem_successors_of_copy htarget)
  obtain ⟨targets, htargets⟩ :=
    Option.isSome_iff_exists.mp (Dfs.search_start_isSome hentry hcopy)
  exact ⟨targets, htargets, (Dfs.inv_start graph.entry).cut_of_search htargets⟩

/-- **What is made of a graph with a budget does what the graph does.**  If the graph is defined
wherever it gets, so is what is made of it, which returns if and only if the graph does, what the
graph returns, with the same state and memory. -/
theorem Metered.fastCopy_spec (hmetered : Metered budgetSlot nodes graph head place)
    (hentry : graph.entry ∈ nodes)
    (hnodes : ∀ block, ∀ target ∈ (graph.block block).exit.successors, target ∈ nodes)
    (hchecks : graph.checks budgetSlot nodes < 2 ^ 64) :
    ∃ copy, graph.fastCopy budgetSlot nodes = some copy ∧
      ∀ native : Native W E, budgetSlot < native.state.length →
        Safe (graph.step setup) (graph.start native) →
        Alike (copy.step setup) (graph.step setup) Eq (copy.start native) (graph.start native) := by
  rw [Graph.fastCopy]
  by_cases hnone : graph.checks budgetSlot nodes = 0
  · rw [if_pos hnone]
    exact ⟨graph.unchanged, rfl, fun native _ hsafe => alike_renamed (fun _ => rfl) hsafe⟩
  · rw [if_neg hnone]
    obtain ⟨targets, htargets, reach, rank, hcut⟩ := exists_jumpsBack hentry hnodes
    refine ⟨graph.withCopy budgetSlot nodes targets, by rw [htargets]; rfl,
      fun native hslot hsafe => ?_⟩
    exact alike_of_follows (Beside.follows hmetered hcut hentry hnodes hchecks)
      (.check hcut.root_mem hentry hmetered.entry hslot) hsafe

end Copy

end BapNative.Jit
