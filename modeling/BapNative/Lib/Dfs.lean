import Mathlib.Data.List.Nodup
import Mathlib.Algebra.BigOperators.Group.Finset.Basic
import Mathlib.Algebra.Ring.Nat

/-!
# Jumps back

A search in depth of a graph from a root, by a stack of the nodes that are open, each with the
successors that weren't looked at yet.  A successor that is open when it is looked at is the
target of a jump back.

The nodes that are done can be ranked such that every edge goes to a node of a lower rank, or is
one to the target of a jump back: the order in which the search is done with them.  So a way
between two such targets comes to no node twice.  A target is where a way from the root that
comes to no node twice goes back to.
-/

namespace BapNative.Dfs

/-- Where the search is with a node. -/
inductive Mark where
  | unseen
  | active
  | done
deriving DecidableEq

/-- A search. -/
structure Search (A : Type*) where
  visit : A → Mark
  /-- The targets of the jumps back that were found. -/
  targets : List A
  /-- The nodes that are open, with the successors that are left. -/
  stack : List (A × List A)

section Search

variable {A : Type*} [DecidableEq A] (successors : A → List A)

/-- A search at its start. -/
def start (root : A) : Search A where
  visit := Function.update (fun _ => .unseen) root .active
  targets := []
  stack := [(root, successors root)]

/-- A step of it: looks at a successor of the last node, or is done with that. -/
def step (s : Search A) : Search A :=
  match s.stack with
  | [] => s
  | (node, []) :: rest => { s with visit := Function.update s.visit node .done, stack := rest }
  | (node, next :: more) :: rest =>
    match s.visit next with
    | .active => { s with targets := s.targets ++ [next], stack := (node, more) :: rest }
    | .unseen =>
      { s with
        visit := Function.update s.visit next .active
        stack := (next, successors next) :: (node, more) :: rest }
    | .done => { s with stack := (node, more) :: rest }

/-- The search, until nothing is open. -/
def search : ℕ → Search A → Option (List A)
  | 0, s => if s.stack.isEmpty then some s.targets else none
  | fuel + 1, s => if s.stack.isEmpty then some s.targets else search fuel (step successors s)

end Search

/-! ## What is so of a search -/

section Graph

variable {A : Type*} (successors : A → List A)

/-- The nodes that the search is done with, the last first: each successor of one was done with
before it, or is a target. -/
inductive Ranked (targets : List A) : List A → Prop
  | nil : Ranked targets []
  | cons {a : A} {order : List A}
      (h : ∀ next ∈ successors a, next ∈ targets ∨ next ∈ order) (rest : Ranked targets order) :
      Ranked targets (a :: order)

/-- The successors of an open node that were looked at are targets, or the search is done with
them, or is at one of them now. -/
def Looked (targets order : List A) (above : Option A) (frame : A × List A) : Prop :=
  ∃ looked, successors frame.1 = looked ++ frame.2 ∧
    ∀ next ∈ looked, next ∈ targets ∨ next ∈ order ∨ above = some next

/-- Every open node is so, and the one above it on the stack is the one that it is at. -/
def Frames (targets order : List A) : Option A → List (A × List A) → Prop
  | _, [] => True
  | above, frame :: rest =>
    Looked successors targets order above frame ∧ Frames targets order (some frame.1) rest

/-- A way from the root, the last node first. -/
inductive Walk (root : A) : List A → Prop
  | root : Walk root [root]
  | next {a b : A} {path : List A} (hedge : a ∈ successors b) (rest : Walk root (b :: path)) :
      Walk root (a :: b :: path)

/-- A way from the root that comes to no node twice goes back to a node of it. -/
def GoesBack (root a : A) : Prop :=
  ∃ last path, Walk successors root (last :: path) ∧ (last :: path).Nodup ∧
    a ∈ last :: path ∧ a ∈ successors last

/-- What is so of a search at each step. -/
structure Inv (root : A) (order : List A) (s : Search A) : Prop where
  done_iff : ∀ a, s.visit a = .done ↔ a ∈ order
  active_iff : ∀ a, s.visit a = .active ↔ a ∈ s.stack.map Prod.fst
  nodup : (s.stack.map Prod.fst).Nodup
  order_nodup : order.Nodup
  root_seen : s.visit root ≠ .unseen
  seen : ∀ a ∈ s.targets, s.visit a ≠ .unseen
  ranked : Ranked successors s.targets order
  frames : Frames successors s.targets order none s.stack
  walk : s.stack ≠ [] → Walk successors root (s.stack.map Prod.fst)
  back : ∀ a ∈ s.targets, GoesBack successors root a

variable {successors}

lemma Ranked.mono {targets targets' order : List A} (h : Ranked successors targets order)
    (hsub : ∀ a ∈ targets, a ∈ targets') : Ranked successors targets' order := by
  induction h with
  | nil => exact .nil
  | cons hnext _ ih => exact .cons (fun next hmem => (hnext next hmem).imp_left (hsub next)) ih

lemma Looked.mono {targets targets' order order' : List A} {above above' : Option A}
    {frame : A × List A} (h : Looked successors targets order above frame)
    (hsub : ∀ a ∈ targets, a ∈ targets')
    (horder : ∀ a, a ∈ order ∨ above = some a → a ∈ order' ∨ above' = some a) :
    Looked successors targets' order' above' frame := by
  obtain ⟨looked, heq, hlooked⟩ := h
  refine ⟨looked, heq, fun next hmem => ?_⟩
  rcases hlooked next hmem with htarget | hrest
  · exact Or.inl (hsub next htarget)
  · exact Or.inr (horder next hrest)

lemma Frames.mono {targets targets' order order' : List A} {above above' : Option A}
    {stack : List (A × List A)} (h : Frames successors targets order above stack)
    (hsub : ∀ a ∈ targets, a ∈ targets') (hkeep : ∀ a ∈ order, a ∈ order')
    (horder : ∀ a, a ∈ order ∨ above = some a → a ∈ order' ∨ above' = some a) :
    Frames successors targets' order' above' stack := by
  induction stack generalizing above above' with
  | nil => trivial
  | cons frame rest ih =>
    exact ⟨h.1.mono hsub horder, ih h.2 fun a ha => ha.imp_left (hkeep a)⟩

/-- One more successor of the last node was looked at. -/
lemma Frames.look {targets targets' order : List A} {above : Option A} {node next : A}
    {more : List A} {rest : List (A × List A)}
    (h : Frames successors targets order none ((node, next :: more) :: rest))
    (hsub : ∀ a ∈ targets, a ∈ targets')
    (hnext : next ∈ targets' ∨ next ∈ order ∨ above = some next) :
    Frames successors targets' order above ((node, more) :: rest) := by
  obtain ⟨⟨looked, heq, hlooked⟩, hrest⟩ := h
  refine ⟨⟨looked ++ [next], ?_, fun a ha => ?_⟩, hrest.mono hsub (fun _ => id) fun _ => id⟩
  · rw [heq, List.append_assoc]
    rfl
  · rcases List.mem_append.mp ha with hold | hnew
    · rcases hlooked a hold with htarget | hdone | hnone
      · exact Or.inl (hsub a htarget)
      · exact Or.inr (Or.inl hdone)
      · simp at hnone
    · rw [List.mem_singleton.mp hnew]
      exact hnext

/-- What is below the last node of a way is one. -/
lemma Walk.tail {root a b : A} {path : List A} (h : Walk successors root (a :: b :: path)) :
    Walk successors root (b :: path) := by
  cases h with
  | next _ rest => exact rest

lemma Walk.suffix {root a : A} {front path : List A}
    (h : Walk successors root (front ++ a :: path)) : Walk successors root (a :: path) := by
  induction front with
  | nil => exact h
  | cons first front ih =>
    refine ih ?_
    cases front <;> exact h.tail

/-- The successor that it looks at is one of the last node. -/
lemma Frames.mem_successors {targets order : List A} {above : Option A} {node next : A}
    {more : List A} {rest : List (A × List A)}
    (h : Frames successors targets order above ((node, next :: more) :: rest)) :
    next ∈ successors node := by
  obtain ⟨⟨looked, heq, -⟩, -⟩ := h
  rw [heq]
  exact List.mem_append_right _ List.mem_cons_self

/-- It looks at a successor that it came to before, which is a target if it is open. -/
lemma Inv.look {root : A} {order : List A} {s : Search A} (h : Inv successors root order s)
    {node next : A} {more : List A} {rest : List (A × List A)}
    (hstack : s.stack = (node, next :: more) :: rest)
    (targets : List A) (hsub : ∀ a ∈ s.targets, a ∈ targets)
    (hnew : ∀ a ∈ targets, a ∈ s.targets ∨ a = next ∧ s.visit next = .active)
    (hnext : next ∈ targets ∨ next ∈ order) :
    Inv successors root order { s with targets := targets, stack := (node, more) :: rest } := by
  have hframes := h.frames
  have hnodup := h.nodup
  have hwalk := h.walk (by simp [hstack])
  rw [hstack] at hframes hnodup hwalk
  refine ⟨h.done_iff, fun a => ?_, hnodup, h.order_nodup, h.root_seen, fun a ha => ?_,
    h.ranked.mono hsub, hframes.look hsub (hnext.imp_right Or.inl), fun _ => hwalk,
    fun a ha => ?_⟩
  · rw [h.active_iff, hstack]
    rfl
  · rcases hnew a ha with hold | ⟨rfl, hactive⟩
    · exact h.seen a hold
    · simp [hactive]
  · rcases hnew a ha with hold | ⟨rfl, hactive⟩
    · exact h.back a hold
    · have hopen := (h.active_iff a).mp hactive
      rw [hstack] at hopen
      exact ⟨node, rest.map Prod.fst, hwalk, hnodup, hopen, hframes.mem_successors⟩

end Graph

section Steps

variable {A : Type*} [DecidableEq A] {successors : A → List A} {root : A} {order : List A}
  {s : Search A}

lemma inv_start (root : A) : Inv successors root [] (start successors root) := by
  refine ⟨fun a => ?_, fun a => ?_, by simp [start], List.nodup_nil, by simp [start],
    by simp [start], .nil,
    ⟨⟨[], rfl, by simp⟩, trivial⟩, fun _ => .root, by simp [start]⟩
  · by_cases ha : a = root <;> simp [start, ha]
  · by_cases ha : a = root <;> simp [start, ha]

/-- The search is done with a node. -/
lemma Inv.leave (h : Inv successors root order s) {node : A} {rest : List (A × List A)}
    (hstack : s.stack = (node, []) :: rest) :
    Inv successors root (node :: order)
      { s with visit := Function.update s.visit node .done, stack := rest } := by
  have hnodup := h.nodup
  have hframes := h.frames
  rw [hstack, List.map_cons, List.nodup_cons] at hnodup
  rw [hstack] at hframes
  obtain ⟨⟨looked, heq, hlooked⟩, hrest⟩ := hframes
  rw [List.append_nil] at heq
  have hactive : s.visit node = .active := (h.active_iff node).mpr (by simp [hstack])
  have hunseen : ∀ a, Function.update s.visit node .done a ≠ .unseen ↔ s.visit a ≠ .unseen := by
    intro a
    by_cases ha : a = node
    · simp [ha, hactive]
    · rw [Function.update_of_ne ha]
  have hnew : node ∉ order := by
    rw [← h.done_iff, hactive]
    simp
  refine ⟨fun a => ?_, fun a => ?_, hnodup.2, List.nodup_cons.mpr ⟨hnew, h.order_nodup⟩,
    (hunseen root).mpr h.root_seen,
    fun a ha => (hunseen a).mpr (h.seen a ha), .cons (fun next hnext => ?_) h.ranked, ?_,
    fun hrest => ?_, h.back⟩
  · by_cases ha : a = node
    · simp [ha]
    · simp [ha, h.done_iff]
  · by_cases ha : a = node
    · subst ha
      simpa using hnodup.1
    · simp [ha, h.active_iff, hstack]
  · rcases hlooked next (heq ▸ hnext) with htarget | hdone | hnone
    · exact Or.inl htarget
    · exact Or.inr hdone
    · simp at hnone
  · refine hrest.mono (fun _ => id) (fun a => List.mem_cons_of_mem _) fun a ha => Or.inl ?_
    rcases ha with hdone | habove
    · exact List.mem_cons_of_mem _ hdone
    · obtain rfl : node = a := Option.some.inj habove
      exact List.mem_cons_self
  · have hwalk := h.walk (by simp [hstack])
    obtain ⟨below, more, rfl⟩ := List.exists_cons_of_ne_nil hrest
    rw [hstack] at hwalk
    exact hwalk.tail

/-- It goes on with a successor that it didn't come to before. -/
lemma Inv.enter (h : Inv successors root order s) {node next : A} {more : List A}
    {rest : List (A × List A)} (hstack : s.stack = (node, next :: more) :: rest)
    (hunseen : s.visit next = .unseen) :
    Inv successors root order
      { s with
        visit := Function.update s.visit next .active
        stack := (next, successors next) :: (node, more) :: rest } := by
  have hframes := h.frames
  rw [hstack] at hframes
  have hkeep : ∀ a, s.visit a ≠ .unseen → Function.update s.visit next .active a ≠ .unseen := by
    intro a ha
    by_cases hsame : a = next
    · simp [hsame]
    · rwa [Function.update_of_ne hsame]
  have hnotin : next ∉ s.stack.map Prod.fst := by
    rw [← h.active_iff, hunseen]
    simp
  refine ⟨fun a => ?_, fun a => ?_, ?_, h.order_nodup, hkeep root h.root_seen,
    fun a ha => hkeep a (h.seen a ha), h.ranked,
    ⟨⟨[], rfl, by simp⟩, hframes.look (fun _ => id) (Or.inr (Or.inr rfl))⟩, fun _ => ?_,
    h.back⟩
  · by_cases ha : a = next
    · subst ha
      simp [← h.done_iff, hunseen]
    · simp [ha, h.done_iff]
  · by_cases ha : a = next
    · simp [ha]
    · simp [ha, h.active_iff, hstack]
  · have hnodup := h.nodup
    rw [hstack] at hnodup hnotin
    exact List.nodup_cons.mpr ⟨hnotin, hnodup⟩
  · have hwalk := h.walk (by simp [hstack])
    rw [hstack] at hwalk
    exact .next hframes.mem_successors hwalk

/-- **Every step keeps what is so of a search.** -/
theorem Inv.step (h : Inv successors root order s) :
    ∃ order', Inv successors root order' (step successors s) := by
  rcases hstack : s.stack with _ | ⟨⟨node, _ | ⟨next, more⟩⟩, rest⟩
  · exact ⟨order, by simpa [Dfs.step, hstack] using h⟩
  · exact ⟨node :: order, by simpa [Dfs.step, hstack] using h.leave hstack⟩
  · cases hvisit : s.visit next with
    | active =>
      have hlook := h.look hstack (s.targets ++ [next])
        (fun a => List.mem_append_left _) (fun a ha => by simpa [hvisit] using ha)
        (Or.inl (by simp))
      exact ⟨order, by simpa [Dfs.step, hstack, hvisit] using hlook⟩
    | unseen => exact ⟨order, by simpa [Dfs.step, hstack, hvisit] using h.enter hstack hvisit⟩
    | done =>
      have hlook := h.look hstack s.targets (fun _ => id) (fun a ha => Or.inl ha)
        (Or.inr ((h.done_iff next).mp hvisit))
      exact ⟨order, by simpa [Dfs.step, hstack, hvisit] using hlook⟩

/-! ## What a search finds -/

/-- Nodes that a search from a root comes to, and targets such that every edge among them goes to
a target or to a node of a lower rank. -/
structure Cut (successors : A → List A) (root : A) (targets nodes : List A) (rank : A → ℕ) :
    Prop where
  root_mem : root ∈ nodes
  closed : ∀ a ∈ nodes, ∀ next ∈ successors a, next ∈ nodes
  falls : ∀ a ∈ nodes, ∀ next ∈ successors a, next ∈ targets ∨ rank next < rank a
  back : ∀ a ∈ targets, GoesBack successors root a

/-- What was done with before another comes later in the order. -/
lemma Ranked.falls {targets : List A} (h : Ranked successors targets order)
    (hnodup : order.Nodup) {a next : A} (ha : a ∈ order) (hnext : next ∈ successors a) :
    next ∈ targets ∨ next ∈ order ∧ order.idxOf a < order.idxOf next := by
  induction h with
  | nil => simp at ha
  | @cons first order hfirst _ ih =>
    rw [List.nodup_cons] at hnodup
    rcases List.mem_cons.mp ha with rfl | ha
    · refine (hfirst next hnext).imp_right fun hmem => ⟨List.mem_cons_of_mem _ hmem, ?_⟩
      have hne : a ≠ next := fun hsame => hnodup.1 (hsame ▸ hmem)
      rw [List.idxOf_cons_self, List.idxOf_cons_ne _ hne]
      omega
    · refine (ih hnodup.2 ha).imp_right fun hmem => ⟨List.mem_cons_of_mem _ hmem.1, ?_⟩
      have hne : first ≠ a := fun hsame => hnodup.1 (hsame ▸ ha)
      have hne' : first ≠ next := fun hsame => hnodup.1 (hsame ▸ hmem.1)
      rw [List.idxOf_cons_ne _ hne, List.idxOf_cons_ne _ hne']
      omega

/-- Where nothing is open, the search is done with all that it came to. -/
lemma Inv.cut (h : Inv successors root order s) (hstack : s.stack = []) :
    Cut successors root s.targets order fun a => order.length - order.idxOf a := by
  have hdone : ∀ a, s.visit a ≠ .unseen → a ∈ order := by
    intro a ha
    rw [← h.done_iff]
    cases hvisit : s.visit a with
    | unseen => exact absurd hvisit ha
    | active => simpa [hstack] using (h.active_iff a).mp hvisit
    | done => rfl
  refine ⟨hdone root h.root_seen, fun a ha next hnext => ?_, fun a ha next hnext => ?_, h.back⟩
  · rcases h.ranked.falls h.order_nodup ha hnext with htarget | ⟨hmem, -⟩
    · exact hdone next (h.seen next htarget)
    · exact hmem
  · refine (h.ranked.falls h.order_nodup ha hnext).imp_right fun ⟨hmem, hlt⟩ => ?_
    have hlast := List.idxOf_lt_length_of_mem hmem
    omega

lemma search_of_empty (fuel : ℕ) (hstack : s.stack = []) :
    search successors fuel s = some s.targets := by
  cases fuel <;> simp [search, hstack]

lemma search_succ (fuel : ℕ) (hstack : s.stack ≠ []) :
    search successors (fuel + 1) s = search successors fuel (Dfs.step successors s) := by
  rw [search, if_neg (by simpa using hstack)]

/-- **What a search finds cuts every way that comes to a node twice.** -/
theorem Inv.cut_of_search {fuel : ℕ} {targets : List A} (h : Inv successors root order s)
    (hsearch : search successors fuel s = some targets) :
    ∃ nodes rank, Cut successors root targets nodes rank := by
  by_cases hstack : s.stack = []
  · rw [search_of_empty fuel hstack] at hsearch
    obtain rfl := Option.some.inj hsearch
    exact ⟨order, _, h.cut hstack⟩
  · induction fuel generalizing s order with
    | zero =>
      rw [search, if_neg (by simpa using hstack)] at hsearch
      simp at hsearch
    | succ fuel ih =>
      rw [search_succ fuel hstack] at hsearch
      obtain ⟨order', hstep⟩ := h.step
      by_cases hnext : (Dfs.step successors s).stack = []
      · rw [search_of_empty fuel hnext] at hsearch
        obtain rfl := Option.some.inj hsearch
        exact ⟨order', _, hstep.cut hnext⟩
      · exact ih hstep hsearch hnext

/-! ## A search comes to an end -/

/-- What is left to do for a search among some nodes. -/
def cost (successors : A → List A) (nodes : Finset A) (s : Search A) : ℕ :=
  (∑ a ∈ nodes, if s.visit a = .unseen then (successors a).length + 1 else 0) +
    (s.stack.map fun frame => frame.2.length + 1).sum

/-- What was to do for a node is to do for an open one, when it is come to. -/
lemma sum_unseen_update {visit : A → Mark} {nodes : Finset A} {next : A} (hmem : next ∈ nodes)
    (hunseen : visit next = .unseen) (f : A → ℕ) :
    (∑ a ∈ nodes, if Function.update visit next .active a = .unseen then f a else 0) + f next =
      ∑ a ∈ nodes, if visit a = .unseen then f a else 0 := by
  rw [← Finset.add_sum_erase nodes _ hmem, ← Finset.add_sum_erase nodes
    (fun a => if visit a = .unseen then f a else 0) hmem]
  have hrest : ∀ a ∈ nodes.erase next,
      (if Function.update visit next .active a = .unseen then f a else 0) =
        if visit a = .unseen then f a else 0 := by
    intro a ha
    rw [Function.update_of_ne (Finset.ne_of_mem_erase ha)]
  rw [Finset.sum_congr rfl hrest]
  simp [hunseen, Nat.add_comm]

lemma Inv.cost_step (h : Inv successors root order s) {nodes : Finset A}
    (hnodes : ∀ a, ∀ next ∈ successors a, next ∈ nodes) (hopen : s.stack ≠ []) :
    cost successors nodes (Dfs.step successors s) + 1 = cost successors nodes s := by
  rcases hstack : s.stack with _ | ⟨⟨node, _ | ⟨next, more⟩⟩, rest⟩
  · exact absurd hstack hopen
  · have hactive : s.visit node = .active := (h.active_iff node).mpr (by simp [hstack])
    have hsame : ∀ a, (Function.update s.visit node .done a = .unseen) =
        (s.visit a = .unseen) := by
      intro a
      by_cases ha : a = node
      · simp [ha, hactive]
      · rw [Function.update_of_ne ha]
    simp only [cost, Dfs.step, hstack, hsame, List.map_cons, List.sum_cons, List.length_nil]
    omega
  · cases hvisit : s.visit next with
    | unseen =>
      have hmem : next ∈ nodes := by
        have hframes := h.frames
        rw [hstack] at hframes
        exact hnodes node next hframes.mem_successors
      have hsum := sum_unseen_update hmem hvisit fun a => (successors a).length + 1
      simp only [cost, Dfs.step, hstack, hvisit, List.map_cons, List.sum_cons, List.length_cons]
      omega
    | active =>
      simp only [cost, Dfs.step, hstack, hvisit, List.map_cons, List.sum_cons, List.length_cons]
      omega
    | done =>
      simp only [cost, Dfs.step, hstack, hvisit, List.map_cons, List.sum_cons, List.length_cons]
      omega

/-- **A search among finitely many nodes comes to an end.** -/
theorem Inv.search_isSome (h : Inv successors root order s) {nodes : Finset A}
    (hnodes : ∀ a, ∀ next ∈ successors a, next ∈ nodes) {fuel : ℕ}
    (hfuel : cost successors nodes s ≤ fuel) : (search successors fuel s).isSome := by
  induction fuel generalizing s order with
  | zero =>
    by_cases hstack : s.stack = []
    · rw [search_of_empty 0 hstack]
      rfl
    · have hcost := h.cost_step hnodes hstack
      omega
  | succ fuel ih =>
    by_cases hstack : s.stack = []
    · rw [search_of_empty _ hstack]
      rfl
    · have hcost := h.cost_step hnodes hstack
      obtain ⟨order', hstep⟩ := h.step
      rw [search_succ fuel hstack]
      exact ih hstep (by omega)

/-- A search from its start among nodes, with the fuel that it takes. -/
lemma search_start_isSome {nodes : Finset A} (hroot : root ∈ nodes)
    (hnodes : ∀ a, ∀ next ∈ successors a, next ∈ nodes) :
    (search successors (∑ a ∈ nodes, ((successors a).length + 1))
      (start successors root)).isSome := by
  refine (inv_start root).search_isSome hnodes (le_of_eq ?_)
  calc cost successors nodes (start successors root)
      = (∑ a ∈ nodes, if Function.update (fun _ => Mark.unseen) root .active a = .unseen then
          (successors a).length + 1 else 0) + ((successors root).length + 1) := rfl
    _ = ∑ a ∈ nodes, (if Mark.unseen = .unseen then (successors a).length + 1 else 0) :=
        sum_unseen_update hroot rfl _
    _ = ∑ a ∈ nodes, ((successors a).length + 1) := by simp

end Steps

end BapNative.Dfs
