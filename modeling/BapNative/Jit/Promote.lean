import BapNative.Jit.Graph

/-!
# Slots in registers

What `compileOps` makes of a program that is optimized: it works on a copy of its slots, loads
it at its start from where each slot is between runs, its home, and leaves what it wrote there
at its return.  The home of a slot is in the state, or among the registers of a chain if it is
that of a variable and there are such registers.  A code site that calls Lean code leaves what
was written before it does, if the program was told that something reads it there.

Of what a run writes only the slots that are kept go home.  Whatever else has a home is as it
was, as long as no two slots have the same.
-/

namespace BapNative.Jit

open Lockstep PagedMemory

variable {W E N : Type}

/-! ## Homes -/

/-- Where a slot is between runs. -/
inductive Home where
  | state (slot : ℕ)
  | register (number : ℕ)
deriving DecidableEq

/-- What is there between runs: the state, and the registers of a chain, if there are. -/
structure Homes where
  state : List (BitVec 64)
  registers : Option (List (BitVec 64))

namespace Homes

/-- What is at a home. -/
def load (homes : Homes) : Home → Option (BitVec 64)
  | .state slot => homes.state[slot]?
  | .register number => do
    let registers ← homes.registers
    registers[number]?

/-- A value goes home. -/
def store (homes : Homes) (home : Home) (value : BitVec 64) : Option Homes :=
  match home with
  | .state slot =>
    if slot < homes.state.length then some { homes with state := homes.state.set slot value }
    else none
  | .register number => do
    let registers ← homes.registers
    if number < registers.length then
      some { homes with registers := some (registers.set number value) }
    else none

/-- A home that can be loaded from can be stored to, and no other changes. -/
lemma store_spec {homes : Homes} {home : Home} (h : (homes.load home).isSome)
    (value : BitVec 64) : ∃ homes', homes.store home value = some homes' ∧
      homes'.load home = some value ∧ ∀ other ≠ home, homes'.load other = homes.load other := by
  cases home with
  | state slot =>
    have hslot : slot < homes.state.length := by simpa [load] using h
    refine ⟨_, if_pos hslot, by simp [load, hslot], fun other hother => ?_⟩
    cases other with
    | state slot' =>
      have hne : slot ≠ slot' := fun hsame => hother (by rw [hsame])
      simp [load, hne]
    | register number => rfl
  | register number =>
    obtain ⟨state, _ | registers⟩ := homes
    · simp [load] at h
    · have hnumber : number < registers.length := by simpa [load] using h
      refine ⟨_, if_pos hnumber, by simp [load, hnumber], fun other hother => ?_⟩
      cases other with
      | state slot => rfl
      | register number' =>
        have hne : number ≠ number' := fun hsame => hother (by rw [hsame])
        simp [load, hne]

end Homes

/-! ## What is made of a program -/

/-- The slot that the code of an operation stores to: that of what it writes, or of what a code
site that stops the run leaves. -/
def Op.storesTo : Op → Option ℕ
  | .code effectSlot _ => some effectSlot
  | op => op.writes

/-- What a program is optimized for. -/
structure Promotion where
  /-- How many slots it has a copy of. -/
  slotCount : ℕ
  ops : List Op
  kept : Option (List ℕ)
  /-- `variables`: a slot of a variable and its number, and so on. -/
  variableNumbers : Option (List ℕ)
  flushSites : List Address

/-- What is optimized, in a run. -/
structure Promoted (W E : Type) where
  homes : Homes
  /-- The run, on the copies of the slots. -/
  native : Native W E
  flushedPc : Address

/-- The pairs of an array, without one that is left over. -/
def pairs : List ℕ → List (ℕ × ℕ)
  | slot :: number :: rest => (slot, number) :: pairs rest
  | _ => []

/-- Whether a code site calls `bap_jit_code_notify`. -/
def Cells.calls (setup : Setup W E) (cells : Cells W E) : Bool :=
  let observed := setup.codeObserver.isSome
  let fine := cells.error.isNone
  let waits := setup.quietSites && !cells.leanRan
  !(fine && !observed) && !(fine && waits)

namespace Promotion

variable (promotion : Promotion)

/-- `written`: whether something stores to a slot. -/
def written (slot : ℕ) : Bool := promotion.ops.any fun op => op.storesTo == some slot

/-- `readAfter`, and `keep`. -/
def readAfter (slot : ℕ) : Bool :=
  match promotion.kept with
  | none => true
  | some kept => kept.contains slot

/-- `homes`, with registers or without. -/
def home (chained : Bool) : ℕ → Home :=
  (pairs (promotion.variableNumbers.getD [])).foldl
    (fun homes pair =>
      if pair.1 < promotion.slotCount then
        Function.update homes pair.1 (if chained then .register pair.2 else homes pair.1)
      else homes)
    Home.state

/-- The home of a slot, in a run. -/
def homeIn (homes : Homes) : ℕ → Home := promotion.home homes.registers.isSome

/-- What was written of what is read after goes home. -/
def writeBack (home : ℕ → Home) (copies : List (BitVec 64)) (homes : Homes) : Option Homes :=
  (List.range promotion.slotCount).foldlM
    (fun homes slot =>
      if promotion.written slot && promotion.readAfter slot then do
        homes.store (home slot) (← copies[slot]?)
      else some homes)
    homes

/-- The block `promote`: the copies are loaded. -/
def enter (homes : Homes) (cells : Cells W E) : Option (Promoted W E) := do
  let copies ← (List.range promotion.slotCount).mapM fun slot =>
    homes.load (promotion.homeIn homes slot)
  return ⟨homes, ⟨copies, cells⟩, BitVec.allOnes 64⟩

/-- What is done before an operation: a code site that calls leaves what was written, if it is one
of those that it was told of. -/
def flush (setup : Setup W E) (home : ℕ → Home) (op : Op) (promoted : Promoted W E) :
    Option (Promoted W E) :=
  match op with
  | .code _ pc =>
    if promotion.flushSites.contains pc && promoted.native.cells.calls setup then do
      let homes ← promotion.writeBack home promoted.native.state promoted.homes
      return { promoted with homes := homes, flushedPc := pc }
    else some promoted
  | _ => some promoted

/-- What is done before a step, where so much of a block is left. -/
def beforeStep (setup : Setup W E) (home : ℕ → Home) (body : List Op)
    (promoted : Promoted W E) : Option (Promoted W E) :=
  match body with
  | op :: _ => promotion.flush setup home op promoted
  | [] => some promoted

/-- A step of what is optimized, which leaves its slots when it returns. -/
def step (setup : Setup W E) (home : ℕ → Home) (graph : Graph N)
    (point : BasicBlock N × Promoted W E) :
    Option ((BasicBlock N × Promoted W E) ⊕ (BitVec 64 × Promoted W E)) := do
  let promoted ← promotion.beforeStep setup home point.1.body point.2
  match ← graph.step setup (point.1, promoted.native) with
  | .inl (block, native) => return .inl (block, { promoted with native := native })
  | .inr (value, native) =>
    let homes ← promotion.writeBack home native.state promoted.homes
    return .inr (value, { promoted with homes := homes, native := native })

end Promotion

/-! ## What a step leaves -/

/-- A block that ends changes nothing. -/
lemma Graph.leave_eq {graph : Graph N} {native : Native W E} {exit : Terminator N}
    {x : (BasicBlock N × Native W E) ⊕ (BitVec 64 × Native W E)}
    (h : graph.leave native exit = some x) :
    (∃ target, x = .inl (graph.block target, native)) ∨ ∃ value, x = .inr (value, native) := by
  cases exit with
  | ret value => exact Or.inr ⟨value, (Option.some.inj h).symm⟩
  | retSlot src =>
    obtain ⟨value, -, hx⟩ := Option.bind_eq_some_iff.mp h
    exact Or.inr ⟨value, (Option.some.inj hx).symm⟩
  | br target => exact Or.inl ⟨target, (Option.some.inj h).symm⟩
  | condBr condition yes no | budgetBr slot least yes no | switch slot cases default =>
    obtain ⟨value, -, hx⟩ := Option.bind_eq_some_iff.mp h
    exact Or.inl ⟨_, (Option.some.inj hx).symm⟩
  | unreachable => simp [Graph.leave] at h

/-- An operation within a block returns only at a code site that stops the run, which leaves 3 in
its slot. -/
lemma Native.execute_ret {setup : Setup W E} {native native' : Native W E} {op : Op}
    {value : BitVec 64} (h : native.execute setup op = some (.ret value native')) :
    native'.state = native.state ∨
      ∃ slot, op.storesTo = some slot ∧ native'.state = native.state.set slot 3 := by
  cases op with
  | jump target =>
    obtain ⟨-, rfl⟩ : target = value ∧ native = native' := by simpa [Native.execute] using h
    exact Or.inl rfl
  | jumpSlot src =>
    obtain ⟨_, -, h⟩ := Option.bind_eq_some_iff.mp h
    obtain ⟨-, rfl⟩ := Exit.ret.inj (Option.some.inj h)
    exact Or.inl rfl
  | code effectSlot pc =>
    simp only [Native.execute] at h
    split_ifs at h
    · obtain ⟨next, hstore, hnext⟩ := Option.bind_eq_some_iff.mp h
      obtain ⟨-, rfl⟩ := Exit.ret.inj (Option.some.inj hnext)
      exact Or.inr ⟨effectSlot, rfl, by rw [Native.store_eq hstore]⟩
    · simp at h
  | _ => simp [Native.execute, Option.bind_eq_some_iff] at h

/-- A slot goes on as it was, if nothing of a block stores to it. -/
def SameBut (body : List Op) (native native' : Native W E) : Prop :=
  native'.state.length = native.state.length ∧
    ∀ slot, (∀ op ∈ body, op.storesTo ≠ some slot) → native'.state[slot]? = native.state[slot]?

lemma sameBut_set {body : List Op} {native native' : Native W E} {op : Op} (hop : op ∈ body)
    {slot : ℕ} (hslot : op.storesTo = some slot) {value : BitVec 64}
    (hstate : native'.state = native.state.set slot value) : SameBut body native native' := by
  refine ⟨by rw [hstate, List.length_set], fun other hother => ?_⟩
  rw [hstate, List.getElem?_set_ne]
  exact fun hsame => hother op hop (by rw [hslot, hsame])

lemma sameBut_refl (body : List Op) (native : Native W E) : SameBut body native native :=
  ⟨rfl, fun _ _ => rfl⟩

lemma storesTo_of_writes {op : Op} {slot : ℕ} (h : op.writes = some slot) :
    op.storesTo = some slot := by
  cases op with
  | code effectSlot pc => simp [Op.writes] at h
  | _ => exact h

/-- **A step of a graph stores to no slot but those that its block stores to.** -/
theorem Graph.sameBut_step {graph : Graph N} {setup : Setup W E} {block : BasicBlock N}
    {native : Native W E} {x : (BasicBlock N × Native W E) ⊕ (BitVec 64 × Native W E)}
    (h : graph.step setup (block, native) = some x) :
    SameBut block.body native (Sum.elim Prod.snd Prod.snd x) ∧
      ∀ block' native', x = .inl (block', native') →
        block'.body <:+ block.body ∨ ∃ target, block' = graph.block target := by
  obtain ⟨body, exit⟩ := block
  cases body with
  | nil =>
    rcases Graph.leave_eq h with ⟨target, rfl⟩ | ⟨value, rfl⟩
    · refine ⟨sameBut_refl _ _, ?_⟩
      rintro block' native' heq
      obtain ⟨rfl, -⟩ := Prod.mk.inj (Sum.inl.inj heq)
      exact Or.inr ⟨target, rfl⟩
    · exact ⟨sameBut_refl _ _, fun _ _ heq => by simp at heq⟩
  | cons op body =>
    rcases Graph.step_cons h with ⟨native', hnext, rfl⟩ | ⟨value, native', hret, rfl⟩
    · refine ⟨?_, ?_⟩
      · obtain ⟨cells, ⟨-, rfl⟩ | ⟨dst, value, hdst, rfl⟩⟩ := Native.execute_next hnext
        · exact ⟨rfl, fun _ _ => rfl⟩
        · exact sameBut_set List.mem_cons_self (storesTo_of_writes hdst) rfl
      · rintro block' native'' heq
        obtain ⟨rfl, -⟩ := Prod.mk.inj (Sum.inl.inj heq)
        exact Or.inl (List.suffix_cons op body)
    · refine ⟨?_, fun _ _ heq => by simp at heq⟩
      rcases Native.execute_ret hret with hstate | ⟨slot, hslot, hstate⟩
      · exact ⟨congrArg List.length hstate, fun slot _ => congrArg (·[slot]?) hstate⟩
      · exact sameBut_set List.mem_cons_self hslot hstate

/-! ## What goes home -/

lemma mapM_eq_some {α β : Type} {f : α → Option β} {g : α → β} {l : List α}
    (h : ∀ a ∈ l, f a = some (g a)) : l.mapM f = some (l.map g) := by
  induction l with
  | nil => rfl
  | cons a l ih =>
    rw [List.mapM_cons, h a List.mem_cons_self, ih fun b hb => h b (List.mem_cons_of_mem _ hb)]
    rfl

namespace Promotion

variable {promotion : Promotion}

/-- Without registers every slot is in the state. -/
lemma home_false : promotion.home false = Home.state := by
  unfold home
  generalize pairs (promotion.variableNumbers.getD []) = list
  induction list with
  | nil => rfl
  | cons pair list ih =>
    have hpair : (if pair.1 < promotion.slotCount then
        Function.update Home.state pair.1 (if false = true then .register pair.2 else .state pair.1)
      else Home.state) = Home.state := by simp
    rw [List.foldl_cons, hpair]
    exact ih

/-- The home of a slot that goes home. -/
def GoesHome (promotion : Promotion) (home : ℕ → Home) (target : Home) : Prop :=
  ∃ slot < promotion.slotCount, promotion.written slot = true ∧
    promotion.readAfter slot = true ∧ home slot = target

/-- Every slot has a home of its own. -/
structure Housed (promotion : Promotion) (home : ℕ → Home) (homes : Homes) : Prop where
  loads : ∀ slot < promotion.slotCount, (homes.load (home slot)).isSome
  apart : ∀ a < promotion.slotCount, ∀ b < promotion.slotCount, home a = home b → a = b

/-- What differs from what was there is at the homes of slots that go home. -/
def OnlyHome (promotion : Promotion) (home : ℕ → Home) (start homes : Homes) : Prop :=
  ∀ target, ¬ promotion.GoesHome home target → homes.load target = start.load target

lemma Housed.of_isSome {home : ℕ → Home} {homes homes' : Homes}
    (h : promotion.Housed home homes)
    (hsame : ∀ target, (homes.load target).isSome → (homes'.load target).isSome) :
    promotion.Housed home homes' :=
  ⟨fun slot hslot => hsame _ (h.loads slot hslot), h.apart⟩

/-- **What was written of what is read after goes home, and nothing else changes.** -/
theorem Housed.writeBack_spec {home : ℕ → Home} {homes : Homes}
    (h : promotion.Housed home homes) {copies : List (BitVec 64)}
    (hcopies : copies.length = promotion.slotCount) :
    ∃ homes', promotion.writeBack home copies homes = some homes' ∧
      promotion.Housed home homes' ∧ promotion.OnlyHome home homes homes' ∧
      ∀ slot < promotion.slotCount, promotion.written slot = true →
        promotion.readAfter slot = true → homes'.load (home slot) = copies[slot]? := by
  -- over the first slots, of which there are more and more
  have hfirst : ∀ count ≤ promotion.slotCount, ∃ homes',
      (List.range count).foldlM (fun homes slot =>
        if promotion.written slot && promotion.readAfter slot then do
          homes.store (home slot) (← copies[slot]?)
        else some homes) homes = some homes' ∧
      (∀ target, (homes.load target).isSome → (homes'.load target).isSome) ∧
      promotion.OnlyHome home homes homes' ∧
      ∀ slot < count, promotion.written slot = true →
        promotion.readAfter slot = true → homes'.load (home slot) = copies[slot]? := by
    intro count hcount
    induction count with
    | zero => exact ⟨homes, rfl, fun _ => id, fun _ _ => rfl, fun slot hslot => by omega⟩
    | succ count ih =>
      obtain ⟨homes', hfold, hsome, honly, hdone⟩ := ih (by omega)
      rw [List.range_succ, List.foldlM_append, hfold]
      have hslot : count < copies.length := by omega
      simp only [List.foldlM_cons, List.foldlM_nil, Option.bind_eq_bind, Option.bind_some]
      by_cases hgoes : promotion.written count = true ∧ promotion.readAfter count = true
      · obtain ⟨homes'', hstore, hself, hothers⟩ :=
          Homes.store_spec (hsome _ (h.loads count (by omega))) copies[count]
        rw [if_pos (by simp [hgoes]), List.getElem?_eq_getElem hslot]
        simp only [Option.bind_some, hstore]
        refine ⟨homes'', rfl, fun target htarget => ?_, fun target htarget => ?_,
          fun slot hlt hwritten hread => ?_⟩
        · by_cases hsame : target = home count
          · rw [hsame, hself]
            rfl
          · rw [hothers target hsame]
            exact hsome target htarget
        · rw [hothers target fun hsame =>
            htarget ⟨count, by omega, hgoes.1, hgoes.2, hsame.symm⟩]
          exact honly target htarget
        · by_cases hlast : slot = count
          · rw [hlast, hself, List.getElem?_eq_getElem hslot]
          · have hapart : home slot ≠ home count := fun hsame =>
              hlast (h.apart slot (by omega) count (by omega) hsame)
            rw [hothers _ hapart]
            exact hdone slot (by omega) hwritten hread
      · rw [if_neg (by simpa using hgoes)]
        refine ⟨homes', rfl, hsome, honly, fun slot hlt hwritten hread => ?_⟩
        by_cases hlast : slot = count
        · exact absurd ⟨hlast ▸ hwritten, hlast ▸ hread⟩ hgoes
        · exact hdone slot (by omega) hwritten hread
  obtain ⟨homes', hfold, hsome, honly, hdone⟩ := hfirst promotion.slotCount le_rfl
  exact ⟨homes', hfold, h.of_isSome hsome, honly, hdone⟩

/-! ## A run -/

/-- What is so of what is optimized, all the while. -/
structure Inside (promotion : Promotion) (home : ℕ → Home) (start : Homes)
    (promoted : Promoted W E) : Prop where
  housed : promotion.Housed home promoted.homes
  only : promotion.OnlyHome home start promoted.homes
  length : promoted.native.state.length = promotion.slotCount
  /-- What nothing stores to is at home. -/
  same : ∀ slot < promotion.slotCount, promotion.written slot = false →
    promoted.homes.load (home slot) = promoted.native.state[slot]?
  flushed : promoted.flushedPc = BitVec.allOnes 64 ∨ promoted.flushedPc ∈ promotion.flushSites

/-- All that is read after is at home. -/
def AtHome (promotion : Promotion) (home : ℕ → Home) (homes : Homes)
    (copies : List (BitVec 64)) : Prop :=
  ∀ slot < promotion.slotCount, promotion.readAfter slot = true →
    homes.load (home slot) = copies[slot]?

variable {home : ℕ → Home} {start : Homes} {promoted : Promoted W E} {setup : Setup W E}

/-- **What is read after goes home, whether it was written or not.** -/
theorem Inside.writeBack (h : promotion.Inside home start promoted) :
    ∃ homes', promotion.writeBack home promoted.native.state promoted.homes = some homes' ∧
      promotion.Inside home start { promoted with homes := homes' } ∧
      promotion.AtHome home homes' promoted.native.state := by
  obtain ⟨homes', hwrite, hhoused, honly, hdone⟩ := h.housed.writeBack_spec h.length
  have hsame : ∀ slot < promotion.slotCount, promotion.written slot = false →
      homes'.load (home slot) = promoted.native.state[slot]? := by
    intro slot hslot hwritten
    rw [honly (home slot)]
    · exact h.same slot hslot hwritten
    · rintro ⟨other, hother, hwritten', -, heq⟩
      rw [h.housed.apart other hother slot hslot heq, hwritten] at hwritten'
      simp at hwritten'
  refine ⟨homes', hwrite, ⟨hhoused, fun target htarget => ?_, h.length, hsame, h.flushed⟩,
    fun slot hslot hread => ?_⟩
  · exact (honly target htarget).trans (h.only target htarget)
  · cases hwritten : promotion.written slot with
    | false => exact hsame slot hslot hwritten
    | true => exact hdone slot hslot hwritten hread

/-- Whether a step is one at a code site that calls, where all that is read after goes home. -/
def Flushes (promotion : Promotion) (setup : Setup W E) (body : List Op)
    (promoted : Promoted W E) (pc : Address) : Prop :=
  (∃ effectSlot rest, body = .code effectSlot pc :: rest) ∧
    promoted.native.cells.calls setup = true ∧ pc ∈ promotion.flushSites

/-- **At a code site that calls Lean code, all that is read after is at home if the program was
told of the site.** -/
theorem Inside.beforeStep (h : promotion.Inside home start promoted) (setup : Setup W E)
    (body : List Op) : ∃ promoted', promotion.beforeStep setup home body promoted = some promoted' ∧
      promotion.Inside home start promoted' ∧ promoted'.native = promoted.native ∧
      ∀ pc, promotion.Flushes setup body promoted pc →
        promoted'.flushedPc = pc ∧
          promotion.AtHome home promoted'.homes promoted'.native.state := by
  rcases body with _ | ⟨op, rest⟩
  · refine ⟨promoted, rfl, h, rfl, ?_⟩
    rintro pc ⟨⟨effectSlot, rest, hbody⟩, -⟩
    simp at hbody
  · cases op with
    | code effectSlot pc =>
      by_cases hsite : pc ∈ promotion.flushSites ∧ promoted.native.cells.calls setup = true
      · obtain ⟨homes', hwrite, hinside, hhome⟩ := h.writeBack
        refine ⟨{ promoted with homes := homes', flushedPc := pc }, ?_,
          ⟨hinside.housed, hinside.only, hinside.length, hinside.same, Or.inr hsite.1⟩, rfl, ?_⟩
        · simp [Promotion.beforeStep, flush, hsite, hwrite]
        · rintro pc' ⟨⟨effectSlot', rest', hbody⟩, -⟩
          obtain ⟨⟨-, rfl⟩, -⟩ : (effectSlot = effectSlot' ∧ pc = pc') ∧ rest = rest' := by
            simpa using hbody
          exact ⟨rfl, hhome⟩
      · refine ⟨promoted, ?_, h, rfl, ?_⟩
        · simp only [Promotion.beforeStep, flush]
          rw [if_neg (by simpa using hsite)]
        · rintro pc' ⟨⟨effectSlot', rest', hbody⟩, hcalls, hmem⟩
          obtain ⟨⟨-, rfl⟩, -⟩ : (effectSlot = effectSlot' ∧ pc = pc') ∧ rest = rest' := by
            simpa using hbody
          exact absurd ⟨hmem, hcalls⟩ hsite
    | _ =>
      refine ⟨promoted, rfl, h, rfl, ?_⟩
      rintro pc ⟨⟨effectSlot, rest, hbody⟩, -⟩
      simp at hbody

/-- A run that goes on writes only what something stores to. -/
lemma Inside.of_native (h : promotion.Inside home start promoted) {native : Native W E}
    (hlength : native.state.length = promoted.native.state.length)
    (hload : ∀ slot, promotion.written slot = false →
      native.state[slot]? = promoted.native.state[slot]?) :
    promotion.Inside home start { promoted with native := native } := by
  refine ⟨h.housed, h.only, hlength.trans h.length, fun slot hslot hwritten => ?_, h.flushed⟩
  rw [hload slot hwritten]
  exact h.same slot hslot hwritten

/-- What is optimized, beside the graph on its copies. -/
def BesideGraph (promotion : Promotion) (home : ℕ → Home) (start : Homes)
    (point : BasicBlock N × Promoted W E) (point' : BasicBlock N × Native W E) : Prop :=
  point.1 = point'.1 ∧ point.2.native = point'.2 ∧ promotion.Inside home start point.2 ∧
    ∀ op ∈ point.1.body, op ∈ promotion.ops

/-- It returns what the graph returns, with what is read after at home, and nothing else there
changed. -/
def LeavesHome (promotion : Promotion) (home : ℕ → Home) (start : Homes)
    (result : BitVec 64 × Promoted W E) (result' : BitVec 64 × Native W E) : Prop :=
  result.1 = result'.1 ∧ result.2.native = result'.2 ∧
    promotion.OnlyHome home start result.2.homes ∧
    promotion.AtHome home result.2.homes result'.2.state

lemma written_eq_true {op : Op} (hop : op ∈ promotion.ops) {slot : ℕ}
    (hslot : op.storesTo = some slot) : promotion.written slot = true :=
  List.any_eq_true.mpr ⟨op, hop, by simp [hslot]⟩

lemma Inside.sameBut (h : promotion.Inside home start promoted) {body : List Op}
    (hbody : ∀ op ∈ body, op ∈ promotion.ops) {native : Native W E}
    (hsame : SameBut body promoted.native native) :
    promotion.Inside home start { promoted with native := native } := by
  refine h.of_native hsame.1 fun slot hwritten => hsame.2 slot fun op hop hslot => ?_
  rw [written_eq_true (hbody op hop) hslot] at hwritten
  simp at hwritten

/-- A step of what is optimized is one of the graph. -/
lemma follows_step {graph : Graph N}
    (hops : ∀ id, ∀ op ∈ (graph.block id).body, op ∈ promotion.ops)
    (point : BasicBlock N × Promoted W E) (point' : BasicBlock N × Native W E)
    (h : promotion.BesideGraph home start point point') :
    Follows (promotion.step setup home graph) (graph.step setup)
      (promotion.BesideGraph home start) (promotion.LeavesHome home start) (fun _ => 0) point
      point' := by
  obtain ⟨block, promoted⟩ := point
  obtain ⟨_, _⟩ := point'
  obtain ⟨rfl, rfl, hinside, hbody⟩ := h
  refine Or.inr fun y hy => ?_
  obtain ⟨promoted', hbefore, hinside', hnative, -⟩ := hinside.beforeStep setup block.body
  obtain ⟨hsame, hblock⟩ := Graph.sameBut_step hy
  simp only [Promotion.step, hbefore, Option.bind_eq_bind, Option.bind_some, hnative, hy]
  rcases y with ⟨block', native⟩ | ⟨value, native⟩
  · refine ⟨_, rfl, .inl ⟨rfl, rfl, ?_, fun op hop => ?_⟩⟩
    · exact hinside'.sameBut hbody (hnative ▸ hsame)
    · rcases hblock block' native rfl with hsuffix | ⟨target, rfl⟩
      · exact hbody op (hsuffix.subset hop)
      · exact hops target op hop
  · obtain ⟨homes, hwrite, hinside'', hhome⟩ :=
      (hinside'.sameBut hbody (hnative ▸ hsame : SameBut block.body _ native)).writeBack
    simp only at hwrite
    simp only [hwrite, Option.bind_some]
    exact ⟨_, rfl, .inr ⟨rfl, rfl, hinside''.only, hhome⟩⟩

/-- The copies are loaded. -/
lemma Housed.enter_spec {homes : Homes} (h : promotion.Housed (promotion.homeIn homes) homes)
    (cells : Cells W E) : ∃ copies : List (BitVec 64),
      promotion.enter homes cells = some ⟨homes, ⟨copies, cells⟩, BitVec.allOnes 64⟩ ∧
      copies.length = promotion.slotCount ∧
      ∀ slot < promotion.slotCount,
        copies[slot]? = homes.load (promotion.homeIn homes slot) := by
  have hload : ∀ slot ∈ List.range promotion.slotCount,
      homes.load (promotion.homeIn homes slot) =
        some ((homes.load (promotion.homeIn homes slot)).getD 0) := by
    intro slot hslot
    obtain ⟨value, hvalue⟩ := Option.isSome_iff_exists.mp (h.loads slot (List.mem_range.mp hslot))
    rw [hvalue]
    rfl
  refine ⟨(List.range promotion.slotCount).map fun slot =>
    (homes.load (promotion.homeIn homes slot)).getD 0, ?_, by simp, fun slot hslot => ?_⟩
  · rw [enter, mapM_eq_some hload]
    rfl
  · rw [hload slot (List.mem_range.mpr hslot)]
    simp [hslot]

/-- **What is made of a graph, on copies of its slots, does what the graph does on them.**  It
returns if and only if the graph does, with what is read after at home, and nothing else of what
is there between runs changed. -/
theorem Housed.alike {homes : Homes} (h : promotion.Housed (promotion.homeIn homes) homes)
    {graph : Graph N} (hops : ∀ id, ∀ op ∈ (graph.block id).body, op ∈ promotion.ops)
    {cells : Cells W E} {promoted : Promoted W E}
    (henter : promotion.enter homes cells = some promoted)
    (hsafe : Safe (graph.step setup) (graph.start promoted.native)) :
    Alike (promotion.step setup (promotion.homeIn homes) graph) (graph.step setup)
      (promotion.LeavesHome (promotion.homeIn homes) homes)
      (graph.block graph.entry, promoted) (graph.start promoted.native) := by
  obtain ⟨copies, henter', hlength, hcopies⟩ := h.enter_spec cells
  obtain rfl := Option.some.inj (henter.symm.trans henter')
  refine alike_of_follows (follows_step hops) ⟨rfl, rfl, ?_, hops graph.entry⟩ hsafe
  exact ⟨h, fun _ _ => rfl, hlength, fun slot hslot _ => (hcopies slot hslot).symm, Or.inl rfl⟩

end Promotion

end BapNative.Jit
