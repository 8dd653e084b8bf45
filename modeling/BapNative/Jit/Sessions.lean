import BapNative.Jit.Runner

/-!
# Runs of a memory

What is so of whole runs, and of a memory that programs run on and that others write to in
between.  An observer that throws ends all that a run does, and its error is what the run gives
back.  The cells that a run gives back are all that its stores changed.  And what is known of a
step of the memory has all that was changed since, by whatever runs and writes, also by runs
that failed.
-/

namespace BapNative.Jit

open Block Lockstep Overwrite PagedMemory

variable {W E : Type} {setup : Setup W E} {ops : List Op} {program : Program}

/-- What an operation leaves, however it comes out. -/
def Exit.left {S : Type} : Exit S → S
  | .next s | .goto _ s | .ret _ s => s

/-- What is so of what an operation leaves is so of where it leads. -/
lemma nextCfg_elim {I : Machine W E → Prop} {rest : List Op} {machine : Machine W E}
    {x : (List Op × Machine W E) ⊕ (BitVec 64 × Machine W E)}
    (hop : ∀ op, I (machine.denote setup op).left)
    (h : nextCfg setup ops (rest, machine) = some x) :
    Sum.elim (fun cfg => I cfg.2) (fun result => I result.2) x := by
  cases rest with
  | nil => simp [nextCfg] at h
  | cons op rest =>
    have hleft := hop op
    simp only [nextCfg] at h
    cases hdenote : machine.denote setup op with
    | next machine' =>
      simp only [hdenote] at h hleft
      obtain rfl := Option.some.inj h
      exact hleft
    | goto id machine' =>
      simp only [hdenote] at h hleft
      obtain ⟨target, -, rfl⟩ := Option.map_eq_some_iff.mp h
      exact hleft
    | ret value machine' =>
      simp only [hdenote] at h hleft
      obtain rfl := Option.some.inj h
      exact hleft

/-- **What every operation preserves of the machine is so wherever its operations get.** -/
theorem machine_invariant {I : Machine W E → Prop}
    (hop : ∀ machine op, I machine → I (machine.denote setup op).left) {rest : List Op}
    {machine : Machine W E} (h : I machine) {fuel : ℕ}
    {x : (List Op × Machine W E) ⊕ (BitVec 64 × Machine W E)}
    (hrun : run (nextCfg setup ops) fuel (rest, machine) = some x) :
    Sum.elim (fun cfg => I cfg.2) (fun result => I result.2) x := by
  have hstep : ∀ (cfg : List Op × Machine W E) x, I cfg.2 → nextCfg setup ops cfg = some x →
      Sum.elim (fun cfg => I cfg.2) (fun result => I result.2) x :=
    fun cfg x hI hnext => nextCfg_elim (fun op => hop cfg.2 op hI) hnext
  exact run_invariant hstep h hrun

/-! ## What a run preserves -/

/-- What waiting, failing and storing preserve of a run, and each call of an observer, of which
there is none once there is an error. -/
structure Kept (setup : Setup W E) (I : Flat W E → Prop) : Prop where
  waits : ∀ flat leanRan pending, I flat → I { flat with leanRan, pending }
  fails : ∀ flat error, flat.error = none → I flat → I { flat with error := some error }
  stores : ∀ flat base value size bigEndian, I flat →
    I (flat.afterStore base value size bigEndian)
  observer : ∀ observer, setup.observer = some observer →
    ∀ flat write address size value, flat.error = none → I flat →
      I (flat.react (observer flat.world flat.memory write address size value))
  codeObserver : ∀ observer, setup.codeObserver = some observer →
    ∀ flat pc, flat.error = none → I flat →
      I (flat.react (observer flat.world flat.memory pc).1)

namespace Kept

variable {I : Flat W E → Prop} {flat : Flat W E}

lemma callCode (hkept : Kept setup I) (h : I flat) (hfine : flat.error = none) (pc : Address) :
    I (flat.callCode setup pc).2 := by
  unfold Flat.callCode
  cases hobserver : setup.codeObserver with
  | none => exact h
  | some observer => exact hkept.codeObserver observer hobserver flat pc hfine h

lemma callPending (hkept : Kept setup I) (h : I flat) (hfine : flat.error = none) :
    I (flat.callPending setup) := by
  unfold Flat.callPending
  cases flat.pending with
  | none => exact h
  | some pc =>
    have hcode := hkept.callCode (hkept.waits flat true none h) hfine pc
    simp only
    split_ifs with hstop
    · exact hkept.fails _ _ (by simpa using (Bool.and_eq_true_iff.mp hstop).2) hcode
    · exact hcode

lemma notify (hkept : Kept setup I) (h : I flat) (write : Bool) (address : Address) (size : ℕ)
    (value : BitVec 64) : I (flat.notify setup write address size value) := by
  unfold Flat.notify
  cases hobserver : setup.observer with
  | none => exact h
  | some observer =>
    simp only
    split_ifs with hleft
    · exact h
    · have hfine : flat.error = none := by simpa using (not_or.mp hleft).1
      have hpending := hkept.callPending h hfine
      simp only [Flat.callObserver]
      split_ifs with hfails
      · exact hpending
      · exact hkept.observer observer hobserver _ write address size value (by simpa using hfails)
          (hkept.waits _ true _ hpending)

lemma code (hkept : Kept setup I) (h : I flat) (pc : Address) : I (flat.code setup pc).2 := by
  unfold Flat.code
  split_ifs with herror
  · exact h
  · exact h
  · exact hkept.waits flat _ _ h
  · exact hkept.callCode h (by simpa using herror) pc

/-- What a run preserves, each of its operations does. -/
lemma denote (hkept : Kept setup I) {machine : Machine W E} (op : Op) (h : I machine.flat) :
    I (machine.denote setup op).left.flat := by
  cases op with
  | memLoad dst address size bigEndian => exact hkept.notify h false _ size 0
  | memStore address value size bigEndian =>
    exact hkept.stores _ _ _ size bigEndian (hkept.notify h true _ size _)
  | code effectSlot pc =>
    have hcode := hkept.code h pc
    simp only [Machine.denote]
    split_ifs
    · exact hcode
    · exact hcode
  | _ => exact h

/-- What a run preserves is so wherever it gets. -/
lemma run (hkept : Kept setup I) {rest : List Op} {machine : Machine W E} (h : I machine.flat)
    {fuel : ℕ} {x : (List Op × Machine W E) ⊕ (BitVec 64 × Machine W E)}
    (hrun : Lockstep.run (nextCfg setup ops) fuel (rest, machine) = some x) :
    I (x.elim Prod.snd Prod.snd).flat := by
  have hreached := machine_invariant (I := fun machine => I machine.flat)
    (fun _ op => hkept.denote op) h hrun
  cases x with
  | inl cfg => exact hreached
  | inr result => exact hreached

end Kept

/-! ## Runs that fail -/

/-- The observers keep in their world what they threw. -/
structure Records (setup : Setup W E) (thrown : W → List E) : Prop where
  observer : ∀ observer, setup.observer = some observer →
    ∀ world memory write address size value,
      thrown (observer world memory write address size value).world =
        thrown world ++ (observer world memory write address size value).error.toList
  codeObserver : ∀ observer, setup.codeObserver = some observer → ∀ world memory pc,
    thrown (observer world memory pc).1.world =
      thrown world ++ (observer world memory pc).1.error.toList

/-- What was thrown is the error of the run. -/
def Flat.Recorded (thrown : W → List E) (flat : Flat W E) : Prop :=
  ∀ error ∈ thrown flat.world, flat.error = some error

lemma Flat.Recorded.react {thrown : W → List E} {flat : Flat W E} (h : flat.Recorded thrown)
    (hfine : flat.error = none) {reaction : Reaction W E}
    (hthrown : thrown reaction.world = thrown flat.world ++ reaction.error.toList) :
    (flat.react reaction).Recorded thrown := by
  intro error herror
  rcases List.mem_append.mp (hthrown ▸ herror) with hbefore | hnow
  · simpa [hfine] using h error hbefore
  · simp [Flat.react, Option.mem_toList.mp hnow]

lemma Records.kept {thrown : W → List E} (hrecords : Records setup thrown) :
    Kept setup (Flat.Recorded thrown) where
  waits _ _ _ h := h
  fails flat _ hfine h error herror := by simpa [hfine] using h error herror
  stores flat base value size bigEndian h := by
    unfold Flat.afterStore
    simp only
    split_ifs
    · exact h
    · exact h
  observer observer hobserver flat write address size value hfine h :=
    h.react hfine (hrecords.observer observer hobserver _ _ write address size value)
  codeObserver observer hobserver flat pc hfine h :=
    h.react hfine (hrecords.codeObserver observer hobserver _ _ pc)

/-- An observer that refuses a store to an address. -/
def refusingSetup : Setup ℕ String :=
  { countingSetup with
    observer := some fun world _ _ address _ _ =>
      .leaving world (if address = 0x2002 then some "refused" else none) }

/-- The observers of a run write nothing to its memory. -/
structure Silent (setup : Setup W E) : Prop where
  observer : ∀ observer, setup.observer = some observer →
    ∀ world memory write address size value,
      (observer world memory write address size value).ops = []
  codeObserver : ∀ observer, setup.codeObserver = some observer →
    ∀ world memory pc, (observer world memory pc).1.ops = []

/-- The memory is what it was, but for what was stored. -/
def Flat.Stored (memory : Address → Byte) (flat : Flat W E) : Prop :=
  flat.memory = patch memory flat.stored

lemma Flat.Stored.react {flat : Flat W E} {memory : Address → Byte} (h : flat.Stored memory)
    {reaction : Reaction W E} (hops : reaction.ops = []) :
    (flat.react reaction).Stored memory := by
  rw [Stored, Flat.react, hops]
  exact h

lemma Flat.Stored.afterStore {flat : Flat W E} {memory : Address → Byte} (h : flat.Stored memory)
    (base : Address) (value : BitVec 64) (size : ℕ) (bigEndian : Bool) :
    (flat.afterStore base value size bigEndian).Stored memory := by
  unfold Flat.afterStore
  simp only
  split_ifs
  · exact h
  · rw [Stored, patch_writes, ← h]

lemma Silent.kept (hsilent : Silent setup) (memory : Address → Byte) :
    Kept setup (Flat.Stored memory) where
  waits _ _ _ h := h
  fails _ _ _ h := h
  stores _ base value size bigEndian h := h.afterStore base value size bigEndian
  observer observer hobserver _ write address size value _ h :=
    h.react (hsilent.observer observer hobserver _ _ write address size value)
  codeObserver observer hobserver _ pc _ h :=
    h.react (hsilent.codeObserver observer hobserver _ _ pc)

/-- **The cells that a run gives back are what it changed.**  If its observers write nothing, the
memory is what it was with these cells written to it. -/
theorem Compiled.byteAt_of_returned (h : Compiled ops program) (hsilent : Silent setup)
    (order : LogOrder) {world : W} {filter : Option MemoryFilter} {state : List (BitVec 64)}
    {pages : PagedMemory} (hpages : pages.WellFormed) {fuel : ℕ} {after : After W E}
    {result : RunResult}
    (hafter : runMemoryObject setup order program world filter state pages fuel =
      some (.inr after))
    (hresult : after.result = .ok result) :
    result.addresses.length = result.values.length ∧ result.addresses.Nodup ∧
    after.pages.byteAt = writes pages.byteAt (result.addresses.zip result.values) := by
  have hstate : program.maxSlot ≤ state.length := by
    by_contra hfew
    rw [runMemoryObject, if_pos (Nat.not_le.mp hfew)] at hafter
    obtain rfl : After.mk world pages filter _ = after := by simpa using hafter
    simp at hresult
  have hspec := h.runMemoryObject_spec setup order world filter hstate hpages fuel
  rw [hafter] at hspec
  obtain ⟨⟨next, machine⟩, hrun, hleaves⟩ := hspec.exists_inr
  have hstart : (Machine.start world filter state pages.byteAt : Machine W E).flat.Stored
      pages.byteAt := rfl
  have hstored : machine.flat.Stored pages.byteAt :=
    (hsilent.kept pages.byteAt).run hstart hrun
  have hfine : machine.flat.error = none := by
    refine Option.eq_none_iff_forall_ne_some.mpr fun error herror => ?_
    simp [hleaves.failed error herror] at hresult
  obtain ⟨cells, hcells, hnodup, hmem⟩ := hleaves.returned hfine
  obtain rfl := Except.ok.inj (hresult.symm.trans hcells)
  refine ⟨by simp, hnodup, ?_⟩
  rw [hleaves.byteAt, hstored, ← writes_of_graph pages.byteAt hmem, ← List.zip_of_prod rfl rfl]

lemma silent_countingSetup : Silent countingSetup := by
  refine ⟨fun _ h => by simp [countingSetup] at h, fun observer h world memory pc => ?_⟩
  obtain rfl := Option.some.inj h
  rfl

theorem byteAt_of_returned_storeOps :
    ∃ after result, runMemoryObject countingSetup keptOrder (programOf storeOps) 0 none
        [3, 0x1FFE, 0x0807060504030201, 0] Memory.empty.state 18 = some (.inr after) ∧
      after.result = .ok result ∧ result.addresses.length = 16 ∧
      after.pages.byteAt =
        writes Memory.empty.state.byteAt (result.addresses.zip result.values) := by
  have hover : (runMemoryObject countingSetup keptOrder (programOf storeOps) 0 none
      [3, 0x1FFE, 0x0807060504030201, 0] Memory.empty.state 18).any
        (Sum.elim (fun _ => false) fun after => after.result.toOption.any
          fun result => result.addresses.length == 16) = true := by
    decide +kernel
  obtain ⟨_ | after, hafter, hright⟩ := (Option.any_eq_true _ _).mp hover
  · simp at hright
  · obtain ⟨result, hok, hlength⟩ := (Option.any_eq_true _ _).mp hright
    have hcompiled := compiled_of_compile
      (show compile (fun _ => "") storeOps = .ok (programOf storeOps) from rfl)
    have hresult : after.result = .ok result := by
      cases hcase : after.result with
      | error _ => simp [hcase, Except.toOption] at hok
      | ok result' => simpa [hcase, Except.toOption] using hok
    exact ⟨after, result, hafter, hresult, by simpa using hlength,
      (hcompiled.byteAt_of_returned silent_countingSetup keptOrder Memory.empty.wf hafter
        hresult).2.2⟩

/-! ## Steps of a memory -/

/-- What happens to a memory within a step: an operation that tells the step what it changes, or
a run of a program, which may have failed. -/
inductive Happens (host : Host) (W E : Type) : PagedMemory → PagedMemory → Prop
  | op (m : PagedMemory) {op : MemoryOp} (h : op.Logged) : Happens host W E m (m.apply host op)
  | run {m : PagedMemory} {ops : List Op} {program : Program} (h : Compiled ops program)
      (setup : Setup W E) (order : LogOrder) (world : W) (filter : Option MemoryFilter)
      (state : List (BitVec 64)) {fuel : ℕ} {after : After W E}
      (hafter : runMemoryObject setup order program world filter state m fuel =
        some (.inr after)) : Happens host W E m after.pages

variable {host : Host}

/-- Whatever happens tells the step what it changes. -/
lemma Happens.logs {m m' : PagedMemory} (h : Happens host W E m m') (hm : m.WellFormed) :
    m'.WellFormed ∧ Logs m m' := by
  cases h with
  | op hop => exact ⟨hm.apply host _, hm.logs_apply host hop⟩
  | @run ops program hcompiled setup order world filter state fuel after hafter =>
    by_cases hstate : program.maxSlot ≤ state.length
    · have hspec := hcompiled.runMemoryObject_spec setup order world filter hstate hm fuel
      rw [hafter] at hspec
      obtain ⟨result, -, hleaves⟩ := hspec.exists_inr
      exact ⟨hleaves.wf, hleaves.logs⟩
    · rw [runMemoryObject, if_pos (Nat.not_le.mp hstate)] at hafter
      obtain rfl : After.mk world m filter _ = after := by simpa using hafter
      exact ⟨hm, Logs.refl m⟩

/-- **What is known of a step has all that changed in it.**  Whatever writes and runs there were
since it began, in whichever order, and also if some of the runs failed, `stepAddresses` lists
in ascending order and once each addresses among which is every one whose byte is another. -/
theorem stepAddresses_of_happens {m m' : PagedMemory} (hm : m.WellFormed)
    (h : Relation.ReflTransGen (Happens host W E) m.beginStep m') {known addresses : List Address}
    (hknown : m'.stepAddresses known = (true, addresses)) :
    addresses.Pairwise (· < ·) ∧ ∀ a, m'.byteAt a ≠ m.byteAt a → a ∈ addresses := by
  have hlogs : m'.WellFormed ∧ Logs m.beginStep m' := by
    clear hknown
    induction h with
    | refl => exact ⟨(onlyStep_beginStep m).wf hm, Logs.refl _⟩
    | tail _ hlast ih =>
      obtain ⟨hwf, hlogs⟩ := hlast.logs ih.1
      exact ⟨hwf, ih.2.trans hlogs⟩
  exact stepAddresses_spec hlogs.2 hknown

theorem stepAddresses_of_happens_storeOps :
    ∃ after, runMemoryObject countingSetup keptOrder (programOf storeOps) 0 none
        [1, 0x1FFE, 0x0807060504030201, 0] Memory.empty.state.beginStep 18 =
          some (.inr after) ∧
      ∀ a, after.pages.byteAt a ≠ Memory.empty.state.byteAt a →
        a ∈ ([0x1FFE, 0x1FFF, 0x2000, 0x2001, 0x2002, 0x2003, 0x2004, 0x2005] : List Address) := by
  have hover : (runMemoryObject countingSetup keptOrder (programOf storeOps) 0 none
      [1, 0x1FFE, 0x0807060504030201, 0] Memory.empty.state.beginStep 18).any
        (Sum.elim (fun _ => false) fun after => after.pages.stepAddresses [] ==
          (true, [0x1FFE, 0x1FFF, 0x2000, 0x2001, 0x2002, 0x2003, 0x2004, 0x2005])) = true := by
    decide +kernel
  obtain ⟨_ | after, hafter, hright⟩ := (Option.any_eq_true _ _).mp hover
  · simp at hright
  · have hcompiled := compiled_of_compile
      (show compile (fun _ => "") storeOps = .ok (programOf storeOps) from rfl)
    have hran : Happens Memory.linuxHost ℕ String _ after.pages :=
      .run hcompiled countingSetup keptOrder 0 none _ hafter
    exact ⟨after, hafter, (stepAddresses_of_happens Memory.empty.wf (.single hran)
      (by simpa using hright)).2⟩

end BapNative.Jit
