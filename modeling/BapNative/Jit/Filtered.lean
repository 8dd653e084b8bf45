import BapNative.Jit.Sessions

/-!
# Runs with a filter

A run with a filter tells its observer of no access that lies within a range of the filter which
lets its kind through.  That is the same run as one without a filter, if the observer would have
done nothing for such an access, and if whatever the observers do keeps the filter so: it goes
the same way, leaves the same memory and gives the same back.
-/

namespace BapNative.Jit

open Lockstep PagedMemory

variable {W E : Type} {setup : Setup W E} {right : W → MemoryFilter → Prop}

/-- What a filter is kept by: where it is right for the world, the observer does nothing for what
it lets through, and the observers leave one that is right for the world that they leave. -/
structure KeepsRight (setup : Setup W E) (right : W → MemoryFilter → Prop) : Prop where
  idle : ∀ observer, setup.observer = some observer → ∀ world filter, right world filter →
    ∀ memory write address size value,
      (∃ range ∈ filter.ranges, range.Within address size ∧ range.quiet write = true) →
      (observer world memory write address size value).world = world ∧
      (observer world memory write address size value).ops = [] ∧
      (observer world memory write address size value).error = none
  observer : ∀ observer, setup.observer = some observer → ∀ world filter, right world filter →
    ∀ memory write address size value,
      right (observer world memory write address size value).world
        ((observer world memory write address size value).filter filter)
  codeObserver : ∀ observer, setup.codeObserver = some observer → ∀ world filter,
    right world filter → ∀ memory pc,
      right (observer world memory pc).1.world ((observer world memory pc).1.filter filter)

namespace Flat

/-- A flat run that has no filter, and for which observers may have been called more often. -/
def unfiltered (flat : Flat W E) (ran : Bool) : Flat W E :=
  { flat with filter := none, leanRan := ran }

/-- A flat run has a filter that is right, and no site that waits. -/
def Right (right : W → MemoryFilter → Prop) (flat : Flat W E) : Prop :=
  (∃ filter, flat.filter = some filter ∧ right flat.world filter) ∧ flat.pending = none

/-- Two flat runs are one, with a filter that is right and without one. -/
def Unfiltered (right : W → MemoryFilter → Prop) (flat flat' : Flat W E) : Prop :=
  flat.Right right ∧ ∃ ran, flat' = flat.unfiltered ran

variable {flat flat' : Flat W E}

lemma Right.react (h : flat.Right right) {reaction : Reaction W E}
    (hreaction : ∀ filter, right flat.world filter →
      right reaction.world (reaction.filter filter)) :
    (flat.react reaction).Right right := by
  obtain ⟨⟨filter, hfilter, hright⟩, hpending⟩ := h
  exact ⟨⟨reaction.filter filter, by simp [Flat.react, hfilter], hreaction filter hright⟩, hpending⟩

lemma Unfiltered.callCode (hkeeps : KeepsRight setup right) (h : Unfiltered right flat flat')
    (pc : Address) : (flat'.callCode setup pc).1 = (flat.callCode setup pc).1 ∧
      Unfiltered right (flat.callCode setup pc).2 (flat'.callCode setup pc).2 := by
  obtain ⟨hright, ran, rfl⟩ := h
  unfold Flat.callCode
  cases hobserver : setup.codeObserver with
  | none => exact ⟨rfl, hright, ran, rfl⟩
  | some observer =>
    refine ⟨rfl, hright.react fun filter hfilter => ?_, ran, rfl⟩
    exact hkeeps.codeObserver observer hobserver _ filter hfilter _ pc

/-- A code site does the same, if none of them waits. -/
lemma Unfiltered.code (hkeeps : KeepsRight setup right) (hsites : setup.quietSites = false)
    (h : Unfiltered right flat flat') (pc : Address) :
    (flat'.code setup pc).1 = (flat.code setup pc).1 ∧
      Unfiltered right (flat.code setup pc).2 (flat'.code setup pc).2 := by
  have herror : flat'.error = flat.error := by
    obtain ⟨-, ran, rfl⟩ := h
    rfl
  simp only [Flat.code, herror, hsites, Bool.false_and, Bool.false_eq_true, if_false]
  split_ifs with hfailed hobserved
  · exact ⟨rfl, h⟩
  · exact ⟨rfl, h⟩
  · exact h.callCode hkeeps pc

/-- Without a site that waits the observer alone is called. -/
lemma callObserver_of_pending
    (observer : W → (Address → Byte) → Bool → Address → ℕ → BitVec 64 → Reaction W E)
    (hpending : flat.pending = none) (hfine : ¬ flat.error.isSome = true) (write : Bool)
    (address : Address) (size : ℕ) (value : BitVec 64) :
    flat.callObserver setup observer write address size value =
      { flat with leanRan := true }.react
        (observer flat.world flat.memory write address size value) := by
  have hnone : flat.callPending setup = flat := by
    unfold Flat.callPending
    rw [hpending]
  rw [Flat.callObserver, hnone, if_neg hfine]

/-- What an observer that does nothing leaves. -/
lemma react_idle {reaction : Reaction W E} (hworld : reaction.world = flat.world)
    (hops : reaction.ops = []) (herror : reaction.error = none) (ran : Bool) :
    (flat.unfiltered ran).react reaction = flat.unfiltered ran := by
  simp only [Flat.react, unfiltered, hworld, hops, herror]
  rfl

/-- **An access that is quiet is one that the observer does nothing for.** -/
theorem Unfiltered.notify (hkeeps : KeepsRight setup right) (h : Unfiltered right flat flat')
    (write : Bool) (address : Address) (size : ℕ) (value : BitVec 64) :
    Unfiltered right (flat.notify setup write address size value)
      (flat'.notify setup write address size value) := by
  obtain ⟨hright, ran, rfl⟩ := h
  have hloud : ¬ (flat.unfiltered ran).Quiet write address size := by
    rintro ⟨filter, hfilter, -⟩
    simp [unfiltered] at hfilter
  unfold Flat.notify
  cases hobserver : setup.observer with
  | none => exact ⟨hright, ran, rfl⟩
  | some observer =>
    simp only
    by_cases hfailed : flat.error.isSome = true
    · have hfailed' : (flat.unfiltered ran).error.isSome = true := hfailed
      rw [if_pos (Or.inl hfailed), if_pos (Or.inl hfailed')]
      exact ⟨hright, ran, rfl⟩
    · have hfine' : ¬ (flat.unfiltered ran).error.isSome = true := hfailed
      have hpending' : (flat.unfiltered ran).pending = none := hright.2
      rw [if_neg (not_or.mpr ⟨hfine', hloud⟩),
        callObserver_of_pending observer hpending' hfine']
      by_cases hquiet : flat.Quiet write address size
      · rw [if_pos (Or.inr hquiet)]
        obtain ⟨filter, hfilter, hr⟩ := hright.1
        obtain ⟨filter', hfilter', hrange⟩ := hquiet
        obtain rfl : filter = filter' := Option.some.inj (hfilter.symm.trans hfilter')
        obtain ⟨hworld, hops, herror⟩ := hkeeps.idle observer hobserver flat.world filter hr
          flat.memory write address size value hrange
        exact ⟨hright, true, react_idle hworld hops herror true⟩
      · rw [if_neg (not_or.mpr ⟨hfailed, hquiet⟩),
          callObserver_of_pending observer hright.2 hfailed]
        refine ⟨hright.react fun filter hfilter => ?_, true, rfl⟩
        exact hkeeps.observer observer hobserver _ filter hfilter _ _ _ _ _

lemma Unfiltered.load (hkeeps : KeepsRight setup right) (h : Unfiltered right flat flat')
    (base : Address) (size : ℕ) (bigEndian : Bool) :
    (flat'.load setup base size bigEndian).1 = (flat.load setup base size bigEndian).1 ∧
      Unfiltered right (flat.load setup base size bigEndian).2
        (flat'.load setup base size bigEndian).2 := by
  have hnotify := h.notify hkeeps false base size 0
  refine ⟨?_, hnotify⟩
  obtain ⟨-, ran, heq⟩ := hnotify
  simp only [Flat.load, heq]
  rfl

lemma Unfiltered.afterStore (h : Unfiltered right flat flat') (base : Address)
    (value : BitVec 64) (size : ℕ) (bigEndian : Bool) :
    Unfiltered right (flat.afterStore base value size bigEndian)
      (flat'.afterStore base value size bigEndian) := by
  obtain ⟨hright, ran, rfl⟩ := h
  have herror : (flat.unfiltered ran).error = flat.error := rfl
  simp only [Flat.afterStore, herror]
  split_ifs
  · exact ⟨hright, ran, rfl⟩
  · exact ⟨hright, ran, rfl⟩

end Flat

/-! ## Machines -/

/-- Two machines are one, with a filter that is right and without one. -/
def Machine.Unfiltered (right : W → MemoryFilter → Prop) (machine machine' : Machine W E) : Prop :=
  machine'.slots = machine.slots ∧ machine.flat.Unfiltered right machine'.flat

namespace Machine.Unfiltered

variable {machine machine' : Machine W E}

lemma write (h : Machine.Unfiltered right machine machine') (slot : ℕ) (value : BitVec 64) :
    Machine.Unfiltered right (machine.write slot value) (machine'.write slot value) := by
  obtain ⟨hslots, hflat⟩ := h
  exact ⟨by rw [Machine.write, Machine.write, hslots], hflat⟩

/-- An operation does the same with a filter and without one. -/
lemma denote (hkeeps : KeepsRight setup right) (hsites : setup.quietSites = false)
    (h : Machine.Unfiltered right machine machine') (op : Op) :
    Exit.Rel (Machine.Unfiltered right) (machine.denote setup op) (machine'.denote setup op) := by
  obtain ⟨hslots, hflat⟩ := h
  cases op with
  | memLoad dst address size bigEndian =>
    obtain ⟨hvalue, hload⟩ := hflat.load hkeeps (machine.slots address) size bigEndian
    have hloaded : Machine.Unfiltered right
        { machine with flat := (machine.flat.load setup (machine.slots address) size bigEndian).2 }
        { machine' with
          flat := (machine'.flat.load setup (machine.slots address) size bigEndian).2 } :=
      ⟨hslots, hload⟩
    simp only [Machine.denote, ← hvalue, hslots] at hloaded ⊢
    exact .next (hloaded.write dst _)
  | memStore address value size bigEndian =>
    simp only [Machine.denote, hslots]
    exact .next ⟨rfl, (hflat.notify hkeeps true _ size _).afterStore _ _ size bigEndian⟩
  | code effectSlot pc =>
    obtain ⟨hstop, hcode⟩ := hflat.code hkeeps hsites pc
    have hagain : Machine.Unfiltered right
        { machine with flat := (machine.flat.code setup pc).2 }
        { machine' with flat := (machine'.flat.code setup pc).2 } := ⟨hslots, hcode⟩
    simp only [Machine.denote, hstop]
    split_ifs
    · exact .ret pc (hagain.write effectSlot 3)
    · exact .next hagain
  | jump target => exact .ret target ⟨hslots, hflat⟩
  | jumpSlot src =>
    simp only [Machine.denote, hslots]
    exact .ret _ ⟨hslots, hflat⟩
  | label id => exact .next ⟨hslots, hflat⟩
  | goto id => exact .goto id ⟨hslots, hflat⟩
  | branch condition yes no =>
    simp only [Machine.denote, hslots]
    exact .goto _ ⟨hslots, hflat⟩
  | _ =>
    simp only [Machine.denote, hslots]
    exact .next (write ⟨hslots, hflat⟩ _ _)

end Machine.Unfiltered

/-! ## Runs -/

variable {ops : List Op} {program : Program}

/-- Where the operations are, with a filter and without one. -/
def SameCfg (right : W → MemoryFilter → Prop) (cfg cfg' : List Op × Machine W E) : Prop :=
  cfg'.1 = cfg.1 ∧ cfg.2.Unfiltered right cfg'.2

/-- What they return. -/
def SameValue (right : W → MemoryFilter → Prop) (result result' : BitVec 64 × Machine W E) : Prop :=
  result'.1 = result.1 ∧ result.2.Unfiltered right result'.2

/-- The operations go the same way with a filter and without one. -/
lemma liftRel_nextCfg (hkeeps : KeepsRight setup right) (hsites : setup.quietSites = false)
    (cfg cfg' : List Op × Machine W E)
    (x : (List Op × Machine W E) ⊕ (BitVec 64 × Machine W E)) (h : SameCfg right cfg cfg')
    (hnext : nextCfg setup ops cfg = some x) :
    ∃ y, nextCfg setup ops cfg' = some y ∧
      Sum.LiftRel (SameCfg right) (SameValue right) x y := by
  obtain ⟨rest, machine⟩ := cfg
  obtain ⟨rest', machine'⟩ := cfg'
  obtain ⟨hrest, hmachine⟩ := h
  obtain rfl : rest' = rest := hrest
  cases rest' with
  | nil => simp [nextCfg] at hnext
  | cons op rest =>
    have hexit := hmachine.denote hkeeps hsites op
    simp only [nextCfg] at hnext ⊢
    generalize machine.denote setup op = exit at hexit hnext
    generalize machine'.denote setup op = exit' at hexit ⊢
    cases hexit with
    | next hagain =>
      obtain rfl := Option.some.inj hnext
      exact ⟨_, rfl, .inl ⟨rfl, hagain⟩⟩
    | goto id hagain =>
      obtain ⟨target, htarget, rfl⟩ := Option.map_eq_some_iff.mp hnext
      simp only [htarget, Option.map_some]
      exact ⟨_, rfl, .inl ⟨rfl, hagain⟩⟩
    | ret value hagain =>
      obtain rfl := Option.some.inj hnext
      exact ⟨_, rfl, .inr ⟨rfl, hagain⟩⟩

/-- What two runs give back is the same, but for the order of the cells. -/
inductive SameResult : Except E RunResult → Except E RunResult → Prop
  | error (error : E) : SameResult (.error error) (.error error)
  | ok {result result' : RunResult} (next : result'.next = result.next)
      (state : result'.state = result.state)
      (cells : (result'.addresses.zip result'.values).Perm (result.addresses.zip result.values)) :
      SameResult (.ok result) (.ok result')

/-- What two runs leave is the same. -/
structure SameAfter (after after' : After W E) : Prop where
  world : after'.world = after.world
  byteAt : after'.pages.byteAt = after.pages.byteAt
  result : SameResult after.result after'.result

variable {count : ℕ} {start : PagedMemory} {after after' : After W E}
  {result result' : BitVec 64 × Machine W E}

/-- Runs that return the same leave the same. -/
lemma Leaves.sameAfter (h : Leaves count start after result)
    (h' : Leaves count start after' result') (hsame : SameValue right result result') :
    SameAfter after after' := by
  obtain ⟨hnext, hslots, -, ran, hflat⟩ := hsame
  have hfields : result'.2.flat.world = result.2.flat.world ∧
      result'.2.flat.memory = result.2.flat.memory ∧
      result'.2.flat.stored = result.2.flat.stored ∧
      result'.2.flat.error = result.2.flat.error := by
    rw [hflat]
    exact ⟨rfl, rfl, rfl, rfl⟩
  obtain ⟨hworld, hmemory, hstored, herror⟩ := hfields
  refine ⟨by rw [h.world, h'.world, hworld], by rw [h.byteAt, h'.byteAt, hmemory], ?_⟩
  cases hfine : result.2.flat.error with
  | some error =>
    rw [h.failed error hfine, h'.failed error (herror.trans hfine)]
    exact .error error
  | none =>
    obtain ⟨cells, hcells, hnodup, hmem⟩ := h.returned hfine
    obtain ⟨cells', hcells', hnodup', hmem'⟩ := h'.returned (herror.trans hfine)
    rw [hcells, hcells']
    refine .ok hnext (by rw [hslots]) ?_
    simp only [← List.zip_of_prod rfl rfl]
    refine (List.perm_ext_iff_of_nodup hnodup'.of_map hnodup.of_map).mpr fun cell => ?_
    rw [hmem', hmem, hstored]

/-- **A run with a filter that is right is the run without one.** -/
theorem Compiled.filtered_run (h : Compiled ops program) (hkeeps : KeepsRight setup right)
    (hsites : setup.quietSites = false) (order : LogOrder) {world : W} {filter : MemoryFilter}
    (hright : right world filter) (state : List (BitVec 64)) {pages : PagedMemory}
    (hpages : pages.WellFormed) (fuel : ℕ) :
    Both (fun _ _ => True) SameAfter
      (runMemoryObject setup order program world (some filter) state pages fuel)
      (runMemoryObject setup order program world none state pages fuel) := by
  by_cases hstate : program.maxSlot ≤ state.length
  · have hwith := h.runMemoryObject_spec setup order world (some filter) hstate hpages fuel
    have hwithout := h.runMemoryObject_spec setup order world none hstate hpages fuel
    have hstart : SameCfg right
        (ops, (Machine.start world (some filter) state pages.byteAt : Machine W E))
        (ops, Machine.start world none state pages.byteAt) :=
      ⟨rfl, rfl, ⟨⟨filter, rfl, hright⟩, rfl⟩, false, rfl⟩
    -- the operations are defined with a filter, and so they are without one
    have hsame : Both (SameCfg right) (SameValue right)
        (run (nextCfg setup ops) fuel
          (ops, Machine.start world (some filter) state pages.byteAt))
        (run (nextCfg setup ops) fuel (ops, Machine.start world none state pages.byteAt)) := by
      obtain ⟨-, x, -, hx, -⟩ := hwith
      obtain ⟨y, hy, hrel⟩ := liftRel_run (liftRel_nextCfg hkeeps hsites) hstart hx
      exact ⟨x, y, hx, hy, hrel⟩
    refine ((hwith.comp hsame).comp hwithout.symm).mono (fun _ _ _ => trivial) ?_
    rintro after after' ⟨result', ⟨result, hleaves, hvalue⟩, hleaves'⟩
    exact hleaves.sameAfter hleaves' hvalue
  · have hfew := Nat.not_le.mp hstate
    rw [runMemoryObject, if_pos hfew, runMemoryObject, if_pos hfew]
    exact both_inr ⟨rfl, rfl, .error _⟩

/-- An observer that counts the accesses that don't lie within that page. -/
def outsideSetup : Setup ℕ String :=
  { countingSetup with
    observer := some fun world _ _ address size _ =>
      .leaving (if 0x2000 ≤ address.toNat ∧ address.toNat + size ≤ 0x3000 then world
        else world + 1) none }

lemma keepsRight_outsideSetup : KeepsRight outsideSetup fun _ filter => filter = pageFilter := by
  refine ⟨?_, ?_, ?_⟩
  · rintro observer ⟨⟩ world filter rfl memory write address size value ⟨range, hrange, hwithin, -⟩
    have hranges : pageFilter.ranges = [⟨0x2000, 0x2FFF, true, true⟩] := rfl
    obtain rfl : range = ⟨0x2000, 0x2FFF, true, true⟩ := by simpa [hranges] using hrange
    exact ⟨if_pos ⟨hwithin.first_le, hwithin.le_last⟩, rfl, rfl⟩
  · rintro observer ⟨⟩ world filter rfl memory write address size value
    rfl
  · rintro observer ⟨⟩ world filter rfl memory pc
    rfl

theorem filtered_run_outsideSetup :
    Both (fun _ _ => True) SameAfter
      (runMemoryObject outsideSetup keptOrder (programOf storeOps) 0 (some pageFilter)
        [3, 0x1FFE, 0x0807060504030201, 0] Memory.empty.state 18)
      (runMemoryObject outsideSetup keptOrder (programOf storeOps) 0 none
        [3, 0x1FFE, 0x0807060504030201, 0] Memory.empty.state 18) :=
  (compiled_of_compile (show compile (fun _ => "") storeOps = .ok (programOf storeOps) from
    rfl)).filtered_run keepsRight_outsideSetup rfl keptOrder rfl _ Memory.empty.wf 18

end BapNative.Jit
