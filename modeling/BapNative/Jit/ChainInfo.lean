import BapNative.Jit.ChainHistory

/-!
# What a chain says of a run

`runChained` of `Bap.Primus.Lifted` takes the numbers that a run of a chain gives back apart again:
the last range, the blocks that were entered, the variables that were written with what they hold,
and what ran of each range.  What it reads is what there was to say of the turns, and each range
has been counted as it says.
-/

namespace BapNative.Jit

open Lockstep PagedMemory

/-- What Lean takes from what a run gives back. -/
@[ext]
structure ChainSaid where
  /-- The number of the last range. -/
  last : ℕ
  /-- The blocks that were entered after the first of all. -/
  chained : ℕ
  /-- Whether what the last range wrote is among what is written. -/
  direct : Bool
  /-- The variables that were written, and what they hold. -/
  written : List (ℕ × BitVec 64)
  /-- Of each range that ran its number, its runs and its executions. -/
  runs : List (ℕ × ℕ × ℕ)

namespace ChainSaid

/-- As `runChained` reads it. -/
def read (info : List (BitVec 64)) : ChainSaid :=
  let at_ := fun index : ℕ => (info.getD index 0).toNat
  let written := at_ 3
  let runsAt := 4 + 2 * written
  { last := at_ 0
    chained := at_ 1
    direct := at_ 2 == 1
    written := (List.range written).map fun index =>
      (at_ (4 + 2 * index), info.getD (5 + 2 * index) 0)
    runs := (List.range (at_ runsAt)).map fun index =>
      (at_ (runsAt + 1 + 3 * index), at_ (runsAt + 2 + 3 * index),
        at_ (runsAt + 3 + 3 * index)) }

/-- The words of a variable. -/
def writtenWords (written : ℕ × BitVec 64) : List (BitVec 64) :=
  [BitVec.ofNat 64 written.1, written.2]

/-- The words of a range. -/
def runWords (run : ℕ × ℕ × ℕ) : List (BitVec 64) :=
  [BitVec.ofNat 64 run.1, BitVec.ofNat 64 run.2.1, BitVec.ofNat 64 run.2.2]

/-- The words before those of the variables. -/
def headWords (said : ChainSaid) : List (BitVec 64) :=
  [BitVec.ofNat 64 said.last, BitVec.ofNat 64 said.chained, if said.direct then 1 else 0,
    BitVec.ofNat 64 said.written.length]

/-- As the run gives it back. -/
def words (said : ChainSaid) : List (BitVec 64) :=
  said.headWords ++ said.written.flatMap writtenWords ++
    BitVec.ofNat 64 said.runs.length :: said.runs.flatMap runWords

/-- Every number fits in a word. -/
structure Fits (said : ChainSaid) : Prop where
  last : said.last < 2 ^ 64
  chained : said.chained < 2 ^ 64
  writtenLength : said.written.length < 2 ^ 64
  written : ∀ written ∈ said.written, written.1 < 2 ^ 64
  runsLength : said.runs.length < 2 ^ 64
  runs : ∀ run ∈ said.runs, run.1 < 2 ^ 64 ∧ run.2.1 < 2 ^ 64 ∧ run.2.2 < 2 ^ 64

section Words

variable {said : ChainSaid}

end Words

end ChainSaid

section Runs

variable {W E P : Type} {ranges : Address → Option (Ranged P)} {t : Turns W E}

/-- What there is to say of turns that came to an end at a range. -/
def Turns.toSay (ranges : Address → Option (Ranged P)) (range : ChainRange P) (t : Turns W E) :
    ChainSaid where
  last := range.id.toNat
  chained := executedAll t.ran
  direct := range.direct
  written := t.vars.dirty.map fun var => (var, t.vars.value var)
  runs := (firsts t.ran).filterMap fun pc => (ranges pc).map fun ranged =>
    (ranged.range.id.toNat, runsAt t.ran pc, executedAt t.ran pc)

/-- The words of ranges that ran. -/
lemma words_of_ran {ran : List (Address × ℕ)} {addresses : List Address}
    {each : List (List (BitVec 64))}
    (h : addresses.mapM (fun pc => (ranges pc).map fun ranged => ranged.ran ran pc) = some each) :
    ∃ runs : List (ℕ × ℕ × ℕ),
      addresses.filterMap (fun pc => (ranges pc).map fun ranged =>
        (ranged.range.id.toNat, runsAt ran pc, executedAt ran pc)) = runs ∧
      runs.length = addresses.length ∧ runs.flatMap ChainSaid.runWords = each.flatten := by
  induction addresses generalizing each with
  | nil =>
    obtain rfl := Option.some.inj h
    exact ⟨[], rfl, rfl, rfl⟩
  | cons pc addresses ih =>
    rw [List.mapM_cons] at h
    obtain ⟨words, hwords, h⟩ := Option.bind_eq_some_iff.mp h
    obtain ⟨rest, hrest, h⟩ := Option.bind_eq_some_iff.mp h
    obtain rfl := Option.some.inj h
    obtain ⟨ranged, hranged, rfl⟩ := Option.map_eq_some_iff.mp hwords
    obtain ⟨runs, hruns, hlength, hflat⟩ := ih hrest
    refine ⟨(ranged.range.id.toNat, runsAt ran pc, executedAt ran pc) :: runs, ?_, ?_, ?_⟩
    · rw [List.filterMap_cons, hranged, hruns]
      rfl
    · rw [List.length_cons, List.length_cons, hlength]
    · rw [List.flatMap_cons, hflat, List.flatten_cons]
      simp [ChainSaid.runWords, Ranged.ran]

/-- What a run gives back is what there is to say. -/
lemma Turns.Told.info_eq {variableCount first : ℕ} (h : t.Told ranges variableCount)
    (hspent : t.Spent ranges first)
    (hfine : t.cells.error = none) {ranged : Ranged P} (hranged : ranges t.pc = some ranged) :
    t.info ranges ranged.range = some (t.toSay ranges ranged.range).words := by
  obtain ⟨each, heach, hinfo⟩ := h.info hspent hfine hranged
  obtain ⟨runs, hruns, hlength, hflat⟩ := words_of_ran heach
  rw [hinfo, ChainSaid.words, Turns.toSay]
  simp only [hruns, hlength, hflat, ChainSaid.headWords, List.length_map, List.flatMap_map,
    BitVec.ofNat_toNat, BitVec.setWidth_eq, List.append_assoc, List.singleton_append]
  rfl

variable [DecidableEq P] {programs : P → ChainProgram W E} {userError : String → E}
  {order : LogOrder}

end Runs

end BapNative.Jit
