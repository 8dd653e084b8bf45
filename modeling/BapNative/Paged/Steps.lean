import BapNative.Lib.SortUnique
import BapNative.Paged.Words

/-!
# Steps

What is written from `beginStep` on is remembered, by where it is and not what it was, so
that a step that fails can be taken back.  Too much to remember is an overflow, after which
nothing is known of the step.

The relation `Logs` says what an operation owes to an open step: as long as there is no
overflow, every address whose byte the operation changes is noted, and nothing that was
noted is forgotten.  It is a preorder, so that a loop has it when its body does.
-/

namespace BapNative

open Overwrite SortUnique

namespace PagedMemory

/-- `beginStep`.  The vector is emptied whether or not it gives its memory back. -/
def beginStep (m : PagedMemory) : PagedMemory :=
  { m with stepWrites := [], stepOverflowed := false, stepOpen := true }

/-- `endStep`. -/
def endStep (m : PagedMemory) : PagedMemory :=
  { m with stepOpen := false, stepWrites := [], stepOverflowed := false }

/-- `stepActive`. -/
def stepActive (m : PagedMemory) : Bool := m.stepOpen

/-- `noteStep`: remembers a write, or that there were too many. -/
def noteStep (m : PagedMemory) (address : Address) (size : ℕ) : PagedMemory :=
  if !m.stepActive then m
  else if m.stepOverflowed then m
  else if stepLimit ≤ m.stepWrites.length then
    { m with stepOverflowed := true, stepWrites := [] }
  else { m with stepWrites := m.stepWrites ++ [(address, BitVec.ofNat 8 size)] }

/-- The addresses of the writes that are remembered. -/
def noted (m : PagedMemory) : List Address :=
  m.stepWrites.flatMap fun write =>
    (List.range write.2.toNat).map fun index => write.1 + BitVec.ofNat 64 index

/-- `stepAddresses`: whether what was written is known, and the vector with each address of it,
once and in order. -/
def stepAddresses (m : PagedMemory) (addresses : List Address) : Bool × List Address :=
  if m.stepOverflowed || !m.stepOpen then (false, addresses)
  else (true, sortUnique (addresses ++ m.noted))

/-! ## What a step leaves alone -/

/-- `m'` is `m` but for what its step knows. -/
def OnlyStep (m m' : PagedMemory) : Prop :=
  m' = { m with
    stepOpen := m'.stepOpen, stepWrites := m'.stepWrites, stepOverflowed := m'.stepOverflowed }

lemma OnlyStep.wf {m m' : PagedMemory} (h : OnlyStep m m') (hwf : m.WellFormed) :
    m'.WellFormed := by
  rw [h]
  exact ⟨hwf.tree, hwf.node_lt, hwf.page_taken, hwf.unused_taken, hwf.unused_nodup,
    hwf.unused_zero, hwf.rest_zero, hwf.chunkUsed_le, hwf.no_chunk⟩

lemma OnlyStep.byteAt {m m' : PagedMemory} (h : OnlyStep m m') : m'.byteAt = m.byteAt := by
  rw [h]
  rfl

lemma OnlyStep.keepsPages {m m' : PagedMemory} (h : OnlyStep m m') : KeepsPages m m' := by
  rw [h]
  exact KeepsPages.refl m

lemma onlyStep_beginStep (m : PagedMemory) : OnlyStep m m.beginStep := rfl

lemma onlyStep_endStep (m : PagedMemory) : OnlyStep m m.endStep := rfl

lemma onlyStep_noteStep (m : PagedMemory) (a : Address) (size : ℕ) :
    OnlyStep m (m.noteStep a size) := by
  unfold noteStep
  split_ifs <;> rfl

/-! ## What an open step knows -/

lemma mem_noted {m : PagedMemory} {a : Address} :
    a ∈ m.noted ↔ ∃ write ∈ m.stepWrites, ∃ i < write.2.toNat, write.1 + BitVec.ofNat 64 i = a := by
  simp [noted]

/-- What an operation owes to an open step. -/
structure Logs (m m' : PagedMemory) : Prop where
  stepOpen : m'.stepOpen = m.stepOpen
  overflowed : m'.stepOverflowed = false → m.stepOverflowed = false
  keeps : m'.stepOverflowed = false → ∀ a ∈ m.noted, a ∈ m'.noted
  notes : m.stepOpen = true → m'.stepOverflowed = false →
    ∀ a, m'.byteAt a ≠ m.byteAt a → a ∈ m'.noted

lemma Logs.refl (m : PagedMemory) : Logs m m :=
  ⟨rfl, id, fun _ _ => id, fun _ _ _ h => absurd rfl h⟩

lemma Logs.trans {m m' m'' : PagedMemory} (h : Logs m m') (h' : Logs m' m'') : Logs m m'' := by
  refine ⟨h'.stepOpen.trans h.stepOpen, fun ho => h.overflowed (h'.overflowed ho),
    fun ho a ha => h'.keeps ho a (h.keeps (h'.overflowed ho) a ha), fun hopen ho a ha => ?_⟩
  by_cases hm : m''.byteAt a = m'.byteAt a
  · exact h'.keeps ho a (h.notes hopen (h'.overflowed ho) a (by rwa [← hm]))
  · exact h'.notes (h.stepOpen.trans hopen) ho a hm

/-- An operation that changes neither a byte nor the step. -/
lemma Logs.of_same {m m' : PagedMemory} (hbyte : m'.byteAt = m.byteAt)
    (hstep : m'.stepState = m.stepState) : Logs m m' := by
  obtain ⟨hopen, hwrites, hover⟩ := stepState_eq_iff.mp hstep
  refine ⟨hopen, fun h => by rwa [← hover], fun _ a ha => ?_, fun _ _ a ha => ?_⟩
  · rwa [noted, hwrites]
  · exact absurd (congrFun hbyte a) ha

/-- Noting forgets nothing. -/
lemma logs_noteStep (m : PagedMemory) (a : Address) (size : ℕ) : Logs m (m.noteStep a size) := by
  have hbyte := (onlyStep_noteStep m a size).byteAt
  refine ⟨?_, ?_, ?_, fun _ _ b hb => absurd (congrFun hbyte b) hb⟩ <;> unfold noteStep
  · split_ifs <;> rfl
  · split_ifs with h1 h2 h3
    · exact id
    · exact id
    · intro h
      simp at h
    · exact id
  · split_ifs with h1 h2 h3
    · exact fun _ _ => id
    · exact fun _ _ => id
    · intro h
      simp at h
    · intro _ b hb
      obtain ⟨write, hwrite, hb⟩ := mem_noted.mp hb
      exact mem_noted.mpr ⟨write, by simp [hwrite], hb⟩

/-- What is noted of an open step is known, unless there is an overflow. -/
lemma mem_noted_noteStep {m : PagedMemory} {a : Address} {size : ℕ} (hopen : m.stepOpen = true)
    (hover : (m.noteStep a size).stepOverflowed = false) (hsize : size < 256) {i : ℕ}
    (hi : i < size) : a + BitVec.ofNat 64 i ∈ (m.noteStep a size).noted := by
  unfold noteStep at hover ⊢
  split_ifs at hover ⊢ with h1 h2 h3
  · simp [stepActive, hopen] at h1
  · exact absurd (hover.symm.trans h2) (by simp)
  · refine mem_noted.mpr ⟨(a, BitVec.ofNat 8 size), by simp, i, ?_, rfl⟩
    simp only [BitVec.toNat_ofNat]
    omega

/-- A write that is noted after it. -/
lemma Wrote.logs_noteStep {m m' : PagedMemory} {a : Address} {bytes : List Byte}
    (h : Wrote m (span a bytes) m') (hlen : bytes.length < 256) :
    Logs m (m'.noteStep a bytes.length) := by
  obtain ⟨hopen, hwrites, hover⟩ := stepState_eq_iff.mp h.stepState
  have hnote := PagedMemory.logs_noteStep m' a bytes.length
  have hnoted : m'.noted = m.noted := by rw [noted, noted, hwrites]
  refine ⟨hnote.stepOpen.trans hopen, fun ho => hover ▸ hnote.overflowed ho,
    fun ho b hb => hnote.keeps ho b (hnoted ▸ hb), fun hm ho b hb => ?_⟩
  rw [(onlyStep_noteStep m' a bytes.length).byteAt, h.byteAt] at hb
  have hmem : b ∈ (span a bytes).map Prod.fst := by
    by_contra hnot
    exact hb (writes_of_notMem _ hnot)
  obtain ⟨i, hi, rfl⟩ := mem_map_fst_span.mp hmem
  exact mem_noted_noteStep (hopen.trans hm) ho hlen hi

/-! ## How much an open step remembers -/

/-- `m'` has at most `count` notes more than `m`, if there is room for so many. -/
def Notes (count : ℕ) (m m' : PagedMemory) : Prop :=
  m.stepOverflowed = false → m.stepWrites.length + count ≤ stepLimit →
    m'.stepOverflowed = false ∧ m'.stepWrites.length ≤ m.stepWrites.length + count

lemma Notes.mono {count count' : ℕ} {m m' : PagedMemory} (h : Notes count m m')
    (hle : count ≤ count') : Notes count' m m' := by
  intro hover hroom
  obtain ⟨hover', hlength⟩ := h hover (by omega)
  exact ⟨hover', by omega⟩

lemma Notes.of_same {m m' : PagedMemory} (h : m'.stepState = m.stepState) : Notes 0 m m' := by
  obtain ⟨-, hwrites, hover⟩ := stepState_eq_iff.mp h
  exact fun hm _ => ⟨hover.trans hm, by rw [hwrites]; exact le_rfl⟩

lemma Notes.trans {count count' : ℕ} {m m' m'' : PagedMemory} (h : Notes count m m')
    (h' : Notes count' m' m'') : Notes (count + count') m m'' := by
  intro hover hroom
  obtain ⟨hover', hlength⟩ := h hover (by omega)
  obtain ⟨hover'', hlength'⟩ := h' hover' (by omega)
  exact ⟨hover'', by omega⟩

lemma notes_noteStep (m : PagedMemory) (a : Address) (size : ℕ) :
    Notes 1 m (m.noteStep a size) := by
  intro hover hroom
  unfold noteStep
  split_ifs with hclosed hover' hfull
  · exact ⟨hover, by omega⟩
  · exact ⟨hover, by omega⟩
  · omega
  · exact ⟨hover, by simp⟩

/-! ## Writing pairs -/

/-- The inner loop of `writeAll`: how many pairs go on from each other in one word, of which
there is `room` for so many. -/
def runLength (at_ : Address) (room : ℕ) : ℕ → List (Address × Byte) → ℕ
  | run, [] => run
  | run, cell :: cells =>
    if run ≠ room ∧ cell.1 = at_ + BitVec.ofNat 64 run then runLength at_ room (run + 1) cells
    else run

lemma le_runLength (at_ : Address) (room run : ℕ) (cells : List (Address × Byte)) :
    run ≤ runLength at_ room run cells := by
  induction cells generalizing run with
  | nil => exact le_refl _
  | cons cell cells ih =>
    rw [runLength]
    split_ifs
    · exact le_trans (Nat.le_succ run) (ih (run + 1))
    · exact le_refl _

/-- `writeAll`: pairs in order, with those that go on from each other in a word written
together. -/
def writeAll (m : PagedMemory) (cells : List (Address × Byte)) : PagedMemory :=
  match cells with
  | [] => m
  | (at_, value) :: rest =>
    let run := runLength at_ (wordSize - wordOffset at_) 1 rest
    let m := m.storeInWord at_ ((((at_, value) :: rest).take run).map Prod.snd)
    let m := m.noteStep at_ run
    m.writeAll (((at_, value) :: rest).drop run)
termination_by cells.length
decreasing_by
  have := le_runLength at_ (wordSize - wordOffset at_) 1 rest
  simp only [List.length_drop, List.length_cons]
  omega

lemma runLength_le {at_ : Address} {room run : ℕ} (h : run ≤ room)
    (cells : List (Address × Byte)) : runLength at_ room run cells ≤ room := by
  induction cells generalizing run with
  | nil => exact h
  | cons cell cells ih =>
    rw [runLength]
    split_ifs with hc
    · exact ih (by omega)
    · exact h

/-- The pairs of a run are cells that follow each other. -/
lemma take_runLength (at_ : Address) (room run : ℕ) (cells : List (Address × Byte)) :
    ∃ count, runLength at_ room run cells = run + count ∧ count ≤ cells.length ∧
      cells.take count =
        span (at_ + BitVec.ofNat 64 run) ((cells.take count).map Prod.snd) := by
  induction cells generalizing run with
  | nil => exact ⟨0, rfl, le_refl _, rfl⟩
  | cons cell cells ih =>
    rw [runLength]
    split_ifs with hc
    · obtain ⟨count, h1, h2, h3⟩ := ih (run + 1)
      refine ⟨count + 1, by omega, by simpa using h2, ?_⟩
      rw [List.take_succ_cons, List.map_cons, span_cons, ← hc.2]
      congr 1
      rw [hc.2, BitVec.add_assoc, ← BitVec.ofNat_add]
      exact h3
    · exact ⟨0, rfl, Nat.zero_le _, rfl⟩

/-- **`writeAll` writes its pairs, later over earlier, and an open step knows of them, with no
more notes than there are pairs.** -/
theorem WellFormed.writeAll_spec {m : PagedMemory} (h : m.WellFormed)
    (cells : List (Address × Byte)) :
    (m.writeAll cells).WellFormed ∧ (m.writeAll cells).byteAt = writes m.byteAt cells ∧
      Logs m (m.writeAll cells) ∧ KeepsPages m (m.writeAll cells) ∧
      Notes cells.length m (m.writeAll cells) := by
  induction hn : cells.length using Nat.strongRecOn generalizing m cells with
  | ind n ih =>
    match cells with
    | [] =>
      rw [writeAll]
      exact ⟨h, rfl, Logs.refl m, KeepsPages.refl m, (Notes.of_same rfl).mono (Nat.zero_le _)⟩
    | (at_, value) :: rest =>
      have hoffset : wordOffset at_ < 8 := by rw [wordOffset_eq]; omega
      have hroom : runLength at_ (wordSize - wordOffset at_) 1 rest ≤ wordSize - wordOffset at_ :=
        runLength_le (by simp only [wordSize]; omega) rest
      obtain ⟨count, hcount, hle, htake⟩ :=
        take_runLength at_ (wordSize - wordOffset at_) 1 rest
      rw [writeAll]
      simp only [hcount] at hroom ⊢
      -- the cells of the run are those of its values from the first address on
      have hspan : ((at_, value) :: rest).take (1 + count) =
          span at_ ((((at_, value) :: rest).take (1 + count)).map Prod.snd) := by
        rw [Nat.add_comm 1 count, List.take_succ_cons, List.map_cons, span_cons]
        exact congrArg _ htake
      have hlen : ((((at_, value) :: rest).take (1 + count)).map Prod.snd).length = 1 + count := by
        simp
        omega
      have hword := h.wrote_storeInWord (a := at_)
        ((((at_, value) :: rest).take (1 + count)).map Prod.snd)
        (by rw [hlen]; simp only [wordSize] at hroom; omega)
      have hlogs := hword.logs_noteStep (by rw [hlen]; simp only [wordSize] at hroom; omega)
      rw [hlen] at hlogs
      have honly := onlyStep_noteStep (m.storeInWord at_
        ((((at_, value) :: rest).take (1 + count)).map Prod.snd)) at_ (1 + count)
      obtain ⟨hwf, hbyte, hlogs', hkeeps, hnotes⟩ :=
        ih (((at_, value) :: rest).drop (1 + count)).length
          (by rw [← hn, List.length_drop, List.length_cons]; omega) (honly.wf hword.wf) _ rfl
      refine ⟨hwf, ?_, hlogs.trans hlogs', (hword.keeps.trans honly.keepsPages).trans hkeeps, ?_⟩
      · rw [hbyte, honly.byteAt, hword.byteAt, ← hspan, ← writes_append, List.take_append_drop]
      · -- one note for a run, in which there is a pair at least
        refine (((Notes.of_same hword.stepState).trans (notes_noteStep _ at_ (1 + count))).trans
          hnotes).mono ?_
        rw [← hn, List.length_drop, List.length_cons]
        omega

/-! ## What is known of a step -/

/-- A step is known if it began and there were not too many notes. -/
lemma stepAddresses_isKnown (m : PagedMemory) (known : List Address) :
    (m.stepAddresses known).1 = true ↔ m.stepOpen = true ∧ m.stepOverflowed = false := by
  unfold stepAddresses
  cases m.stepOpen <;> cases m.stepOverflowed <;> simp

/-- **When `stepAddresses` knows of a step, it lists addresses in ascending order, each once,
and among them every one whose byte is not what it was when the step began.** -/
theorem stepAddresses_spec {m m' : PagedMemory} (hlogs : Logs m.beginStep m')
    {known addresses : List Address} (hknown : m'.stepAddresses known = (true, addresses)) :
    addresses.Pairwise (· < ·) ∧ ∀ a, m'.byteAt a ≠ m.byteAt a → a ∈ addresses := by
  unfold stepAddresses at hknown
  split_ifs at hknown with hover
  · simp at hknown
  · obtain rfl : sortUnique (known ++ m'.noted) = addresses := by simpa using hknown
    refine ⟨pairwise_sortUnique _, fun a ha => ?_⟩
    simp only [Bool.or_eq_true, Bool.not_eq_true', not_or, Bool.not_eq_true] at hover
    rw [mem_sortUnique, List.mem_append]
    refine Or.inr (hlogs.notes rfl hover.1 a ?_)
    rwa [(onlyStep_beginStep m).byteAt]

end PagedMemory

end BapNative
