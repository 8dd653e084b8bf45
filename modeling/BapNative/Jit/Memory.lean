import BapNative.Paged.Run

/-!
# The memory that Lean has

The functions of `native/bap_jit.cpp` through which Lean has a memory, under the names that
`Bap/Jit.lean` gives them, and what that file lists as their obligations: a memory is a
total map that is zero where nothing was written, `dumpMemory` has a cell for each address
that isn't zero by ascending address, a clone has the same contents, `memoryStepWrites` has
every address that was written since the step began.

Lean has arrays of addresses and of bytes, which are lists here.  What the source says when
the host has no memory to give is left out.
-/

namespace BapNative.Jit

open Block Overwrite PagedMemory

/-! ## The functions -/

/-- `bap_jit_memory_write`: writes each byte at its address, in order. -/
def writeMemory (memory : Memory) (addresses : List Address) (values : List Byte) :
    Except String Memory :=
  if addresses.length ≠ values.length then
    .error "JIT memory addresses and values have different lengths"
  else .ok ⟨memory.state.writeAll (addresses.zip values), (memory.wf.writeAll_spec _).1⟩

/-- `bap_jit_memory_create`: a memory with these bytes at these addresses. -/
def createMemory (addresses : List Address) (values : List Byte) : Except String Memory :=
  writeMemory Memory.empty addresses values

/-- The loop of `bap_jit_memory_create_chunks`. -/
def fillChunks (memory : Memory) (chunks : List (Address × List Byte)) : Memory :=
  chunks.foldl (fun memory chunk =>
    ⟨memory.state.fill chunk.1 chunk.2, memory.wf.wf_fill chunk.1 chunk.2⟩) memory

/-- `bap_jit_memory_create_chunks`: a memory with each chunk at its base. -/
def createMemoryChunks (bases : List Address) (chunks : List (List Byte)) : Except String Memory :=
  if bases.length ≠ chunks.length then
    .error "JIT memory bases and chunks have different lengths"
  else .ok (fillChunks Memory.empty (bases.zip chunks))

/-- `bap_jit_memory_zero`. -/
def zeroMemory (memory : Memory) (first last : Address) : Memory :=
  ⟨memory.state.zeroRange first last, (memory.wf.zeroed_zeroRange first last).wf⟩

/-- `bap_jit_memory_trim`. -/
def trimMemory (host : Host) (memory : Memory) (first last : Address) : Memory :=
  ⟨memory.state.trim host first last, by rw [trim_eq]; exact memory.wf⟩

/-- `bap_jit_memory_clone`: a memory of its own with what this one has. -/
def cloneMemory (memory : Memory) : Memory :=
  ⟨PagedMemory.empty.copyFrom memory.state, (wellFormed_empty.copyFrom_spec memory.state).1⟩

/-- `bap_jit_memory_read`. -/
def readMemory (memory : Memory) (address : Address) : Byte := memory.state.read address

/-- `bap_jit_memory_read_range`.  A size that isn't a scalar of Lean is too large. -/
def readMemoryRange (memory : Memory) (address : Address) (size : ℕ) : Except String (List Byte) :=
  if 2 ^ 63 ≤ size then .error "JIT memory read too large"
  else .ok (memory.state.readRange address size)

/-- `bap_jit_memory_matches`: whether the bytes from an address are these. -/
def memoryMatches (memory : Memory) (address : Address) (bytes : List Byte) : Bool :=
  memory.state.readRange address bytes.length == bytes

/-- `bap_jit_memory_step_begin`. -/
def beginMemoryStep (memory : Memory) : Memory :=
  ⟨memory.state.beginStep, (onlyStep_beginStep memory.state).wf memory.wf⟩

/-- `bap_jit_memory_step_end`. -/
def endMemoryStep (memory : Memory) : Memory :=
  ⟨memory.state.endStep, (onlyStep_endStep memory.state).wf memory.wf⟩

/-- `bap_jit_memory_step_writes`: what was written since the step began, if that is known. -/
def memoryStepWrites (memory : Memory) : Option (List Address) :=
  match memory.state.stepAddresses [] with
  | (true, addresses) => some addresses
  | (false, _) => none

/-- The cells of a word, of which `bap_jit_memory_dump` takes those that aren't zero. -/
def wordCells (at_ : Address) (word : BitVec 64) : List (Address × Byte) :=
  if word = 0 then [] else (span at_ (toBytes wordSize word)).filter fun cell => cell.2 != 0

/-- What `bap_jit_memory_dump` does with a page. -/
def dumpPage (m : PagedMemory) (address : Address) (page : HostPtr)
    (cells : List (Address × Byte)) : List (Address × Byte) :=
  wordOffsets.foldl (fun cells offset =>
    cells ++ wordCells (address + BitVec.ofNat 64 offset) (m.atomicLoad (page.plus offset))) cells

/-- The cells that `bap_jit_memory_dump` collects. -/
def dumpCells (memory : Memory) : List (Address × Byte) :=
  forEachPage (fun _ => memory.state.entry) (dumpPage memory.state) []

/-- `bap_jit_memory_dump`: what isn't zero of a memory, as its cells by address. -/
def dumpMemory (memory : Memory) : List Address × List Byte :=
  ((dumpCells memory).map Prod.fst, (dumpCells memory).map Prod.snd)

/-- What `bap_jit_memory_size` does with a page. -/
def countPage (m : PagedMemory) (_address : Address) (page : HostPtr) (total : ℕ) : ℕ :=
  (List.range pageSize).foldl (fun total offset =>
    if m.bytes (page.plus offset) != 0 then total + 1 else total) total

/-- `bap_jit_memory_size`: how many bytes of a memory aren't zero. -/
def memorySize (memory : Memory) : ℕ :=
  forEachPage (fun _ => memory.state.entry) (countPage memory.state) 0

/-- Whether bytes are all zeros, as the source of the byte arrays finds it. -/
def allZero (bytes : List Byte) : Bool := bytes.length == 0 || PagedMemory.allZero bytes

/-- What `bap_jit_memory_region_bytes` leaves in its zeros for what is in one page. -/
def regionPage (m : PagedMemory) (at_ : Address) (count : ℕ) : List Byte :=
  match m.find at_ with
  | none => List.replicate count 0
  | some page =>
    let from_ := peek m.bytes (page.plus (pageOffset at_)) count
    if !allZero from_ then from_ else List.replicate count 0

/-- The loop of `bap_jit_memory_region_bytes`. -/
def regionFrom (m : PagedMemory) (at_ : Address) (size : ℕ) : List Byte :=
  if size = 0 then []
  else
    let count := pageCount at_ size
    regionPage m at_ count ++ regionFrom m (at_ + BitVec.ofNat 64 count) (size - count)
termination_by size
decreasing_by
  have := pageCount_pos at_ ‹_›
  omega

/-- `bap_jit_memory_region_bytes`: the bytes of a range.  A size is what fits `size_t` of it. -/
def regionBytes (memory : Memory) (address : Address) (size : ℕ) : List Byte :=
  regionFrom memory.state address (size % 2 ^ 64)

/-! ## What a memory reads as -/

lemma readMemory_eq (memory : Memory) (a : Address) :
    readMemory memory a = memory.state.byteAt a := memory.state.read_eq a

/-- **`writeMemory` writes its pairs in order, when there are as many bytes as addresses.** -/
theorem writeMemory_spec {memory memory' : Memory} {addresses : List Address} {bytes : List Byte}
    (h : writeMemory memory addresses bytes = .ok memory') :
    addresses.length = bytes.length ∧
      memory'.state.byteAt = writes memory.state.byteAt (addresses.zip bytes) ∧
      Logs memory.state memory'.state := by
  unfold writeMemory at h
  split_ifs at h with hlen
  obtain rfl := Except.ok.inj h
  have hspec := memory.wf.writeAll_spec (addresses.zip bytes)
  exact ⟨not_not.mp hlen, hspec.2.1, hspec.2.2.1⟩

/-- The cells that two arrays stand for. -/
lemma zip_map_fst_snd (cells : List (Address × Byte)) :
    (cells.map Prod.fst).zip (cells.map Prod.snd) = cells := by
  have hunzip := List.zip_unzip cells
  rwa [List.unzip_eq_map] at hunzip

lemma writeMemory_ok (memory : Memory) (addresses : List Address) (bytes : List Byte)
    (h : addresses.length = bytes.length) :
    ∃ memory', writeMemory memory addresses bytes = .ok memory' :=
  ⟨_, if_neg (not_not.mpr h)⟩

/-- **A clone reads as what it is a clone of.** -/
theorem readMemory_cloneMemory (memory : Memory) :
    readMemory (cloneMemory memory) = readMemory memory := by
  funext a
  rw [readMemory_eq, readMemory_eq, cloneMemory, wellFormed_empty.byteAt_copyFrom byteAt_empty]

/-- **`trimMemory` changes nothing.** -/
theorem trimMemory_eq (host : Host) (memory : Memory) (first last : Address) :
    trimMemory host memory first last = memory := by
  unfold trimMemory
  simp only [trim_eq]

/-- **`zeroMemory` reads as zeros from the first address to the last, and as before elsewhere.** -/
theorem readMemory_zeroMemory (memory : Memory) (first last a : Address) :
    readMemory (zeroMemory memory first last) a =
      if first ≤ a ∧ a ≤ last then 0 else readMemory memory a := by
  have hzero := (memory.wf.zeroed_zeroRange first last).zeros
  rw [readMemory_eq, readMemory_eq]
  split_ifs with ha
  · exact hzero.on a ha
  · exact hzero.off a ha

/-- **`memoryMatches` says whether the bytes from an address are these.** -/
theorem memoryMatches_iff {memory : Memory} {a : Address} {bytes : List Byte} :
    memoryMatches memory a bytes = true ↔
      ∀ i (hi : i < bytes.length), readMemory memory (a + BitVec.ofNat 64 i) = bytes[i] := by
  rw [memoryMatches, beq_iff_eq, readRange, load_eq, values]
  constructor
  · intro h i hi
    have hget := List.getElem_of_eq h (by simpa using hi)
    rw [List.getElem_map, List.getElem_range] at hget
    rw [readMemory_eq, hget]
  · intro h
    apply List.ext_getElem (by simp)
    intro i h1 h2
    rw [List.getElem_map, List.getElem_range, ← h i h2, readMemory_eq]

/-- What a chunk at a base has of an address space, which ends. -/
def chunkCells (chunk : Address × List Byte) : List (Address × Byte) :=
  span chunk.1 (chunk.2.take (2 ^ 64 - chunk.1.toNat))

lemma byteAt_fillChunks (memory : Memory) {chunks : List (Address × List Byte)}
    (hsize : ∀ chunk ∈ chunks, chunk.2.length ≤ 2 ^ 64) :
    (fillChunks memory chunks).state.byteAt =
      writes memory.state.byteAt (chunks.flatMap chunkCells) := by
  induction chunks generalizing memory with
  | nil => rfl
  | cons chunk chunks ih =>
    have hfill := memory.wf.wrote_fill chunk.1 chunk.2 (hsize chunk List.mem_cons_self)
    rw [List.flatMap_cons, writes_append]
    refine (ih _ fun chunk' hchunk' => hsize chunk' (List.mem_cons_of_mem _ hchunk')).trans ?_
    rw [hfill.byteAt]
    rfl

/-- **`createMemoryChunks` is `createMemory` of each byte of each chunk at its base plus its
offset, in order, without going past the end of the address space.** -/
theorem createMemoryChunks_eq {bases : List Address} {chunks : List (List Byte)} {memory : Memory}
    (h : createMemoryChunks bases chunks = .ok memory)
    (hsize : ∀ chunk ∈ chunks, chunk.length ≤ 2 ^ 64) :
    ∃ memory', createMemory (((bases.zip chunks).flatMap chunkCells).map Prod.fst)
        (((bases.zip chunks).flatMap chunkCells).map Prod.snd) = .ok memory' ∧
      readMemory memory' = readMemory memory := by
  unfold createMemoryChunks at h
  split_ifs at h with hlen
  obtain rfl := Except.ok.inj h
  have hfill := byteAt_fillChunks Memory.empty fun chunk (hchunk : chunk ∈ bases.zip chunks) =>
    hsize chunk.2 (List.of_mem_zip hchunk).2
  obtain ⟨memory', hcreate⟩ := writeMemory_ok Memory.empty
    (((bases.zip chunks).flatMap chunkCells).map Prod.fst)
    (((bases.zip chunks).flatMap chunkCells).map Prod.snd) (by simp)
  refine ⟨memory', hcreate, ?_⟩
  obtain ⟨-, hbytes, -⟩ := writeMemory_spec hcreate
  funext a
  rw [readMemory_eq, readMemory_eq, hbytes, hfill, zip_map_fst_snd]

theorem createMemoryChunks_eq_pastEnd :
    ∃ memory memory', createMemoryChunks [0xFFE, 0xFFFFFFFFFFFFFFFF] [[1, 2, 3], [4, 5]] =
        .ok memory ∧
      createMemory [0xFFE, 0xFFF, 0x1000, 0xFFFFFFFFFFFFFFFF] [1, 2, 3, 4] = .ok memory' ∧
      readMemory memory' = readMemory memory := by
  have hok : (createMemoryChunks [0xFFE, 0xFFFFFFFFFFFFFFFF]
      [[1, 2, 3], [4, 5]]).toOption.isSome = true := by
    decide +kernel
  cases hmemory : createMemoryChunks [0xFFE, 0xFFFFFFFFFFFFFFFF] [[1, 2, 3], [4, 5]] with
  | error message =>
    rw [hmemory] at hok
    simp [Except.toOption] at hok
  | ok memory =>
    obtain ⟨memory', hcreate, hread⟩ := createMemoryChunks_eq hmemory (by simp)
    exact ⟨memory, memory', rfl, hcreate, hread⟩

/-! ## What a dump has -/

/-- A word that is zero has no cell to take, so that it may be passed over. -/
lemma wordCells_eq (at_ : Address) (word : BitVec 64) :
    wordCells at_ word = (span at_ (toBytes 8 word)).filter fun cell => cell.2 != 0 := by
  unfold wordCells
  split_ifs with hzero
  · rw [hzero, show (0 : BitVec 64) = 0#64 from rfl, toBytes_zero, eq_comm, List.filter_eq_nil_iff]
    intro cell hcell
    have hval : cell.2 ∈ (span at_ (List.replicate 8 (0 : Byte))).map Prod.snd :=
      List.mem_map_of_mem hcell
    rw [map_snd_span] at hval
    simp [List.eq_of_mem_replicate hval]
  · rfl

/-- The cells of a page, word by word. -/
lemma foldl_wordCells (m : PagedMemory) (address : Address) (page : HostPtr)
    (cells : List (Address × Byte)) (words : ℕ) :
    (offsets words).foldl (fun cells offset => cells ++
        wordCells (address + BitVec.ofNat 64 offset) (m.atomicLoad (page.plus offset))) cells =
      cells ++ (span address (peek m.bytes page (8 * words))).filter fun cell => cell.2 != 0 := by
  induction words with
  | zero => simp [offsets, peek]
  | succ words ih =>
    rw [offsets, List.range_succ, List.map_append, List.foldl_append, ← offsets, ih, Nat.mul_succ,
      peek_add, span_append, List.filter_append, length_peek, ← List.append_assoc]
    simp only [List.map_cons, List.map_nil, List.foldl_cons, List.foldl_nil, wordSize]
    rw [wordCells_eq, toBytes_atomicLoad]

/-- The cells of the pages there are, as addresses of each and what they hold. -/
lemma dumpCells_eq (memory : Memory) :
    dumpCells memory = memory.state.pages.flatMap fun page =>
      ((List.range 4096).map fun i => (page.1 + BitVec.ofNat 64 i,
        memory.state.byteAt (page.1 + BitVec.ofNat 64 i))).filter fun cell => cell.2 != 0 := by
  have hfold : dumpCells memory = memory.state.pages.foldl (fun cells page =>
      dumpPage memory.state page.1 page.2 cells) [] :=
    @forEachPage_eq_foldl _ (fun _ => memory.state.entry) (dumpPage memory.state)
      (fun _ _ _ => rfl) []
  have hpage : ∀ (page : Address × HostPtr) cells,
      dumpPage memory.state page.1 page.2 cells = cells ++
      (span page.1 (peek memory.state.bytes page.2 4096)).filter fun cell => cell.2 != 0 := by
    intro page cells
    rw [dumpPage, wordOffsets_eq]
    exact foldl_wordCells memory.state page.1 page.2 cells 512
  simp only [hfold, hpage]
  rw [← List.flatMap_eq_foldl]
  apply List.flatMap_congr
  intro page hmem
  obtain ⟨hbase, hfind⟩ := mem_pages.mp hmem
  have hvalues := values_of_find hfind 4096 (by omega)
  rw [hbase, Place.plus_zero] at hvalues
  rw [← hvalues, span_values]

/-- **A dump has a cell for each address that isn't zero, and no other.** -/
theorem mem_dumpCells {memory : Memory} {a : Address} {v : Byte} :
    (a, v) ∈ dumpCells memory ↔ v ≠ 0 ∧ readMemory memory a = v := by
  rw [dumpCells_eq, List.mem_flatMap, readMemory_eq]
  constructor
  · rintro ⟨page, -, hcell⟩
    rw [List.mem_filter, List.mem_map] at hcell
    obtain ⟨⟨i, -, hi⟩, hne⟩ := hcell
    obtain ⟨rfl, rfl⟩ := Prod.mk.inj hi
    exact ⟨by simpa using hne, rfl⟩
  · rintro ⟨hne, rfl⟩
    cases hfind : memory.state.find a with
    | none => exact absurd (byteAt_of_find_none hfind) hne
    | some page =>
      have hbase := toNat_pageBase a
      have hlt := a.isLt
      have ha : pageBase a + BitVec.ofNat 64 (a.toNat % 4096) = a := by
        apply BitVec.eq_of_toNat_eq
        rw [toNat_add_ofNat (by omega)]
        omega
      refine ⟨(pageBase a, page), pageBase_mem_pages hfind, ?_⟩
      rw [List.mem_filter, List.mem_map]
      refine ⟨⟨a.toNat % 4096, List.mem_range.mpr (by omega), ?_⟩, by simpa using hne⟩
      simp only [ha]

/-- **The cells of a dump come by ascending address, with no address twice.** -/
theorem pairwise_dumpMemory (memory : Memory) :
    (dumpMemory memory).1.Pairwise (· < ·) := by
  rw [dumpMemory, List.pairwise_map, dumpCells_eq, List.pairwise_flatMap]
  have hnat : ∀ page ∈ memory.state.pages, ∀ i < 4096,
      (page.1 + BitVec.ofNat 64 i).toNat = page.1.toNat + i := by
    intro page hpage i hi
    have hbase := (mem_pages.mp hpage).1
    have hlt := page.1.isLt
    exact toNat_add_ofNat (by omega)
  constructor
  · intro page hpage
    refine List.Pairwise.filter _ ?_
    rw [List.pairwise_map]
    refine List.pairwise_lt_range.imp_of_mem ?_
    intro i j hi hj hij
    rw [List.mem_range] at hi hj
    simp only [BitVec.lt_def]
    rw [hnat page hpage i hi, hnat page hpage j hj]
    omega
  · refine memory.state.pairwise_pages.imp_of_mem ?_
    intro page page' hpage hpage' hlt x hx y hy
    rw [List.mem_filter, List.mem_map] at hx hy
    obtain ⟨⟨i, hi, rfl⟩, -⟩ := hx
    obtain ⟨⟨j, hj, rfl⟩, -⟩ := hy
    rw [List.mem_range] at hi hj
    have hbase := (mem_pages.mp hpage).1
    have hbase' := (mem_pages.mp hpage').1
    simp only [BitVec.lt_def]
    rw [hnat page hpage i hi, hnat page' hpage' j hj]
    omega

lemma dumpCells_eq_graph (memory : Memory) :
    dumpCells memory = (dumpMemory memory).1.map fun a => (a, readMemory memory a) := by
  rw [dumpMemory, List.map_map]
  refine (List.map_id (dumpCells memory)).symm.trans (List.map_congr_left ?_)
  rintro ⟨a, v⟩ hcell
  rw [id_eq, Function.comp_apply, (mem_dumpCells.mp hcell).2]

lemma mem_dumpMemory {memory : Memory} {a : Address} :
    a ∈ (dumpMemory memory).1 ↔ readMemory memory a ≠ 0 := by
  rw [dumpMemory, List.mem_map]
  constructor
  · rintro ⟨⟨b, v⟩, hcell, rfl⟩
    obtain ⟨hne, hread⟩ := mem_dumpCells.mp hcell
    rwa [hread]
  · exact fun hne => ⟨(a, readMemory memory a), mem_dumpCells.mpr ⟨hne, rfl⟩, rfl⟩

/-- **A memory that is made of a dump reads as what was dumped.** -/
theorem createMemory_dumpMemory (memory : Memory) :
    ∃ memory', createMemory (dumpMemory memory).1 (dumpMemory memory).2 = .ok memory' ∧
      readMemory memory' = readMemory memory := by
  obtain ⟨memory', hcreate⟩ := writeMemory_ok Memory.empty (dumpMemory memory).1
    (dumpMemory memory).2 (by simp [dumpMemory])
  refine ⟨memory', hcreate, ?_⟩
  obtain ⟨-, hbytes, -⟩ := writeMemory_spec hcreate
  funext a
  have hzip : (dumpMemory memory).1.zip (dumpMemory memory).2 = dumpCells memory := by
    rw [dumpMemory, zip_map_fst_snd]
  rw [readMemory_eq, hbytes, hzip, dumpCells_eq_graph, writes_map_graph]
  split_ifs with hmem
  · rfl
  · rw [mem_dumpMemory, not_not] at hmem
    rw [hmem]
    rfl

/-- Counting one after the other. -/
lemma foldl_count (P : ℕ → Bool) (l : List ℕ) (total : ℕ) :
    l.foldl (fun total i => if P i then total + 1 else total) total =
      total + (l.filter P).length := by
  induction l generalizing total with
  | nil => rfl
  | cons i l ih =>
    rw [List.foldl_cons, ih, List.filter_cons]
    by_cases hi : P i = true
    · rw [if_pos hi, if_pos hi, List.length_cons]
      omega
    · rw [if_neg hi, if_neg hi]

/-- **`memorySize` is how many cells a dump has.** -/
theorem memorySize_eq (memory : Memory) :
    memorySize memory = (dumpMemory memory).1.length := by
  have hfold : memorySize memory = memory.state.pages.foldl (fun total page =>
      countPage memory.state page.1 page.2 total) 0 :=
    @forEachPage_eq_foldl _ (fun _ => memory.state.entry) (countPage memory.state)
      (fun _ _ _ => rfl) 0
  have hpage : ∀ (page : Address × HostPtr) total,
      countPage memory.state page.1 page.2 total = total + ((List.range 4096).filter fun i =>
        memory.state.bytes (page.2.plus i) != 0).length :=
    fun page total => foldl_count _ _ total
  rw [hfold, dumpMemory, List.length_map, dumpCells_eq, List.length_flatMap,
    List.sum_eq_foldl_nat, List.foldl_map]
  simp only [hpage]
  refine List.foldl_ext _ _ _ fun total page hmem => ?_
  -- the bytes of the page are those of its addresses
  obtain ⟨hbase, hfind⟩ := mem_pages.mp hmem
  have hvalues := values_of_find hfind 4096 (by omega)
  rw [hbase, Place.plus_zero] at hvalues
  have hbytes := congrArg (fun l => (l.filter fun v => v != 0).length) hvalues
  simp only [values, peek, List.filter_map, List.length_map] at hbytes ⊢
  exact congrArg (total + ·) hbytes.symm

/-! ## Steps -/

/-- **What is known of a step, of all that can be done to a memory between: each address once,
by ascending address, and every one whose byte is not what it was.** -/
theorem memoryStepWrites_spec (host : Host) {memory : Memory} {steps : List MemoryOp}
    (hsteps : ∀ op ∈ steps, op.Logged) {addresses : List Address}
    (h : memoryStepWrites ((beginMemoryStep memory).run host steps) = some addresses) :
    addresses.Pairwise (· < ·) ∧ ∀ a,
      readMemory ((beginMemoryStep memory).run host steps) a ≠ readMemory memory a →
        a ∈ addresses := by
  have hlogs := Memory.logs_run host (beginMemoryStep memory) hsteps
  simp only [readMemory_eq]
  unfold memoryStepWrites at h
  split at h
  · next addresses' hknown =>
    obtain rfl := Option.some.inj h
    exact stepAddresses_spec hlogs hknown
  · cases h

/-- **A step is taken back by writing at the addresses that it wrote to what was there.** -/
theorem undo_step (host : Host) {memory : Memory} {steps : List MemoryOp}
    (hsteps : ∀ op ∈ steps, op.Logged) {addresses : List Address}
    (h : memoryStepWrites ((beginMemoryStep memory).run host steps) = some addresses) :
    ∃ memory', writeMemory ((beginMemoryStep memory).run host steps) addresses
        (addresses.map (readMemory memory)) = .ok memory' ∧
      readMemory memory' = readMemory memory := by
  obtain ⟨-, hknown⟩ := memoryStepWrites_spec host hsteps h
  obtain ⟨memory', hwrite⟩ := writeMemory_ok ((beginMemoryStep memory).run host steps) addresses
    (addresses.map (readMemory memory)) (by simp)
  refine ⟨memory', hwrite, ?_⟩
  obtain ⟨-, hbytes, -⟩ := writeMemory_spec hwrite
  funext a
  rw [readMemory_eq, hbytes, ← List.map_prod_left_eq_zip, writes_map_graph]
  split_ifs with hmem
  · rfl
  · rw [← readMemory_eq]
    by_contra hne
    exact hmem (hknown a hne)

/-- A memory that a step is taken of. -/
def writtenMemory : Memory :=
  Memory.empty.run Memory.linuxHost [.writeAll [(0xFFF, 1), (0x1000, 2)]]

/-- A step that writes over it. -/
def writtenOver : Memory :=
  (beginMemoryStep writtenMemory).run Memory.linuxHost
    [.writeAll [(0x1000, 3)], .zeroRange 0xFFF 0xFFF, .ensure 0x2000]

theorem undo_step_writtenOver :
    readMemory writtenOver 0x1000 = 3 ∧
      ∃ memory', writeMemory writtenOver [0xFFF, 0x1000]
          ([0xFFF, 0x1000].map (readMemory writtenMemory)) = .ok memory' ∧
        readMemory memory' = readMemory writtenMemory :=
  ⟨by decide +kernel, undo_step Memory.linuxHost (by simp [MemoryOp.Logged])
    (show memoryStepWrites writtenOver = some [0xFFF, 0x1000] by decide +kernel)⟩

/-! ## The bytes of a range -/

lemma allZero_iff {bytes : List Byte} : allZero bytes = true ↔ ∀ byte ∈ bytes, byte = 0 := by
  cases bytes with
  | nil => simp [allZero]
  | cons byte bytes =>
    rw [← PagedMemory.allZero_iff]
    simp [allZero]

lemma regionPage_eq (m : PagedMemory) {a : Address} {count : ℕ}
    (hcount : a.toNat % 4096 + count ≤ 4096) : regionPage m a count = values m.byteAt a count := by
  unfold regionPage
  cases hfind : m.find a with
  | none => rw [values_of_find_none hfind hcount]
  | some page =>
    simp only [pageOffset_eq]
    rw [← values_of_find hfind count hcount]
    split_ifs with hzero
    · rfl
    · rw [Bool.not_eq_true', Bool.not_eq_false, allZero_iff] at hzero
      rw [List.eq_replicate_of_mem hzero, length_values]

/-- **`regionBytes` is what `readMemoryRange` reads.** -/
theorem regionBytes_eq (memory : Memory) (a : Address) {size : ℕ} (hsize : size < 2 ^ 64) :
    regionBytes memory a size = memory.state.readRange a size := by
  rw [regionBytes, Nat.mod_eq_of_lt hsize, readRange, load_eq]
  clear hsize
  induction size using Nat.strongRecOn generalizing a with
  | ind size ih =>
    rw [regionFrom]
    split_ifs with hempty
    · rw [hempty]
      rfl
    · have hpos := pageCount_pos a hempty
      have hle := pageCount_le a size
      simp only
      rw [regionPage_eq _ (pageOffset_add_pageCount_le a size), ih _ (by omega), ← values_add,
        Nat.add_sub_cancel' hle]

end BapNative.Jit
