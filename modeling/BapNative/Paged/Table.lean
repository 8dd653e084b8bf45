import BapNative.Paged.Basic

/-!
# The table of pages

`find` and `ensure`: the way from the root through the levels of the table to the page of
an address, which `ensure` makes where it isn't there.  Nodes come from the allocator of the
host, pages out of chunks.

The invariant of a memory (`WellFormed`) says that the table is a tree whose leaves are
pages at the last level, that what the table reaches was taken from a chunk and isn't
among the unused pages, and that what was not taken, or not used, is zeros.  With it,
`ensure` comes to this: it gives the page of an address, leaves every other page as it
is, and changes no byte of the address space.
-/

namespace BapNative

open Block PointerTree

namespace PagedMemory

/-! ## Finding and making pages -/

/-- `find`: the page of an address, if anything was ever written to it. -/
def find (m : PagedMemory) (address : Address) : Option HostPtr := do
  let node ← (List.range (levels - 1)).foldlM
    (fun node level => m.entry node (indexAt address level)) rootNode
  let page ← m.entry node (indexAt address (levels - 1))
  page.asPage

/-- `new Node`: a node without entries. -/
def newNode (m : PagedMemory) : Pointer × PagedMemory :=
  (.node m.nodeCount,
    { m with
      nodes := Function.update m.nodes m.nodeCount fun _ => none
      nodeCount := m.nodeCount + 1 })

/-- `chunks.push_back(newChunk())`: zeros from the host, of which no page is taken. -/
def newChunk (m : PagedMemory) : PagedMemory :=
  { m with
    bytes := fun p => if p.block = m.chunks then 0 else m.bytes p
    chunks := m.chunks + 1
    chunkUsed := 0 }

/-- `newPage`: an unused page if there is one, else the next of the last chunk. -/
def newPage (m : PagedMemory) : HostPtr × PagedMemory :=
  match m.unused with
  | page :: unused => (page, { m with unused := unused })
  | [] =>
    let m := if m.chunkUsed = chunkPages then m.newChunk else m
    (⟨m.chunks - 1, pageSize * m.chunkUsed⟩, { m with chunkUsed := m.chunkUsed + 1 })

/-- `unusedPage`: keeps a page that lost a race. -/
def unusedPage (m : PagedMemory) (page : HostPtr) : PagedMemory :=
  { m with unused := page :: m.unused }

/-- A store to an entry of a node. -/
def setEntry (m : PagedMemory) (node : Pointer) (index : Index) (child : Pointer) : PagedMemory :=
  match node with
  | .node id =>
    { m with nodes := Function.update m.nodes id (Function.update (m.nodes id) index (some child)) }
  | .page _ => m

/-- `compare_exchange_strong` on an entry that was seen to be null: whether it still was, what
is in it then, and the memory after. -/
def exchange (m : PagedMemory) (node : Pointer) (index : Index) (made : Pointer) :
    Bool × Pointer × PagedMemory :=
  match m.entry node index with
  | none => (true, made, m.setEntry node index made)
  | some child => (false, child, m)

/-- The body of the loop of `ensure`: the node below an entry, made if it isn't there. -/
def ensureNode (m : PagedMemory) (node : Pointer) (index : Index) : Pointer × PagedMemory :=
  match m.entry node index with
  | some child => (child, m)
  | none =>
    let (made, m) := m.newNode
    -- a node that lost the race is deleted, and nothing ever led to it
    let (_, child, m) := m.exchange node index made
    (child, m)

/-- The end of `ensure`: the page below an entry of the last level, made if it isn't there. -/
def ensurePage (m : PagedMemory) (node : Pointer) (index : Index) : Pointer × PagedMemory :=
  match m.entry node index with
  | some page => (page, m)
  | none =>
    let (made, m) := m.newPage
    let (won, page, m) := m.exchange node index (.page made)
    if won then (page, m) else (page, m.unusedPage made)

/-- The loop of `ensure`, over the levels up to one. -/
def ensureNodes (m : PagedMemory) (address : Address) (level : ℕ) : Pointer × PagedMemory :=
  (List.range level).foldl (fun (node, m) level => m.ensureNode node (indexAt address level))
    (rootNode, m)

/-- `ensure`: the page of an address, made if it isn't there. -/
def ensure (m : PagedMemory) (address : Address) : Option HostPtr × PagedMemory :=
  let (node, m) := m.ensureNodes address (levels - 1)
  let (page, m) := m.ensurePage node (indexAt address (levels - 1))
  (page.asPage, m)

/-! ## What the table reaches -/

/-- The pointer at the end of a path from the root. -/
def reach (m : PagedMemory) (path : List Index) : Option Pointer := walk m.entry rootNode path

@[simp] lemma reach_nil (m : PagedMemory) : m.reach [] = some rootNode := rfl

lemma reach_concat (m : PagedMemory) (path : List Index) (i : Index) :
    m.reach (path ++ [i]) = (m.reach path).bind fun node => m.entry node i :=
  walk_concat m.entry rootNode path i

lemma find_eq (m : PagedMemory) (address : Address) :
    m.find address = (m.reach (path address)).bind Pointer.asPage := by
  rw [path, show levels = (levels - 1) + 1 from rfl, List.range_succ, List.map_append,
    List.map_singleton, reach_concat, reach, walk, List.foldlM_map, Option.bind_assoc]
  rfl

/-- Which page of its chunk a place was, when it is the start of a page that was taken. -/
def Taken (m : PagedMemory) (p : HostPtr) : Prop :=
  ∃ k, p.offset = 4096 * k ∧
    (p.block + 1 < m.chunks ∧ k < 256 ∨ p.block + 1 = m.chunks ∧ k < m.chunkUsed)

/-- The invariant of a memory. -/
structure WellFormed (m : PagedMemory) : Prop where
  tree : IsTree m.entry rootNode
  node_lt : ∀ {path id}, m.reach path = some (.node id) → id < m.nodeCount ∧ path.length < 4
  page_taken : ∀ {path p}, m.reach path = some (.page p) →
    path.length = 4 ∧ m.Taken p ∧ p ∉ m.unused
  unused_taken : ∀ p ∈ m.unused, m.Taken p
  unused_nodup : m.unused.Nodup
  unused_zero : ∀ p ∈ m.unused, ∀ k < 4096, m.bytes (p.plus k) = 0
  rest_zero : ∀ p : HostPtr, p.block + 1 = m.chunks → 4096 * m.chunkUsed ≤ p.offset →
    p.offset < 4096 * 256 → m.bytes p = 0
  chunkUsed_le : m.chunkUsed ≤ 256
  no_chunk : m.chunks = 0 → m.chunkUsed = 256

lemma wellFormed_empty : empty.WellFormed := by
  have hreach : ∀ path node, empty.reach path = some node → path = [] ∧ node = rootNode := by
    intro path node h
    induction path using List.reverseRecOn with
    | nil => exact ⟨rfl, (Option.some.inj h).symm⟩
    | append_singleton path i ih =>
      rw [reach_concat] at h
      obtain ⟨node', -, h'⟩ := Option.bind_eq_some_iff.mp h
      cases node' <;> simp [entry, empty] at h'
  refine ⟨?_, ?_, ?_, by simp [empty], by simp [empty], by simp [empty], by simp [empty],
    by simp [empty], by simp [empty]⟩
  · intro p q node hp hq
    rw [(hreach p node hp).1, (hreach q node hq).1]
  · intro path id h
    obtain ⟨rfl, h'⟩ := hreach path _ h
    cases h'
    simp [empty]
  · intro path p h
    exact absurd (hreach path _ h).2 (by simp [rootNode])

/-- The page of an address is one that was taken, and is in use. -/
lemma WellFormed.taken_of_find {m : PagedMemory} (h : m.WellFormed) {a : Address} {p : HostPtr}
    (hp : m.find a = some p) : m.Taken p ∧ p ∉ m.unused := by
  rw [find_eq] at hp
  obtain ⟨ptr, hptr, hpage⟩ := Option.bind_eq_some_iff.mp hp
  cases ptr with
  | node id => simp [Pointer.asPage] at hpage
  | page q =>
    obtain rfl : q = p := by simpa [Pointer.asPage] using hpage
    exact (h.page_taken hptr).2

/-- An entry of the last level is a page. -/
lemma WellFormed.find_of_reach {m : PagedMemory} (h : m.WellFormed) {a : Address} {ptr : Pointer}
    (hptr : m.reach (path a) = some ptr) : ∃ p, ptr = .page p ∧ m.find a = some p := by
  cases ptr with
  | node id =>
    have := (h.node_lt hptr).2
    simp at this
  | page p => exact ⟨p, rfl, by rw [find_eq, hptr]; rfl⟩

/-- Two addresses have the same page only when they are in the same one. -/
lemma WellFormed.same_page {m : PagedMemory} (h : m.WellFormed) {a b : Address} {p : HostPtr}
    (ha : m.find a = some p) (hb : m.find b = some p) : a.toNat / 4096 = b.toNat / 4096 := by
  have key : ∀ {c : Address}, m.find c = some p → m.reach (path c) = some (.page p) := by
    intro c hc
    rw [find_eq] at hc
    obtain ⟨ptr, hptr, hpage⟩ := Option.bind_eq_some_iff.mp hc
    cases ptr with
    | node id => simp [Pointer.asPage] at hpage
    | page q =>
      obtain rfl : q = p := by simpa [Pointer.asPage] using hpage
      exact hptr
  exact path_eq_iff.mp (h.tree (key ha) (key hb))

/-- Addresses of one page have the same page. -/
lemma find_congr (m : PagedMemory) {a b : Address} (h : a.toNat / 4096 = b.toNat / 4096) :
    m.find a = m.find b := by
  rw [find_eq, find_eq, path_eq_iff.mpr h]

/-! ## Making a node -/

/-- What a step of a memory knows. -/
def stepState (m : PagedMemory) : Bool × List (Address × BitVec 8) × Bool :=
  (m.stepOpen, m.stepWrites, m.stepOverflowed)

lemma stepState_eq_iff {m m' : PagedMemory} : m'.stepState = m.stepState ↔
    m'.stepOpen = m.stepOpen ∧ m'.stepWrites = m.stepWrites ∧
      m'.stepOverflowed = m.stepOverflowed := by
  simp [stepState]

/-- `m'` is `m` but for its nodes. -/
def OnlyNodes (m m' : PagedMemory) : Prop :=
  m' = { m with nodes := m'.nodes, nodeCount := m'.nodeCount }

lemma OnlyNodes.refl (m : PagedMemory) : OnlyNodes m m := rfl

lemma OnlyNodes.trans {m m' m'' : PagedMemory} (h : OnlyNodes m m') (h' : OnlyNodes m' m'') :
    OnlyNodes m m'' := by
  rw [OnlyNodes, h', h]

lemma OnlyNodes.bytes {m m' : PagedMemory} (h : OnlyNodes m m') : m'.bytes = m.bytes := by rw [h]

lemma OnlyNodes.stepState {m m' : PagedMemory} (h : OnlyNodes m m') :
    m'.stepState = m.stepState := by
  rw [h]
  rfl

lemma OnlyNodes.setEntry (m : PagedMemory) (node : Pointer) (index : Index) (child : Pointer) :
    OnlyNodes m (m.setEntry node index child) := by
  cases node <;> rfl

/-- The invariant holds of a memory that has the same chunks and a table that is still one. -/
lemma WellFormed.onlyNodes {m m' : PagedMemory} (h : m.WellFormed) (hm : OnlyNodes m m')
    (htree : IsTree m'.entry rootNode)
    (hnode : ∀ {path id}, m'.reach path = some (.node id) →
      id < m'.nodeCount ∧ path.length < 4)
    (hpage : ∀ {path p}, m'.reach path = some (.page p) →
      path.length = 4 ∧ m.Taken p ∧ p ∉ m.unused) : m'.WellFormed := by
  have htaken : m'.Taken = m.Taken := by funext p; rw [hm]; rfl
  refine ⟨htree, hnode, ?_, ?_, ?_, ?_, ?_, ?_, ?_⟩
  · intro path p hp
    rw [htaken, show m'.unused = m.unused by rw [hm]]
    exact hpage hp
  · rw [htaken, show m'.unused = m.unused by rw [hm]]
    exact h.unused_taken
  all_goals rw [hm]
  exacts [h.unused_nodup, h.unused_zero, h.rest_zero, h.chunkUsed_le, h.no_chunk]

lemma entry_setEntry (m : PagedMemory) (id : ℕ) (index : Index) (child : Pointer) :
    (m.setEntry (.node id) index child).entry = link m.entry (.node id) index child := by
  funext node j
  cases node with
  | page p => rw [link_of_ne (by simp)]; rfl
  | node id' =>
    by_cases hid : id' = id
    · subst hid
      simp only [setEntry, entry, link, Function.update_self]
      rfl
    · rw [link_of_ne (by simpa using hid)]
      simp [setEntry, entry, hid]

/-- A new node doesn't change what is reached. -/
lemma WellFormed.reach_newNode {m : PagedMemory} (h : m.WellFormed) (path : List Index) :
    m.newNode.2.reach path = m.reach path := by
  refine walk_congr ?_ path
  intro path node hnode
  funext j
  cases node with
  | page p => rfl
  | node id =>
    have hid := (h.node_lt hnode).1
    simp [newNode, entry, Function.update_of_ne (show id ≠ m.nodeCount by omega)]

lemma WellFormed.fresh_newNode {m : PagedMemory} (h : m.WellFormed) :
    Fresh m.newNode.2.entry rootNode m.newNode.1 := by
  constructor
  · intro path hpath
    have hreach : m.reach path = some (.node m.nodeCount) := by
      rw [← h.reach_newNode]
      exact hpath
    exact absurd (h.node_lt hreach).1 (lt_irrefl _)
  · intro i
    simp [newNode, entry]

lemma WellFormed.newNode {m : PagedMemory} (h : m.WellFormed) : m.newNode.2.WellFormed := by
  refine h.onlyNodes rfl ?_ ?_ ?_
  · intro p q node hp hq
    exact h.tree ((h.reach_newNode p).symm.trans hp) ((h.reach_newNode q).symm.trans hq)
  · intro path id hp
    rw [h.reach_newNode] at hp
    obtain ⟨h1, h2⟩ := h.node_lt hp
    exact ⟨Nat.lt_succ_of_lt h1, h2⟩
  · intro path p hp
    rw [h.reach_newNode] at hp
    exact h.page_taken hp

/-- What is reached once a fresh pointer is in a free entry. -/
lemma WellFormed.reach_setEntry {m : PagedMemory} (h : m.WellFormed) {path : List Index}
    {node child : Pointer} {i : Index} (hnode : m.reach path = some node) (hlen : path.length < 4)
    (hfree : m.entry node i = none) (hfresh : Fresh m.entry rootNode child) (q : List Index) :
    (m.setEntry node i child).reach q = if q = path ++ [i] then some child else m.reach q := by
  cases node with
  | page p =>
    have := (h.page_taken hnode).1
    omega
  | node id =>
    rw [reach, entry_setEntry]
    exact walk_link h.tree hnode hfree hfresh q

lemma WellFormed.tree_setEntry {m : PagedMemory} (h : m.WellFormed) {path : List Index}
    {node child : Pointer} {i : Index} (hnode : m.reach path = some node) (hlen : path.length < 4)
    (hfree : m.entry node i = none) (hfresh : Fresh m.entry rootNode child) :
    IsTree (m.setEntry node i child).entry rootNode := by
  cases node with
  | page p =>
    have := (h.page_taken hnode).1
    omega
  | node id =>
    rw [entry_setEntry]
    exact h.tree.link hnode hfree hfresh

/-- A node that was made and is in the table. -/
lemma WellFormed.setEntry_node {m : PagedMemory} (h : m.WellFormed) {path : List Index}
    {node : Pointer} {id : ℕ} {i : Index} (hnode : m.reach path = some node)
    (hlen : path.length < 3) (hfree : m.entry node i = none)
    (hfresh : Fresh m.entry rootNode (.node id)) (hid : id < m.nodeCount) :
    (m.setEntry node i (.node id)).WellFormed := by
  have hreach := h.reach_setEntry hnode (by omega) hfree hfresh
  have hcount : (m.setEntry node i (.node id)).nodeCount = m.nodeCount := by cases node <;> rfl
  refine h.onlyNodes (OnlyNodes.setEntry ..)
    (h.tree_setEntry hnode (by omega) hfree hfresh) ?_ ?_
  · intro q id' hq
    rw [hreach] at hq
    split_ifs at hq with heq
    · obtain rfl : id = id' := by simpa using hq
      refine ⟨hcount ▸ hid, ?_⟩
      simp only [heq, List.length_append, List.length_singleton]
      omega
    · exact hcount ▸ h.node_lt hq
  · intro q p hq
    rw [hreach] at hq
    split_ifs at hq with heq
    · simp at hq
    · exact h.page_taken hq

/-- What a level of `ensure` does: the entry of the node leads to a node then, and nothing else
is reached that wasn't. -/
lemma WellFormed.ensureNode_spec {m : PagedMemory} (h : m.WellFormed) {path : List Index}
    {node : Pointer} (hnode : m.reach path = some node) (hlen : path.length < 3) (i : Index) :
    (m.ensureNode node i).2.WellFormed ∧ OnlyNodes m (m.ensureNode node i).2 ∧
      ∀ q, (m.ensureNode node i).2.reach q =
        if q = path ++ [i] then some (m.ensureNode node i).1 else m.reach q := by
  cases hentry : m.entry node i with
  | some child =>
    have heq : m.ensureNode node i = (child, m) := by simp [ensureNode, hentry]
    rw [heq]
    refine ⟨h, rfl, fun q => ?_⟩
    split_ifs with hq
    · rw [hq, reach_concat, hnode]
      exact hentry
    · rfl
  | none =>
    -- the new node leaves the entry free, so that the exchange finds it null
    have hnode' : m.newNode.2.reach path = some node := by rw [h.reach_newNode, hnode]
    have hfree : m.newNode.2.entry node i = none := by
      have := h.reach_newNode (path ++ [i])
      rwa [reach_concat, reach_concat, hnode', hnode, Option.bind_some, Option.bind_some,
        hentry] at this
    have heq : m.ensureNode node i =
        (m.newNode.1, m.newNode.2.setEntry node i m.newNode.1) := by
      simp only [ensureNode, hentry, exchange]
      rw [hfree]
    rw [heq]
    have hnew : OnlyNodes m m.newNode.2 := rfl
    refine ⟨h.newNode.setEntry_node hnode' hlen hfree h.fresh_newNode (Nat.lt_succ_self _),
      hnew.trans (OnlyNodes.setEntry ..), fun q => ?_⟩
    rw [h.newNode.reach_setEntry hnode' (by omega) hfree h.fresh_newNode, h.reach_newNode]

/-- What the loop of `ensure` does: it comes to the node of the last level, and no path as long
as those of pages leads elsewhere than before. -/
lemma WellFormed.ensureNodes_spec {m : PagedMemory} (h : m.WellFormed) (address : Address)
    {k : ℕ} (hk : k ≤ 3) :
    (m.ensureNodes address k).2.WellFormed ∧ OnlyNodes m (m.ensureNodes address k).2 ∧
      (m.ensureNodes address k).2.reach ((List.range k).map (indexAt address)) =
        some (m.ensureNodes address k).1 ∧
      ∀ q : List Index, q.length = 4 → (m.ensureNodes address k).2.reach q = m.reach q := by
  induction k with
  | zero => exact ⟨h, rfl, rfl, fun _ _ => rfl⟩
  | succ k ih =>
    obtain ⟨hwf, hm, hnode, hlong⟩ := ih (by omega)
    have heq : m.ensureNodes address (k + 1) =
        (m.ensureNodes address k).2.ensureNode (m.ensureNodes address k).1
          (indexAt address k) := by
      simp [ensureNodes, List.range_succ]
    obtain ⟨hwf', hm', hreach⟩ :=
      hwf.ensureNode_spec hnode (by simp; omega) (indexAt address k)
    rw [← heq] at hwf' hm' hreach
    refine ⟨hwf', hm.trans hm', ?_, fun q hq => ?_⟩
    · rw [hreach, List.range_succ, List.map_append, List.map_singleton, if_pos rfl]
    · rw [hreach, if_neg, hlong q hq]
      intro hq'
      rw [hq'] at hq
      simp at hq
      omega

end PagedMemory

end BapNative
