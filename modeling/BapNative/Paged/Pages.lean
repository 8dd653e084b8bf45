import BapNative.Paged.Table

/-!
# The bytes of the pages

What an address holds (`byteAt`): the byte of its page, or zero where there is no page.
Making a page changes none of it, and a copy into the page of an address changes exactly
the bytes that are copied: pages lie apart in their chunks, and what is not in the table
is never written.
-/

namespace BapNative

open Block Overwrite PointerTree

namespace PagedMemory

/-- What an address holds: the byte of its page, and zero where there is none. -/
def byteAt (m : PagedMemory) (a : Address) : Byte :=
  match m.find a with
  | none => 0
  | some page => m.bytes (page.plus (pageOffset a))

/-- `memcpy` into a page, and a store of a whole word. -/
def setBytes (m : PagedMemory) (p : HostPtr) (values : List Byte) : PagedMemory :=
  { m with bytes := poke m.bytes p values }

@[simp] lemma bytes_setBytes (m : PagedMemory) (p : HostPtr) (values : List Byte) :
    (m.setBytes p values).bytes = poke m.bytes p values := rfl

lemma byteAt_of_find {m : PagedMemory} {a : Address} {page : HostPtr} (h : m.find a = some page) :
    m.byteAt a = m.bytes (page.plus (a.toNat % 4096)) := by
  rw [byteAt, h, ← pageOffset_eq]

lemma byteAt_of_find_none {m : PagedMemory} {a : Address} (h : m.find a = none) :
    m.byteAt a = 0 := by
  rw [byteAt, h]

lemma byteAt_empty (a : Address) : empty.byteAt a = 0 := rfl

/-! ## Taking a page from a chunk -/

/-- Pages that were taken lie apart. -/
lemma Taken.apart {m : PagedMemory} {p q : HostPtr} (hp : m.Taken p) (hq : m.Taken q)
    (hpq : p ≠ q) :
    p.block ≠ q.block ∨ p.offset + 4096 ≤ q.offset ∨ q.offset + 4096 ≤ p.offset := by
  obtain ⟨k, hk, -⟩ := hp
  obtain ⟨l, hl, -⟩ := hq
  by_cases hblock : p.block = q.block
  · have hne : p.offset ≠ q.offset := by
      intro hoff
      cases p
      cases q
      simp_all
    omega
  · exact Or.inl hblock

lemma newChunk_taken {m : PagedMemory} (hfull : m.chunkUsed = 256) {p : HostPtr}
    (hp : m.Taken p) : m.newChunk.Taken p := by
  obtain ⟨k, hk, hp⟩ := hp
  refine ⟨k, hk, Or.inl ?_⟩
  simp only [newChunk]
  omega

lemma Taken.block_lt {m : PagedMemory} {p : HostPtr} (hp : m.Taken p) : p.block < m.chunks := by
  obtain ⟨k, -, hp⟩ := hp
  omega

lemma newChunk_bytes {m : PagedMemory} {p : HostPtr} (hp : m.Taken p) (k : ℕ) :
    m.newChunk.bytes (p.plus k) = m.bytes (p.plus k) := by
  have hlt := hp.block_lt
  exact if_neg (by simp only [Place.plus_block]; omega)

lemma WellFormed.newChunk {m : PagedMemory} (h : m.WellFormed) (hfull : m.chunkUsed = 256) :
    m.newChunk.WellFormed := by
  refine ⟨h.tree, h.node_lt, ?_, ?_, h.unused_nodup, ?_, ?_, by simp [PagedMemory.newChunk],
    by simp [PagedMemory.newChunk]⟩
  · intro path p hp
    obtain ⟨h1, h2, h3⟩ := h.page_taken hp
    exact ⟨h1, newChunk_taken hfull h2, h3⟩
  · exact fun p hp => newChunk_taken hfull (h.unused_taken p hp)
  · intro p hp k hk
    rw [newChunk_bytes (h.unused_taken p hp)]
    exact h.unused_zero p hp k hk
  · intro p hp _ _
    simp only [PagedMemory.newChunk] at hp ⊢
    rw [if_pos (by omega)]

/-- A page that was made: taken from the chunks and not in the table yet, all zeros, with
everything that was taken before as it was. -/
structure PageMade (m : PagedMemory) (page : HostPtr) (m' : PagedMemory) : Prop where
  wf : m'.WellFormed
  entry : m'.entry = m.entry
  stepState : m'.stepState = m.stepState
  taken : m'.Taken page
  notUnused : page ∉ m'.unused
  unreached : ∀ path, m.reach path ≠ some (.page page)
  zero : ∀ k < 4096, m'.bytes (page.plus k) = 0
  bytes : ∀ p, m.Taken p → ∀ k, m'.bytes (p.plus k) = m.bytes (p.plus k)

/-- The next page of a chunk that has one. -/
lemma WellFormed.pageMade_next {m : PagedMemory} (h : m.WellFormed) (hunused : m.unused = [])
    (hroom : m.chunkUsed < 256) :
    PageMade m ⟨m.chunks - 1, 4096 * m.chunkUsed⟩ { m with chunkUsed := m.chunkUsed + 1 } := by
  have hchunks : 0 < m.chunks := by
    by_contra hzero
    have := h.no_chunk (by omega)
    omega
  have hmono : ∀ p, m.Taken p →
      ({ m with chunkUsed := m.chunkUsed + 1 } : PagedMemory).Taken p := by
    rintro p ⟨k, hk, hp⟩
    refine ⟨k, hk, ?_⟩
    simp only
    omega
  refine ⟨⟨h.tree, h.node_lt, ?_, ?_, h.unused_nodup, h.unused_zero, ?_, ?_, ?_⟩, rfl, rfl, ?_, ?_,
    ?_, ?_, fun _ _ _ => rfl⟩
  · intro path p hp
    obtain ⟨h1, h2, h3⟩ := h.page_taken hp
    exact ⟨h1, hmono p h2, h3⟩
  · exact fun p hp => hmono p (h.unused_taken p hp)
  · intro p h1 h2 h3
    exact h.rest_zero p h1 (by simp only at h2; omega) h3
  · simp only
    omega
  · intro hzero
    simp only at hzero
    omega
  · exact ⟨m.chunkUsed, rfl, Or.inr (by simp only; omega)⟩
  · simp [hunused]
  · -- what the table reaches was taken before
    intro path hpath
    obtain ⟨k, hk, hp⟩ := (h.page_taken hpath).2.1
    simp only at hk hp
    omega
  · intro k hk
    exact h.rest_zero _ (by simp; omega) (by simp) (by simp; omega)

lemma WellFormed.pageMade_newPage {m : PagedMemory} (h : m.WellFormed) :
    PageMade m m.newPage.1 m.newPage.2 := by
  cases hunused : m.unused with
  | cons page unused =>
    have heq : m.newPage = (page, { m with unused := unused }) := by simp [newPage, hunused]
    rw [heq]
    have hmem : page ∈ m.unused := by simp [hunused]
    have hsub : ∀ p ∈ unused, p ∈ m.unused := fun p hp => by simp [hunused, hp]
    have hnodup := h.unused_nodup
    rw [hunused, List.nodup_cons] at hnodup
    refine ⟨⟨h.tree, h.node_lt, ?_, fun p hp => h.unused_taken p (hsub p hp), hnodup.2,
      fun p hp => h.unused_zero p (hsub p hp), h.rest_zero, h.chunkUsed_le, h.no_chunk⟩, rfl, rfl,
      h.unused_taken page hmem, hnodup.1, ?_, h.unused_zero page hmem, fun _ _ _ => rfl⟩
    · intro path p hp
      obtain ⟨h1, h2, h3⟩ := h.page_taken hp
      exact ⟨h1, h2, fun hin => h3 (hsub p hin)⟩
    · exact fun path hpath => (h.page_taken hpath).2.2 hmem
  | nil =>
    by_cases hfull : m.chunkUsed = 256
    · have heq : m.newPage = (⟨m.newChunk.chunks - 1, 4096 * m.newChunk.chunkUsed⟩,
          { m.newChunk with chunkUsed := m.newChunk.chunkUsed + 1 }) := by
        simp [newPage, hunused, hfull]
      rw [heq]
      obtain ⟨h1, h2, h3, h4, h5, h6, h7, h8⟩ :=
        (h.newChunk hfull).pageMade_next hunused (by simp [PagedMemory.newChunk])
      refine ⟨h1, h2, h3, h4, h5, h6, h7, fun p hp k => ?_⟩
      rw [h8 p (newChunk_taken hfull hp) k, newChunk_bytes hp]
    · have heq : m.newPage = (⟨m.chunks - 1, 4096 * m.chunkUsed⟩,
          { m with chunkUsed := m.chunkUsed + 1 }) := by
        simp [newPage, hunused, hfull]
      rw [heq]
      exact h.pageMade_next hunused (by have := h.chunkUsed_le; omega)

/-! ## Making the page of an address -/

/-- A page that was made and is in the table. -/
lemma WellFormed.setEntry_page {m : PagedMemory} (h : m.WellFormed) {path : List Index}
    {node : Pointer} {page : HostPtr} {i : Index} (hnode : m.reach path = some node)
    (hlen : path.length = 3) (hfree : m.entry node i = none)
    (hfresh : Fresh m.entry rootNode (.page page)) (htaken : m.Taken page)
    (hunused : page ∉ m.unused) : (m.setEntry node i (.page page)).WellFormed := by
  have hreach := h.reach_setEntry hnode (by omega) hfree hfresh
  have hcount : (m.setEntry node i (.page page)).nodeCount = m.nodeCount := by cases node <;> rfl
  refine h.onlyNodes (OnlyNodes.setEntry ..)
    (h.tree_setEntry hnode (by omega) hfree hfresh) ?_ ?_
  · intro q id hq
    rw [hreach] at hq
    split_ifs at hq with heq
    · simp at hq
    · exact hcount ▸ h.node_lt hq
  · intro q p hq
    rw [hreach] at hq
    split_ifs at hq with heq
    · obtain rfl : page = p := by simpa using hq
      exact ⟨by simp [heq, hlen], htaken, hunused⟩
    · exact h.page_taken hq

/-- A page that is in the table stays there, so that who has it may keep it. -/
def KeepsPages (m m' : PagedMemory) : Prop :=
  ∀ a page, m.find a = some page → m'.find a = some page

lemma KeepsPages.refl (m : PagedMemory) : KeepsPages m m := fun _ _ h => h

lemma KeepsPages.trans {m m' m'' : PagedMemory} (h : KeepsPages m m') (h' : KeepsPages m' m'') :
    KeepsPages m m'' := fun a page ha => h' a page (h a page ha)

/-- What `ensure` leaves: the page of `a` is in the table, every other is as it was, and no
byte of the address space is another. -/
structure Ensured (m : PagedMemory) (a : Address) (page : HostPtr) (m' : PagedMemory) : Prop where
  wf : m'.WellFormed
  find : ∀ b, m'.find b = if b.toNat / 4096 = a.toNat / 4096 then some page else m.find b
  keeps : KeepsPages m m'
  byteAt : ∀ b, m'.byteAt b = m.byteAt b
  stepState : m'.stepState = m.stepState

/-- A page that is found is the one that `ensure` gives. -/
lemma Ensured.of_found {m : PagedMemory} (h : m.WellFormed) {a : Address} {page : HostPtr}
    (hfound : m.find a = some page) : Ensured m a page m := by
  refine ⟨h, fun b => ?_, KeepsPages.refl m, fun _ => rfl, rfl⟩
  split_ifs with hb
  · rw [find_congr m hb, hfound]
  · rfl

/-- What the table finds decides what an address holds. -/
lemma byteAt_congr {m m' : PagedMemory} (h : m.WellFormed) (hfind : ∀ b, m'.find b = m.find b)
    (hbytes : ∀ p, m.Taken p → ∀ k, m'.bytes (p.plus k) = m.bytes (p.plus k)) (b : Address) :
    m'.byteAt b = m.byteAt b := by
  rw [PagedMemory.byteAt, PagedMemory.byteAt, hfind]
  cases hb : m.find b with
  | none => rfl
  | some p => exact hbytes p (h.taken_of_find hb).1 _

lemma WellFormed.ensurePage_spec {m : PagedMemory} (h : m.WellFormed) {a : Address}
    {node : Pointer} (hnode : m.reach ((List.range 3).map (indexAt a)) = some node) :
    ∃ page, (m.ensurePage node (indexAt a 3)).1 = .page page ∧
      Ensured m a page (m.ensurePage node (indexAt a 3)).2 := by
  have hlen : ((List.range 3).map (indexAt a)).length = 3 := by simp
  have hpath : path a = (List.range 3).map (indexAt a) ++ [indexAt a 3] := by
    simp [path, List.range_succ]
  have hconcat : m.reach (path a) = m.entry node (indexAt a 3) := by
    rw [hpath, reach_concat, hnode]
    rfl
  cases hentry : m.entry node (indexAt a 3) with
  | some ptr =>
    obtain ⟨page, rfl, hfound⟩ := h.find_of_reach (hconcat.trans hentry)
    exact ⟨page, by simp [ensurePage, hentry], by
      simpa [ensurePage, hentry] using Ensured.of_found h hfound⟩
  | none =>
    have hmade := h.pageMade_newPage
    have hnode' : m.newPage.2.reach ((List.range 3).map (indexAt a)) = some node := by
      rw [reach, hmade.entry]
      exact hnode
    have hfree : m.newPage.2.entry node (indexAt a 3) = none := by rw [hmade.entry, hentry]
    have hfresh : Fresh m.newPage.2.entry rootNode (.page m.newPage.1) := by
      refine ⟨fun path => ?_, fun _ => rfl⟩
      rw [hmade.entry]
      exact hmade.unreached path
    have heq : m.ensurePage node (indexAt a 3) =
        (.page m.newPage.1, m.newPage.2.setEntry node (indexAt a 3) (.page m.newPage.1)) := by
      have hexchange : m.newPage.2.exchange node (indexAt a 3) (.page m.newPage.1) =
          (true, .page m.newPage.1,
            m.newPage.2.setEntry node (indexAt a 3) (.page m.newPage.1)) := by
        simp only [exchange]
        rw [hfree]
      simp [ensurePage, hentry, hexchange]
    have hreach := hmade.wf.reach_setEntry hnode' (by omega) hfree hfresh
    have honly : OnlyNodes m.newPage.2 _ :=
      OnlyNodes.setEntry m.newPage.2 node (indexAt a 3) (.page m.newPage.1)
    have hfind : ∀ b, (m.newPage.2.setEntry node (indexAt a 3) (.page m.newPage.1)).find b =
        if b.toNat / 4096 = a.toNat / 4096 then some m.newPage.1 else m.find b := by
      intro b
      rw [find_eq, hreach, ← hpath]
      by_cases hb : b.toNat / 4096 = a.toNat / 4096
      · rw [if_pos (path_eq_iff.mpr hb), if_pos hb]
        rfl
      · rw [if_neg (fun heq => hb (path_eq_iff.mp heq)), if_neg hb, find_eq, reach, reach,
          hmade.entry]
    -- without an entry there was no page
    have hnone : ∀ b, b.toNat / 4096 = a.toNat / 4096 → m.find b = none := by
      intro b hb
      rw [find_congr m hb, find_eq, hconcat, hentry]
      rfl
    rw [heq]
    refine ⟨m.newPage.1, rfl, ?_, hfind, fun b page hb => ?_, fun b => ?_, ?_⟩
    · exact hmade.wf.setEntry_page hnode' hlen hfree hfresh hmade.taken hmade.notUnused
    · rw [hfind, if_neg fun hsame => ?_, hb]
      rw [hnone b hsame] at hb
      simp at hb
    · by_cases hb : b.toNat / 4096 = a.toNat / 4096
      · -- the new page is zeros, which is what the address held without it
        rw [byteAt_of_find ((hfind b).trans (if_pos hb)), byteAt_of_find_none (hnone b hb),
          honly.bytes]
        exact hmade.zero _ (Nat.mod_lt _ (by omega))
      · rw [PagedMemory.byteAt, PagedMemory.byteAt, hfind, if_neg hb, honly.bytes]
        cases hfb : m.find b with
        | none => rfl
        | some p => exact hmade.bytes p (h.taken_of_find hfb).1 _
    · rw [honly.stepState, hmade.stepState]

/-- **`ensure` gives the page of an address and changes no byte of the address space.** -/
theorem WellFormed.ensure_spec {m : PagedMemory} (h : m.WellFormed) (a : Address) :
    ∃ page, (m.ensure a).1 = some page ∧ Ensured m a page (m.ensure a).2 := by
  obtain ⟨hwf, hm, hnode, hlong⟩ := h.ensureNodes_spec a (le_refl 3)
  obtain ⟨page, hpage, hens⟩ := hwf.ensurePage_spec hnode
  refine ⟨page, ?_, ?_⟩
  · exact congrArg Pointer.asPage hpage
  · have hfind : ∀ b, (m.ensureNodes a 3).2.find b = m.find b := fun b => by
      rw [find_eq, hlong (path b) (length_path b), ← find_eq]
    refine ⟨hens.wf, fun b => ?_, fun b page hb => ?_, fun b => ?_,
      hens.stepState.trans hm.stepState⟩
    · exact (hens.find b).trans (by rw [hfind])
    · exact hens.keeps b page ((hfind b).trans hb)
    · exact (hens.byteAt b).trans (byteAt_congr h hfind (fun p _ k => by rw [hm.bytes]) b)

/-! ## Copying into a page -/

/-- A copy into the page of an address, within it. -/
lemma WellFormed.setBytes {m : PagedMemory} (h : m.WellFormed) {a : Address} {page : HostPtr}
    (hpage : m.find a = some page) {k : ℕ} {values : List Byte} (hk : k + values.length ≤ 4096) :
    (m.setBytes (page.plus k) values).WellFormed := by
  obtain ⟨htaken, hunused⟩ := h.taken_of_find hpage
  refine ⟨h.tree, h.node_lt, h.page_taken, h.unused_taken, h.unused_nodup, ?_, ?_,
    h.chunkUsed_le, h.no_chunk⟩
  · intro p hp j hj
    have hapart := (h.unused_taken p hp).apart htaken (fun heq => hunused (heq ▸ hp))
    rw [bytes_setBytes, poke_outside]
    · exact h.unused_zero p hp j hj
    · simp only [Place.plus_block, Place.plus_offset]
      omega
  · intro p h1 h2 h3
    rw [bytes_setBytes, poke_outside]
    · exact h.rest_zero p h1 h2 h3
    · obtain ⟨j, hj, ht⟩ := htaken
      simp only [Place.plus_block, Place.plus_offset]
      simp only [PagedMemory.setBytes] at h1 h2
      omega

lemma find_setBytes (m : PagedMemory) (p : HostPtr) (values : List Byte) (b : Address) :
    (m.setBytes p values).find b = m.find b := rfl

/-- **A copy into the page of an address, from where the address is in it, writes the bytes
that are copied to the addresses that follow it.** -/
theorem WellFormed.byteAt_setBytes {m : PagedMemory} (h : m.WellFormed) {a : Address}
    {page : HostPtr} (hpage : m.find a = some page) {values : List Byte}
    (hlen : a.toNat % 4096 + values.length ≤ 4096) :
    (m.setBytes (page.plus (a.toNat % 4096)) values).byteAt =
      writes m.byteAt (span a values) := by
  funext b
  have ha := a.isLt
  rw [writes_span_apply _ _ _ _ (by omega)]
  by_cases hb : b.toNat / 4096 = a.toNat / 4096
  · -- in the page, the offset decides
    have hbpage : m.find b = some page := by rw [find_congr m hb, hpage]
    rw [byteAt_of_find ((find_setBytes ..).trans hbpage), byteAt_of_find hbpage,
      bytes_setBytes]
    by_cases hle : a.toNat ≤ b.toNat
    · have hoff : page.plus (b.toNat % 4096) =
          (page.plus (a.toNat % 4096)).plus (b.toNat - a.toNat) := by
        rw [Place.plus_plus]
        congr 1
        omega
      rw [if_pos hle, hoff, poke_plus]
    · rw [if_neg hle, poke_outside]
      simp only [Place.plus_block, Place.plus_offset]
      omega
  · -- another page lies apart, and the span doesn't reach it
    have hright : (if a.toNat ≤ b.toNat then (values[b.toNat - a.toNat]?).getD (m.byteAt b)
        else m.byteAt b) = m.byteAt b := by
      split_ifs with hle
      · rw [List.getElem?_eq_none (by omega)]
        rfl
      · rfl
    rw [hright, byteAt, byteAt, find_setBytes]
    cases hfb : m.find b with
    | none => rfl
    | some q =>
      have hne : q ≠ page := fun heq => hb (h.same_page (heq ▸ hfb) hpage)
      have hapart := (h.taken_of_find hfb).1.apart (h.taken_of_find hpage).1 hne
      have hoff := Nat.mod_lt b.toNat (show 4096 > 0 by omega)
      simp only [bytes_setBytes, pageOffset_eq]
      rw [poke_outside]
      simp only [Place.plus_block, Place.plus_offset]
      omega

/-- Where there is no page, zeros are there already. -/
lemma byteAt_eq_writes_zeros {m : PagedMemory} {a : Address} (hnone : m.find a = none)
    {values : List Byte} (hzero : ∀ v ∈ values, v = 0)
    (hlen : a.toNat % 4096 + values.length ≤ 4096) :
    m.byteAt = writes m.byteAt (span a values) := by
  funext b
  have ha := a.isLt
  rw [writes_span_apply _ _ _ _ (by omega)]
  split_ifs with hle
  · cases hget : values[b.toNat - a.toNat]? with
    | none => rfl
    | some v =>
      obtain ⟨hlt, hv⟩ := List.getElem?_eq_some_iff.mp hget
      have hb : b.toNat / 4096 = a.toNat / 4096 := by omega
      rw [byteAt_of_find_none ((find_congr m hb).trans hnone), Option.getD_some]
      exact (hzero v (hv ▸ List.getElem_mem hlt)).symm
  · rfl

end PagedMemory

end BapNative
