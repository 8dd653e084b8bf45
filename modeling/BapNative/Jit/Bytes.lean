import BapNative.Jit.Memory

/-!
# Byte arrays

Byte arrays that are mostly zeros: `slice`, `pieces`, `resident` and `fill` of
`Bap/Jit.lean`, which say in Lean what they are, and the functions of `native/bap_jit.cpp`
that are run in their place.  The native ones copy only what isn't zeros, into zeros that
take no memory of the host yet, and give the same arrays.

An array is the list of its bytes.  A number of Lean is a scalar below `2^63`, and an array
has fewer bytes than that.
-/

namespace BapNative.Jit

open Block

/-! ## What they are -/

/-- `slice`, which is `ByteArray.extract`. -/
def slice (data : List Byte) (start stop : ℕ) : List Byte := (data.drop start).take (stop - start)

/-- `pieceSize`: how many bytes a piece has, but for the last. -/
def pieceSize : ℕ := 4096

/-- `pieces`: each piece from the start that isn't all zeros, with where it starts. -/
def pieces (data : List Byte) : List (ℕ × List Byte) :=
  (List.range ((data.length + pieceSize - 1) / pieceSize)).filterMap fun index =>
    let piece := slice data (index * pieceSize) (index * pieceSize + pieceSize)
    if piece.all (· == 0) then none else some (index * pieceSize, piece)

/-- `resident`: how many bytes the pieces have. -/
def resident (data : List Byte) : ℕ :=
  (pieces data).foldl (fun total piece => total + piece.2.length) 0

/-- `byteOf`: what `fill` has at an index, from the first piece that has it. -/
def byteOf (pieces : List (ℕ × List Byte)) (index : ℕ) : Byte :=
  match pieces.find? fun piece => piece.1 ≤ index && index < piece.1 + piece.2.length with
  | some piece => piece.2.getD (index - piece.1) 0
  | none => 0

/-- `fill`: zeros with pieces in them. -/
def fill (size : ℕ) (pieces : List (ℕ × List Byte)) : List Byte :=
  (List.range size).map (byteOf pieces)

/-! ## Zeros -/

/-- The arrays that the host gives: where one of a size is, and what is in it. -/
structure Alloc where
  /-- The address of its first byte. -/
  start : ℕ → ℕ
  /-- What is in it, which may be anything. -/
  bytes : ℕ → List Byte
  length_bytes : ∀ size, (bytes size).length = size

/-- `lazyFrom`: how large an array has to be for its pages to be given back. -/
def lazyFrom : ℕ := 65536

/-- `memset` of zeros. -/
def setZeros (data : List Byte) (offset count : ℕ) : List Byte :=
  splice data offset (List.replicate count 0)

/-- `lazyZeros`: an array of zeros, the pages of which are given back to the host if it is
large. -/
def lazyZeros (host : Host) (alloc : Alloc) (size : ℕ) : List Byte :=
  let data := alloc.bytes size
  let start := alloc.start size
  let end_ := start + size
  let first := (start + host.pageSize - 1) / host.pageSize * host.pageSize
  let last := end_ / host.pageSize * host.pageSize
  if host.linux && decide (lazyFrom ≤ size) && decide (first < last) then
    let data := setZeros data 0 (first - start)
    let data := setZeros data (last - start) (end_ - last)
    -- by the system, which gives pages of zeros again, or by `memset` if it doesn't heed
    setZeros data (first - start) (last - first)
  else setZeros data 0 size

lemma length_setZeros {data : List Byte} {offset count : ℕ} (h : offset + count ≤ data.length) :
    (setZeros data offset count).length = data.length :=
  length_splice (by simpa using h)

lemma getElem?_setZeros {data : List Byte} {offset count : ℕ} (h : offset + count ≤ data.length)
    (i : ℕ) : (setZeros data offset count)[i]? =
      if offset ≤ i ∧ i < offset + count then some 0 else data[i]? := by
  rw [setZeros, getElem?_splice (by simpa using h), List.length_replicate]
  split_ifs with hi
  · rw [List.getElem?_replicate_of_lt (by omega)]
  · rfl

/-- **`lazyZeros` gives zeros, whatever was in the array.** -/
theorem lazyZeros_eq (host : Host) (hpage : 0 < host.pageSize) (alloc : Alloc) (size : ℕ) :
    lazyZeros host alloc size = List.replicate size 0 := by
  have hlen := alloc.length_bytes size
  have hall : ∀ {data : List Byte}, data.length = size → (∀ i < size, data[i]? = some 0) →
      data = List.replicate size 0 := by
    intro data hdata hzero
    refine List.eq_replicate_iff.mpr ⟨hdata, fun b hb => ?_⟩
    obtain ⟨i, hi, rfl⟩ := List.getElem_of_mem hb
    have := hzero i (by omega)
    rwa [List.getElem?_eq_getElem hi, Option.some.injEq] at this
  unfold lazyZeros
  simp only
  generalize alloc.start size = start
  have hfirst : start ≤ (start + host.pageSize - 1) / host.pageSize * host.pageSize := by
    have := Nat.lt_div_mul_add (a := start + host.pageSize - 1) hpage
    omega
  have hlast := Nat.div_mul_le_self (start + size) host.pageSize
  generalize (start + host.pageSize - 1) / host.pageSize * host.pageSize = first at hfirst ⊢
  generalize (start + size) / host.pageSize * host.pageSize = last at hlast ⊢
  split_ifs with hlazy
  · have hlt : first < last := by simpa using (Bool.and_eq_true_iff.mp hlazy).2
    have h1 : (setZeros (alloc.bytes size) 0 (first - start)).length = size :=
      (length_setZeros (by omega)).trans hlen
    have h2 : (setZeros (setZeros (alloc.bytes size) 0 (first - start)) (last - start)
        (start + size - last)).length = size := (length_setZeros (by omega)).trans h1
    apply hall
    · exact (length_setZeros (by omega)).trans h2
    · -- before the first page, in the pages, or after the last
      intro i hi
      rw [getElem?_setZeros (by omega), getElem?_setZeros (by omega), getElem?_setZeros (by omega)]
      split_ifs <;> first | rfl | omega
  · apply hall
    · rw [length_setZeros (by omega), hlen]
    · intro i hi
      rw [getElem?_setZeros (by omega), if_pos (by omega)]

/-! ## By the piece -/

/-- `for (start = 0; start < size; start += 4096)`, from a start on. -/
def overPieces {σ : Type*} (size : ℕ) (step : ℕ → σ → σ) (start : ℕ) (s : σ) : σ :=
  if start < size then overPieces size step (start + 4096) (step start s) else s
termination_by size - start
decreasing_by omega

/-- The loop goes through the pieces by their number. -/
lemma overPieces_eq {σ : Type*} (size : ℕ) (step : ℕ → σ → σ) (s : σ) :
    overPieces size step 0 s =
      (List.range ((size + pieceSize - 1) / pieceSize)).foldl
        (fun s index => step (index * pieceSize) s) s := by
  have hfrom : ∀ count k (s : σ), (size + 4095) / 4096 = k + count →
      overPieces size step (k * 4096) s =
        (List.range' k count).foldl (fun s index => step (index * 4096) s) s := by
    intro count
    induction count with
    | zero =>
      intro k s hk
      rw [overPieces, if_neg (by omega)]
      rfl
    | succ count ih =>
      intro k s hk
      rw [overPieces, if_pos (by omega), List.range'_succ, List.foldl_cons,
        ← ih (k + 1) _ (by omega),
        Nat.succ_mul]
  have h := hfrom ((size + 4095) / 4096) 0 s (by omega)
  rw [Nat.zero_mul, ← List.range_eq_range'] at h
  exact h

/-- The piece of an array at an offset, of so many bytes as there are. -/
def pieceAt (data : List Byte) (size start : ℕ) : List Byte :=
  (data.drop start).take (min 4096 (size - start))

lemma length_pieceAt {data : List Byte} {size : ℕ} (hsize : size ≤ data.length) (start : ℕ) :
    (pieceAt data size start).length = min 4096 (size - start) := by
  rw [pieceAt, List.length_take, List.length_drop]
  omega

/-! ## Slices -/

/-- The body of the loop of `sliceBytes`: what isn't all zeros goes into the zeros. -/
def copyPiece (from_ : List Byte) (size done : ℕ) (to_ : List Byte) : List Byte :=
  if !allZero (pieceAt from_ size done) then splice to_ done (pieceAt from_ size done) else to_

/-- `bap_bytes_slice`, by `sliceBytes`. -/
def sliceNative (host : Host) (alloc : Alloc) (data : List Byte) (start stop : ℕ) : List Byte :=
  let total := data.length
  let stop := if stop < 2 ^ 63 then min stop total else total
  let start := if start < 2 ^ 63 then start else total
  let size := if start < stop then stop - start else 0
  let from_ := data.drop (if size = 0 then 0 else start)
  if size < lazyFrom then from_.take size
  else overPieces size (copyPiece from_ size) 0 (lazyZeros host alloc size)

/-- What is copied so far is a copy, and the rest is zeros. -/
lemma overPieces_copyPiece {to_ from_ : List Byte} {size done : ℕ} (hsize : size ≤ from_.length)
    (hto : to_ = from_.take (min done size) ++ List.replicate (size - done) 0) :
    overPieces size (copyPiece from_ size) done to_ = from_.take size := by
  induction hn : size - done using Nat.strongRecOn generalizing to_ done with
  | ind n ih =>
    rw [overPieces]
    split_ifs with hlt
    · refine ih (size - (done + 4096)) (by omega) ?_ rfl
      have hlen := length_pieceAt hsize done
      have hnew : from_.take (min (done + 4096) size) =
          from_.take done ++ pieceAt from_ size done := by
        rw [pieceAt, ← List.take_add,
          show done + min 4096 (size - done) = min (done + 4096) size by omega]
      rw [copyPiece, hnew]
      generalize pieceAt from_ size done = piece at hlen ⊢
      have hold : to_ = from_.take done ++ List.replicate piece.length 0 ++
          List.replicate (size - (done + 4096)) 0 := by
        rw [hto, min_eq_left (by omega), List.append_assoc, ← List.replicate_add, hlen,
          show min 4096 (size - done) + (size - (done + 4096)) = size - done by omega]
      have hdone : (from_.take done).length = done := by
        rw [List.length_take]
        omega
      split_ifs with hzero
      · have hsplice := splice_middle (from_.take done) (List.replicate piece.length 0)
          (List.replicate (size - (done + 4096)) 0) (List.length_replicate (n := piece.length))
        rwa [hdone, ← hold] at hsplice
      · -- zeros are there already
        rw [Bool.not_eq_true', Bool.not_eq_false, allZero_iff] at hzero
        rw [hold, ← List.eq_replicate_of_mem hzero]
    · rw [hto, show size - done = 0 by omega, List.replicate_zero, List.append_nil,
        min_eq_right (by omega)]

/-- **A native slice is a slice.** -/
theorem sliceNative_eq (host : Host) (hpage : 0 < host.pageSize) (alloc : Alloc)
    {data : List Byte} (hdata : data.length < 2 ^ 63) (start stop : ℕ) :
    sliceNative host alloc data start stop = slice data start stop := by
  have hstop : (if stop < 2 ^ 63 then min stop data.length else data.length) =
      min stop data.length := by
    split_ifs <;> omega
  have hstart : min (if start < 2 ^ 63 then start else data.length) data.length =
      min start data.length := by
    split_ifs <;> omega
  unfold sliceNative slice
  simp only [hstop]
  generalize (if start < 2 ^ 63 then start else data.length) = start' at hstart ⊢
  by_cases hempty : start' < min stop data.length
  · -- a slice with bytes in it starts in the array, and is as long as it says
    have hsame : start' = start := by omega
    have hpos : min stop data.length - start ≠ 0 := by omega
    have htake : (data.drop start).take (stop - start) =
        (data.drop start).take (min stop data.length - start) := by
      rw [List.take_eq_take_iff, List.length_drop]
      omega
    rw [if_pos hempty, hsame, if_neg hpos, htake]
    split_ifs
    · rfl
    · refine overPieces_copyPiece (by rw [List.length_drop]; omega) ?_
      rw [lazyZeros_eq host hpage, Nat.zero_min, List.take_zero, List.nil_append, Nat.sub_zero]
  · have hnil : (data.drop start).take (stop - start) = [] := by
      rw [← List.length_eq_zero_iff, List.length_take, List.length_drop]
      omega
    rw [if_neg hempty, hnil, if_pos (by simp [lazyFrom]), List.take_zero]

theorem sliceNative_eq_pastEnd :
    sliceNative Memory.linuxHost ⟨fun _ => 8, fun size => List.replicate size 7,
      fun _ => List.length_replicate⟩ [1, 2, 3] 1 (2 ^ 64) = slice [1, 2, 3] 1 (2 ^ 64) :=
  sliceNative_eq Memory.linuxHost (by decide) _ (by decide) 1 (2 ^ 64)

/-! ## Pieces -/

/-- `bap_bytes_pieces`: where the pieces start that aren't all zeros, and then the pieces, from
the last to the first. -/
def piecesNative (data : List Byte) : List (ℕ × List Byte) :=
  let size := data.length
  let starts := overPieces size (fun start starts =>
    if !allZero (pieceAt data size start) then starts ++ [start] else starts) 0 []
  starts.reverse.foldl (fun list at_ => (at_, pieceAt data size at_) :: list) []

/-- `bap_bytes_resident`: the bytes of the pieces, counted without making them. -/
def residentNative (data : List Byte) : ℕ :=
  let size := data.length
  overPieces size (fun start total =>
    if !allZero (pieceAt data size start) then total + min 4096 (size - start) else total) 0 0

lemma allZero_eq_all (bytes : List Byte) : allZero bytes = bytes.all (· == 0) := by
  rw [Bool.eq_iff_iff, allZero_iff, List.all_eq_true]
  simp

/-- A piece by its number is the piece at its start. -/
lemma slice_piece (data : List Byte) (index : ℕ) :
    slice data (index * pieceSize) (index * pieceSize + pieceSize) =
      pieceAt data data.length (index * pieceSize) := by
  rw [slice, pieceAt, Nat.add_sub_cancel_left, List.take_eq_take_iff, List.length_drop, pieceSize]
  omega

/-- The pieces, with each as it is found. -/
lemma pieces_eq (data : List Byte) :
    pieces data =
      ((List.range ((data.length + pieceSize - 1) / pieceSize)).filter fun index =>
        !allZero (pieceAt data data.length (index * pieceSize))).map fun index =>
          (index * pieceSize, pieceAt data data.length (index * pieceSize)) := by
  rw [pieces, ← List.filterMap_eq_map, List.filterMap_filter]
  congr 1
  funext index
  simp only [slice_piece, allZero_eq_all]
  cases (pieceAt data data.length (index * pieceSize)).all (· == 0) <;> rfl

/-- **The native pieces are the pieces.** -/
theorem piecesNative_eq (data : List Byte) : piecesNative data = pieces data := by
  have hstarts : ∀ l : List ℕ, l.foldl (fun starts index => if !allZero (pieceAt data data.length
      (index * pieceSize)) then starts ++ [index * pieceSize] else starts) [] =
        (l.filter fun index => !allZero (pieceAt data data.length (index * pieceSize))).map
          (· * pieceSize) := by
    intro l
    rw [← List.foldl_filter, ← List.flatMap_eq_foldl, ← List.map_eq_flatMap]
  unfold piecesNative
  simp only
  rw [overPieces_eq, hstarts, List.foldl_reverse, ← List.map_eq_foldr, List.map_map, pieces_eq]
  rfl

/-- **What is counted natively is what the pieces have.** -/
theorem residentNative_eq (data : List Byte) : residentNative data = resident data := by
  have hlen := fun start => length_pieceAt (le_refl data.length) start
  unfold residentNative
  simp only
  rw [overPieces_eq, resident, pieces_eq, List.foldl_map, List.foldl_filter]
  simp only [hlen]

/-! ## Filling -/

/-- What `bap_bytes_fill` does with a piece: as much of it as there is room for. -/
def putPiece (size : ℕ) (to_ : List Byte) (piece : ℕ × List Byte) : List Byte :=
  -- a start that isn't a scalar is past any end
  if 2 ^ 63 ≤ piece.1 then to_
  else if size ≤ piece.1 then to_
  else
    let count := min piece.2.length (size - piece.1)
    if count ≠ 0 then splice to_ piece.1 (piece.2.take count) else to_

/-- `bap_bytes_fill`: zeros with each piece in them, from the last to the first. -/
def fillNative (host : Host) (alloc : Alloc) (size : ℕ) (pieces : List (ℕ × List Byte)) :
    List Byte :=
  let size := size % 2 ^ 64
  pieces.reverse.foldl (putPiece size) (lazyZeros host alloc size)

lemma byteOf_cons (piece : ℕ × List Byte) (pieces : List (ℕ × List Byte)) (i : ℕ) :
    byteOf (piece :: pieces) i =
      if piece.1 ≤ i ∧ i < piece.1 + piece.2.length then piece.2.getD (i - piece.1) 0
      else byteOf pieces i := by
  rw [byteOf, List.find?_cons]
  by_cases hin : piece.1 ≤ i ∧ i < piece.1 + piece.2.length
  · rw [if_pos hin]
    simp [hin]
  · rw [if_neg hin, byteOf]
    have hfalse : (decide (piece.1 ≤ i) && decide (i < piece.1 + piece.2.length)) = false := by
      rw [Bool.and_eq_false_iff, decide_eq_false_iff_not, decide_eq_false_iff_not]
      omega
    simp only [hfalse]

/-- A piece gives its bytes to the indices that it has. -/
lemma putPiece_spec {size : ℕ} (hsize : size < 2 ^ 63) {to_ : List Byte} (hto : to_.length = size)
    (piece : ℕ × List Byte) :
    (putPiece size to_ piece).length = size ∧ ∀ i < size, (putPiece size to_ piece)[i]? =
      if piece.1 ≤ i ∧ i < piece.1 + piece.2.length then some (piece.2.getD (i - piece.1) 0)
      else to_[i]? := by
  unfold putPiece
  simp only
  split_ifs with h1 h2 h3
  · refine ⟨hto, fun i hi => ?_⟩
    rw [if_neg (by omega)]
  · refine ⟨hto, fun i hi => ?_⟩
    rw [if_neg (by omega)]
  · have hlen : (piece.2.take (min piece.2.length (size - piece.1))).length =
        min piece.2.length (size - piece.1) := by
      rw [List.length_take]
      omega
    have hroom : piece.1 + (piece.2.take (min piece.2.length (size - piece.1))).length ≤
        to_.length := by omega
    refine ⟨(length_splice hroom).trans hto, fun i hi => ?_⟩
    rw [getElem?_splice hroom, hlen]
    by_cases hin : piece.1 ≤ i ∧ i < piece.1 + piece.2.length
    · rw [if_pos (by omega), if_pos hin, List.getElem?_take_of_lt (by omega),
        List.getD_eq_getElem?_getD, List.getElem?_eq_getElem (by omega)]
      rfl
    · rw [if_neg (by omega), if_neg hin]
  · refine ⟨hto, fun i hi => ?_⟩
    rw [if_neg (by omega)]

/-- **Native filling is filling.** -/
theorem fillNative_eq (host : Host) (hpage : 0 < host.pageSize) (alloc : Alloc) {size : ℕ}
    (hsize : size < 2 ^ 63) (pieces : List (ℕ × List Byte)) :
    fillNative host alloc size pieces = fill size pieces := by
  have hspec : (fillNative host alloc size pieces).length = size ∧
      ∀ i < size, (fillNative host alloc size pieces)[i]? = some (byteOf pieces i) := by
    rw [fillNative, Nat.mod_eq_of_lt (by omega), lazyZeros_eq host hpage, List.foldl_reverse]
    induction pieces with
    | nil =>
      refine ⟨by simp, fun i hi => ?_⟩
      rw [List.foldr_nil, List.getElem?_replicate_of_lt hi]
      rfl
    | cons piece pieces ih =>
      obtain ⟨hlen, hget⟩ := ih
      obtain ⟨hlen', hget'⟩ := putPiece_spec hsize hlen piece
      rw [List.foldr_cons]
      refine ⟨hlen', fun i hi => ?_⟩
      rw [hget' i hi, hget i hi, byteOf_cons]
      split_ifs <;> rfl
  apply List.ext_getElem?
  intro i
  rw [fill]
  by_cases hi : i < size
  · rw [hspec.2 i hi, List.getElem?_map, List.getElem?_range hi]
    rfl
  · rw [List.getElem?_eq_none (by omega), List.getElem?_eq_none (by simp; omega)]

/-- **Zeros with the pieces of an array in them are the array.** -/
theorem fill_pieces (data : List Byte) : fill data.length (pieces data) = data := by
  apply List.ext_getElem (by simp [fill])
  intro i h1 h2
  simp only [fill, List.getElem_map, List.getElem_range]
  rw [byteOf]
  have hpiece : ∀ piece ∈ pieces data, ∃ k,
      piece = (k * 4096, pieceAt data data.length (k * 4096)) := by
    intro piece hmem
    rw [pieces_eq, List.mem_map] at hmem
    obtain ⟨k, -, rfl⟩ := hmem
    exact ⟨k, rfl⟩
  have hlen := fun start => length_pieceAt (le_refl data.length) start
  have hget : ∀ k, k * 4096 ≤ i → i < k * 4096 + 4096 →
      (pieceAt data data.length (k * 4096)).getD (i - k * 4096) 0 = data[i] := by
    intro k hk1 hk2
    rw [List.getD_eq_getElem?_getD, pieceAt, List.getElem?_take_of_lt (by omega),
      List.getElem?_drop, Nat.add_sub_cancel' hk1, List.getElem?_eq_getElem h2]
    rfl
  split
  · next piece hfind =>
    obtain ⟨k, rfl⟩ := hpiece piece (List.mem_of_find?_eq_some hfind)
    have hin := List.find?_some hfind
    simp only [Bool.and_eq_true, decide_eq_true_eq] at hin
    rw [hlen] at hin
    exact hget k (by omega) (by omega)
  · next hfind =>
    -- the piece that would have it is not among them, as it is all zeros
    rw [List.find?_eq_none] at hfind
    have hzero : allZero (pieceAt data data.length (i / 4096 * 4096)) = true := by
      by_contra hne
      have hmem : (i / 4096 * 4096, pieceAt data data.length (i / 4096 * 4096)) ∈ pieces data := by
        rw [pieces_eq, List.mem_map]
        refine ⟨i / 4096, ?_, rfl⟩
        rw [List.mem_filter, List.mem_range, pieceSize]
        exact ⟨by omega, by simpa using hne⟩
      have hout := hfind _ hmem
      simp only [Bool.and_eq_true, decide_eq_true_eq, hlen] at hout
      omega
    rw [← hget (i / 4096) (by omega) (by omega), List.getD_eq_getElem?_getD]
    cases hbyte : (pieceAt data data.length (i / 4096 * 4096))[i - i / 4096 * 4096]? with
    | none => rfl
    | some byte => exact (allZero_iff.mp hzero byte (List.mem_of_getElem? hbyte)).symm

/-- **Native zeros with the native pieces of an array in them are the array.** -/
theorem fillNative_piecesNative (host : Host) (hpage : 0 < host.pageSize) (alloc : Alloc)
    {data : List Byte} (hdata : data.length < 2 ^ 63) :
    fillNative host alloc data.length (piecesNative data) = data := by
  rw [fillNative_eq host hpage alloc hdata, piecesNative_eq, fill_pieces]

theorem fillNative_piecesNative_few :
    fillNative Memory.linuxHost ⟨fun _ => 8, fun size => List.replicate size 7,
      fun _ => List.length_replicate⟩ 3 (piecesNative [0, 1, 0]) = [0, 1, 0] :=
  fillNative_piecesNative Memory.linuxHost (by decide) _
    (show [0, 1, 0].length < 2 ^ 63 by decide)

end BapNative.Jit
