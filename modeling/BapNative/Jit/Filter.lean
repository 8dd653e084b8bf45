import BapNative.Lib.OrderedMap
import BapNative.Paged.Words

/-!
# Where no observer need be called

`MemoryFilter` of `native/bap_jit.cpp`: the ranges of addresses where the memory observer
would do nothing, by their first address, none overlapping.  An access that lies within one
of them, of a kind that it lets through, needs no call of the observer.

That the ranges are apart is what lets the filter look at one of them only, the last that
starts no later than the access.
-/

namespace BapNative.Jit

open OrderedMap PagedMemory

/-- `MemoryFilter::Range`. -/
structure Range where
  first : Address
  last : Address
  readQuiet : Bool
  writeQuiet : Bool
deriving DecidableEq

namespace Range

/-- What the map has a range under. -/
def key (range : Range) : ℕ := range.first.toNat

/-- Whether a range lets accesses of a kind through. -/
def quiet (range : Range) (write : Bool) : Bool :=
  if write then range.writeQuiet else range.readQuiet

/-- Two ranges with no address in common. -/
def Apart (range other : Range) : Prop := range.last < other.first ∨ other.last < range.first

/-- An access that lies within a range, and does not pass the end of the address space. -/
structure Within (range : Range) (address : Address) (size : ℕ) : Prop where
  pos : 0 < size
  fits : address.toNat + size ≤ 2 ^ 64
  first_le : range.first.toNat ≤ address.toNat
  le_last : address.toNat + size ≤ range.last.toNat + 1

lemma Apart.symm {range other : Range} (h : range.Apart other) : other.Apart range := Or.symm h

/-- Ranges that an access lies within both of are not apart. -/
lemma Within.not_apart {range other : Range} {address : Address} {size : ℕ}
    (h : range.Within address size) (h' : other.Within address size) : ¬ range.Apart other := by
  have hpos := h.pos
  have hle := h.le_last
  have hle' := h'.le_last
  have hfirst := h.first_le
  have hfirst' := h'.first_le
  rintro (hapart | hapart)
  · rw [BitVec.lt_def] at hapart
    omega
  · rw [BitVec.lt_def] at hapart
    omega

end Range

/-! ## The functions -/

/-- Whether a range goes in apart from those there. -/
def insertable (ranges : List Range) (range : Range) : Bool :=
  !decide (range.last < range.first) &&
  ((above Range.key ranges range.key).head?.all fun after =>
    !decide (after.first ≤ range.last)) &&
  ((below Range.key ranges range.key).getLast?.all fun before =>
    !decide (range.first ≤ before.last))

/-- Ranges in order, none empty and none overlapping. -/
structure Ordered (ranges : List Range) : Prop where
  sorted : Sorted Range.key ranges
  nonempty : ∀ range ∈ ranges, range.first ≤ range.last
  apart : ∀ range ∈ ranges, ∀ other ∈ ranges, range ≠ other → range.Apart other

lemma ordered_nil : Ordered [] := ⟨sorted_nil, by simp, by simp⟩

/-- **A range goes in if it isn't empty and has no address of those that are there.** -/
theorem Ordered.insertable_iff {ranges : List Range} (h : Ordered ranges) {range : Range} :
    insertable ranges range = true ↔
      range.first ≤ range.last ∧ ∀ other ∈ ranges, other.Apart range := by
  have hkey : ∀ other : Range, other.key = other.first.toNat := fun _ => rfl
  simp only [insertable, Bool.and_eq_true, Bool.not_eq_true', decide_eq_false_iff_not,
    Option.all_eq_true, BitVec.not_lt, BitVec.not_le]
  constructor
  · rintro ⟨⟨hrange, hafter⟩, hbefore⟩
    refine ⟨hrange, fun other hother => ?_⟩
    rcases le_or_gt other.key range.key with hle | hlt
    · -- it starts no later, and the last such range ends no sooner
      cases hlast : (below Range.key ranges range.key).getLast? with
      | none => exact absurd (h.sorted.getLast_below_none hlast other hother) (not_lt.mpr hle)
      | some before =>
        obtain ⟨hmem, -, hmax⟩ := h.sorted.getLast_below hlast
        have hend := hbefore before hlast
        refine Or.inl ?_
        by_cases heq : other = before
        · rwa [heq]
        · have hle' := hmax other hother hle
          have hnonempty := h.nonempty before hmem
          have hnonempty' := h.nonempty other hother
          rw [hkey, hkey] at hle'
          rcases h.apart other hother before hmem heq with hapart | hapart <;>
          · rw [BitVec.lt_def] at hapart hend ⊢
            rw [BitVec.le_def] at hnonempty hnonempty'
            omega
    · -- it starts later, and the first such range starts no later
      cases hfirst : (above Range.key ranges range.key).head? with
      | none => exact absurd (h.sorted.head_above_none hfirst other hother) (not_le.mpr hlt)
      | some after =>
        obtain ⟨-, -, hmin⟩ := h.sorted.head_above hfirst
        have hstart := hafter after hfirst
        have hle' := hmin other hother hlt
        refine Or.inr ?_
        rw [hkey, hkey] at hle'
        rw [BitVec.lt_def] at hstart ⊢
        omega
  · rintro ⟨hrange, hapart⟩
    refine ⟨⟨hrange, fun after hafter => ?_⟩, fun before hbefore => ?_⟩
    · obtain ⟨hmem, hlt, -⟩ := h.sorted.head_above hafter
      have hnonempty := h.nonempty after hmem
      rw [hkey, hkey] at hlt
      rcases hapart after hmem with hlast | hlast
      · rw [BitVec.lt_def] at hlast
        rw [BitVec.le_def] at hnonempty
        omega
      · exact hlast
    · obtain ⟨hmem, hle, -⟩ := h.sorted.getLast_below hbefore
      rw [hkey, hkey] at hle
      rcases hapart before hmem with hlast | hlast
      · exact hlast
      · rw [BitVec.lt_def] at hlast
        rw [BitVec.le_def] at hrange
        omega

/-- Its key is new to the map. -/
lemma Ordered.key_notMem {ranges : List Range} (h : Ordered ranges) {range : Range}
    (hins : insertable ranges range = true) : range.key ∉ ranges.map Range.key := by
  obtain ⟨hrange, hapart⟩ := h.insertable_iff.mp hins
  intro hmem
  obtain ⟨other, hother, heq⟩ := List.mem_map.mp hmem
  have hfirst : other.first.toNat = range.first.toNat := heq
  have hnonempty := h.nonempty other hother
  rw [BitVec.le_def] at hrange hnonempty
  rcases hapart other hother with hlt | hlt <;>
  · rw [BitVec.lt_def] at hlt
    omega

lemma Ordered.emplace {ranges : List Range} (h : Ordered ranges) {range : Range}
    (hins : insertable ranges range = true) : Ordered (emplace Range.key ranges range) := by
  obtain ⟨hrange, hapart⟩ := h.insertable_iff.mp hins
  have hnew := h.key_notMem hins
  refine ⟨h.sorted.emplace range, fun other hother => ?_, fun one hone other hother hne => ?_⟩
  · rcases (mem_emplace hnew).mp hother with rfl | hother
    · exact hrange
    · exact h.nonempty other hother
  · rcases (mem_emplace hnew).mp hone with rfl | hone'
    · rcases (mem_emplace hnew).mp hother with rfl | hother'
      · exact absurd rfl hne
      · exact (hapart other hother').symm
    · rcases (mem_emplace hnew).mp hother with rfl | hother'
      · exact hapart one hone'
      · exact h.apart one hone' other hother' hne

lemma Ordered.erase {ranges : List Range} (h : Ordered ranges) (k : ℕ) :
    Ordered (erase Range.key ranges k) :=
  ⟨h.sorted.erase k, fun range hrange => h.nonempty range (mem_erase.mp hrange).1,
    fun range hrange other hother =>
      h.apart range (mem_erase.mp hrange).1 other (mem_erase.mp hother).1⟩

/-- A `MemoryFilter`. -/
structure MemoryFilter where
  /-- Its ranges, by their first address. -/
  ranges : List Range
  /-- They are in order and apart. -/
  ordered : Ordered ranges

namespace MemoryFilter

/-- A filter that lets nothing through. -/
def empty : MemoryFilter := ⟨[], ordered_nil⟩

/-- `quietRange`: the range that an access lies within, of the kind it lets through. -/
def quietRange (filter : MemoryFilter) (address : Address) (size : ℕ) (write : Bool) :
    Option Range :=
  if size = 0 then none
  else
    let last := address + BitVec.ofNat 64 size - 1
    if last < address then none
    else
      match (below Range.key filter.ranges address.toNat).getLast? with
      | none => none
      | some range => if last ≤ range.last ∧ range.quiet write then some range else none

/-- `insert`: puts in a range that is apart from those there. -/
def insert (filter : MemoryFilter) (range : Range) : Option MemoryFilter :=
  if h : insertable filter.ranges range = true then
    some ⟨emplace Range.key filter.ranges range, filter.ordered.emplace h⟩
  else none

/-- `ranges.erase`. -/
def erase (filter : MemoryFilter) (first : Address) : MemoryFilter :=
  ⟨OrderedMap.erase Range.key filter.ranges first.toNat, filter.ordered.erase first.toNat⟩

/-- Puts in one range after the other, up to one that isn't apart, and whether there was none. -/
def insertAll (filter : MemoryFilter) : List Range → MemoryFilter × Bool
  | [] => (filter, true)
  | range :: ranges =>
    match filter.insert range with
    | none => (filter, false)
    | some filter => filter.insertAll ranges

end MemoryFilter

/-- A range as Lean gives it: bit 1 lets a load through and bit 2 a store. -/
def givenRange (first last : Address) (quiet : BitVec 8) : Range :=
  ⟨first, last, quiet &&& 1#8 != 0#8, quiet &&& 2#8 != 0#8⟩

/-- The ranges of three arrays. -/
def givenRanges (firsts lasts : List Address) (quiet : List (BitVec 8)) : List Range :=
  (firsts.zip (lasts.zip quiet)).map fun given => givenRange given.1 given.2.1 given.2.2

/-- `bap_jit_memory_filter_create`. -/
def createMemoryFilter (firsts lasts : List Address) (quiet : List (BitVec 8)) :
    Except String MemoryFilter :=
  if lasts.length ≠ firsts.length ∨ quiet.length ≠ firsts.length then
    .error "JIT memory filter ranges have different lengths"
  else
    match MemoryFilter.empty.insertAll (givenRanges firsts lasts quiet) with
    | (filter, true) => .ok filter
    | (_, false) => .error "JIT memory filter ranges are not apart"

/-- `bap_jit_memory_filter_update`: takes out the ranges that start at `removed`, then puts in
those given, and says whether they are all apart. -/
def updateMemoryFilter (filter : MemoryFilter) (removed firsts lasts : List Address)
    (quiet : List (BitVec 8)) : MemoryFilter × Bool :=
  let filter := removed.foldl MemoryFilter.erase filter
  if lasts.length ≠ firsts.length ∨ quiet.length ≠ firsts.length then (filter, false)
  else filter.insertAll (givenRanges firsts lasts quiet)

/-! ## What is let through -/

namespace MemoryFilter

/-- The last address of an access that doesn't pass the end of the address space. -/
lemma toNat_accessLast {address : Address} {size : ℕ} (hpos : 0 < size)
    (hfits : address.toNat + size ≤ 2 ^ 64) :
    (address + BitVec.ofNat 64 size - 1).toNat = address.toNat + size - 1 := by
  rw [BitVec.toNat_sub, BitVec.toNat_add, BitVec.toNat_ofNat, show (1 : Address).toNat = 1 from rfl]
  have hlt := address.isLt
  omega

/-- An access passes the end of the address space when it ends before it starts. -/
lemma accessLast_lt_iff {address : Address} {size : ℕ} (hpos : 0 < size) (hsize : size < 2 ^ 64) :
    address + BitVec.ofNat 64 size - 1 < address ↔ 2 ^ 64 < address.toNat + size := by
  have hlt := address.isLt
  rw [BitVec.lt_def, BitVec.toNat_sub, BitVec.toNat_add, BitVec.toNat_ofNat,
    show (1 : Address).toNat = 1 from rfl]
  omega

/-- **The filter finds the range of an access exactly when there is one that it lies wholly
within and that lets its kind through.** -/
theorem quietRange_eq_some_iff {filter : MemoryFilter} {address : Address} {size : ℕ}
    (hsize : size < 2 ^ 64) {write : Bool} {range : Range} :
    filter.quietRange address size write = some range ↔
      range ∈ filter.ranges ∧ range.Within address size ∧ range.quiet write = true := by
  have hordered := filter.ordered
  unfold quietRange
  simp only
  split_ifs with hzero hlast
  · constructor
    · rintro ⟨⟩
    · rintro ⟨-, hwithin, -⟩
      exact absurd hwithin.pos (by omega)
  · rw [accessLast_lt_iff (by omega) hsize] at hlast
    constructor
    · rintro ⟨⟩
    · rintro ⟨-, hwithin, -⟩
      exact absurd hwithin.fits (by omega)
  · rw [accessLast_lt_iff (by omega) hsize, not_lt] at hlast
    have hend := toNat_accessLast (show 0 < size by omega) hlast
    cases hbelow : (below Range.key filter.ranges address.toNat).getLast? with
    | none =>
      constructor
      · rintro ⟨⟩
      · rintro ⟨hmem, hwithin, -⟩
        have hlt := hordered.sorted.getLast_below_none hbelow range hmem
        exact absurd hwithin.first_le (not_le.mpr hlt)
    | some found =>
      obtain ⟨hfound, hle, hmax⟩ := hordered.sorted.getLast_below hbelow
      simp only
      split_ifs with hquiet
      · obtain ⟨hquietLast, hkind⟩ := hquiet
        rw [BitVec.le_def, hend] at hquietLast
        have hwithin : found.Within address size := ⟨by omega, hlast, hle, by omega⟩
        constructor
        · rintro h
          obtain rfl := Option.some.inj h
          exact ⟨hfound, hwithin, hkind⟩
        · rintro ⟨hmem, hwithin', -⟩
          by_contra hne
          exact hwithin.not_apart hwithin' (hordered.apart found hfound range hmem fun heq =>
            hne (congrArg some heq))
      · constructor
        · rintro ⟨⟩
        · rintro ⟨hmem, hwithin, hkind⟩
          obtain ⟨hpos, -, hfirst, hend'⟩ := hwithin
          -- the range of the access is the one found, as it starts no later and ends no sooner
          have heq : range = found := by
            by_contra hne
            have hle' : range.first.toNat ≤ found.first.toNat := hmax range hmem hfirst
            have hstart : found.first.toNat ≤ address.toNat := hle
            have hfoundEnd := hordered.nonempty found hfound
            rw [BitVec.le_def] at hfoundEnd
            rcases hordered.apart range hmem found hfound hne with hapart | hapart <;>
            · rw [BitVec.lt_def] at hapart
              omega
          refine absurd ?_ hquiet
          rw [BitVec.le_def, hend, ← heq]
          exact ⟨by omega, hkind⟩

/-! ## What a filter is made of -/

lemma mem_insert {filter filter' : MemoryFilter} {range : Range}
    (h : filter.insert range = some filter') {other : Range} :
    other ∈ filter'.ranges ↔ other = range ∨ other ∈ filter.ranges := by
  unfold insert at h
  split_ifs at h with hins
  obtain rfl := Option.some.inj h
  exact mem_emplace (filter.ordered.key_notMem hins)

/-- Ranges that can go in together: none empty, and all apart. -/
def Insertable (filter : MemoryFilter) (ranges : List Range) : Prop :=
  (∀ range ∈ ranges, range.first ≤ range.last) ∧
  (∀ range ∈ ranges, ∀ other ∈ filter.ranges, other.Apart range) ∧ ranges.Pairwise Range.Apart

/-- **Ranges go in one after the other exactly when they are apart, from each other and from
those there, and then they are there.** -/
theorem insertAll_spec (filter : MemoryFilter) (ranges : List Range) :
    ((filter.insertAll ranges).2 = true ↔ filter.Insertable ranges) ∧
    ((filter.insertAll ranges).2 = true → ∀ range,
      range ∈ (filter.insertAll ranges).1.ranges ↔ range ∈ ranges ∨ range ∈ filter.ranges) := by
  induction ranges generalizing filter with
  | nil => simp [insertAll, Insertable]
  | cons range ranges ih =>
    rw [insertAll]
    cases hins : filter.insert range with
    | none =>
      have hnot : ¬ insertable filter.ranges range = true := by
        intro htrue
        simp [insert, htrue] at hins
      rw [filter.ordered.insertable_iff] at hnot
      refine ⟨⟨?_, ?_⟩, ?_⟩
      · rintro ⟨⟩
      · rintro ⟨hnonempty, hapart, -⟩
        exact absurd ⟨hnonempty range List.mem_cons_self, hapart range List.mem_cons_self⟩ hnot
      · rintro ⟨⟩
    | some filter' =>
      have hins' : insertable filter.ranges range = true := by
        by_contra hnot
        simp [insert, hnot] at hins
      rw [filter.ordered.insertable_iff] at hins'
      obtain ⟨hrange, hapart⟩ := hins'
      obtain ⟨hiff, hmem⟩ := ih filter'
      refine ⟨hiff.trans ?_, fun h other => ?_⟩
      · constructor
        · rintro ⟨hnonempty, hold, hpair⟩
          refine ⟨?_, ?_, List.pairwise_cons.mpr ⟨fun other hother => ?_, hpair⟩⟩
          · intro other hother
            rcases List.mem_cons.mp hother with rfl | hother'
            · exact hrange
            · exact hnonempty other hother'
          · intro other hother old hmem'
            rcases List.mem_cons.mp hother with rfl | hother'
            · exact hapart old hmem'
            · exact hold other hother' old ((mem_insert hins).mpr (Or.inr hmem'))
          · exact hold other hother range ((mem_insert hins).mpr (Or.inl rfl))
        · rintro ⟨hnonempty, hold, hpair⟩
          obtain ⟨hhead, htail⟩ := List.pairwise_cons.mp hpair
          refine ⟨fun other hother => hnonempty other (List.mem_cons_of_mem _ hother), ?_, htail⟩
          intro other hother old hmem'
          rcases (mem_insert hins).mp hmem' with rfl | hmem'
          · exact hhead other hother
          · exact hold other (List.mem_cons_of_mem _ hother) old hmem'
      · rw [hmem h, mem_insert hins, List.mem_cons]
        tauto

end MemoryFilter

/-- **A filter is made of arrays exactly when they have one length and their ranges aren't empty
and are apart, and it has those ranges then.** -/
theorem createMemoryFilter_ok_iff {firsts lasts : List Address} {quiet : List (BitVec 8)} :
    ((∃ filter, createMemoryFilter firsts lasts quiet = .ok filter) ↔
      lasts.length = firsts.length ∧ quiet.length = firsts.length ∧
        (∀ range ∈ givenRanges firsts lasts quiet, range.first ≤ range.last) ∧
        (givenRanges firsts lasts quiet).Pairwise Range.Apart) ∧
    ∀ filter, createMemoryFilter firsts lasts quiet = .ok filter →
      ∀ range, range ∈ filter.ranges ↔ range ∈ givenRanges firsts lasts quiet := by
  obtain ⟨hiff, hmem⟩ :=
    MemoryFilter.empty.insertAll_spec (givenRanges firsts lasts quiet)
  have hempty : MemoryFilter.empty.ranges = [] := rfl
  rw [createMemoryFilter]
  split_ifs with hlen
  · refine ⟨⟨?_, ?_⟩, fun filter hcreate => by simp at hcreate⟩
    · rintro ⟨filter, ⟨⟩⟩
    · rintro ⟨hlast, hquiet, -⟩
      exact absurd hlen (by simp [hlast, hquiet])
  · rw [not_or, not_not, not_not] at hlen
    rw [MemoryFilter.Insertable, hempty] at hiff
    cases hall : MemoryFilter.empty.insertAll (givenRanges firsts lasts quiet) with
    | mk filter done =>
      rw [hall, hempty] at hmem
      rw [hall] at hiff
      cases done with
      | true =>
        obtain ⟨hnonempty, -, hpair⟩ := hiff.mp rfl
        refine ⟨⟨fun _ => ⟨hlen.1, hlen.2, hnonempty, hpair⟩, fun _ => ⟨filter, rfl⟩⟩, ?_⟩
        intro filter' hcreate range
        obtain rfl : filter = filter' := Except.ok.inj hcreate
        simpa using hmem rfl range
      | false =>
        refine ⟨⟨?_, ?_⟩, fun filter' hcreate => by simp at hcreate⟩
        · rintro ⟨filter', ⟨⟩⟩
        · rintro ⟨-, -, hnonempty, hpair⟩
          exact absurd (hiff.mpr ⟨hnonempty, by simp, hpair⟩) (by simp)

lemma mem_foldl_erase (filter : MemoryFilter) (removed : List Address) (range : Range) :
    range ∈ (removed.foldl MemoryFilter.erase filter).ranges ↔
      range ∈ filter.ranges ∧ range.first ∉ removed := by
  induction removed generalizing filter with
  | nil => simp
  | cons first removed ih =>
    have herase : range ∈ (filter.erase first).ranges ↔
        range ∈ filter.ranges ∧ range.first ≠ first := by
      rw [MemoryFilter.erase, mem_erase, Range.key, Ne, Ne, BitVec.toNat_inj]
    rw [List.foldl_cons, ih, herase, List.mem_cons]
    tauto

/-- **When `updateMemoryFilter` says `true`, the filter has the ranges that it had, but for
those that start at what was removed, and those given.** -/
theorem updateMemoryFilter_spec {filter filter' : MemoryFilter}
    {removed firsts lasts : List Address} {quiet : List (BitVec 8)}
    (h : updateMemoryFilter filter removed firsts lasts quiet = (filter', true)) (range : Range) :
    range ∈ filter'.ranges ↔ range ∈ givenRanges firsts lasts quiet ∨
      range ∈ filter.ranges ∧ range.first ∉ removed := by
  unfold updateMemoryFilter at h
  simp only at h
  split_ifs at h with hlen
  · simp at h
  · obtain ⟨-, hmem⟩ := (removed.foldl MemoryFilter.erase filter).insertAll_spec
      (givenRanges firsts lasts quiet)
    rw [h] at hmem
    rw [hmem rfl, mem_foldl_erase]

/-- A filter of a page. -/
def pageFilter : MemoryFilter :=
  match createMemoryFilter [0x2000] [0x2FFF] [3] with
  | .ok filter => filter
  | .error _ => .empty

theorem updateMemoryFilter_spec_pageFilter :
    (⟨0x2000, 0x2FFF, true, false⟩ : Range) ∈ (updateMemoryFilter pageFilter [0x2000]
      [0x2000, 0x4000] [0x2FFF, 0x4FFF] [1, 2]).1.ranges :=
  (updateMemoryFilter_spec (show updateMemoryFilter pageFilter [0x2000] [0x2000, 0x4000]
    [0x2FFF, 0x4FFF] [1, 2] = (_, true) from Prod.ext rfl (by decide +kernel)) _).mpr
    (.inl (by decide))

end BapNative.Jit
