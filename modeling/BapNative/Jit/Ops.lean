import BapNative.Lib.Llvm

/-!
# The operations of a compiled program

`Op` of `Bap/Jit.lean`, what the operations on slots mean (`denoteBin` and so on, as
`Bap/Proofs/Primus.lean` has it), and what `compileOps` of `native/bap_jit.cpp` emits for
them.  Division and shifts of LLVM are undefined for some operands, and what is emitted
guards them; what comes out is what the operation means, for all operands.
-/

namespace BapNative.Jit

open Llvm

/-- The operations of two slots that `Op.bin` has. -/
inductive BinOp where
  | add | sub | mul | and | or | xor | lshift | rshift
  | eq | neq | lt | le | gt | ge
  | udiv | urem | sdiv | srem | slt | sle | sgt | sge
deriving DecidableEq

/-- An operation of a compiled program, on its slots of 64 bits. -/
inductive Op where
  | set (dst : ℕ) (immediate : BitVec 64)
  | move (dst src : ℕ)
  | add (dst src : ℕ) (immediate : BitVec 64)
  | jump (target : BitVec 64)
  | jumpSlot (src : ℕ)
  | bin (op : BinOp) (dst left right : ℕ)
  | andImm (dst src : ℕ) (immediate : BitVec 64)
  | signExtend (width dst src : ℕ)
  | select (dst condition yes no : ℕ)
  | neg (dst src : ℕ)
  | not (dst src : ℕ)
  | ashr (width dst left right : ℕ)
  | label (id : ℕ)
  | goto (id : ℕ)
  | branch (condition yes no : ℕ)
  | memLoad (dst address size : ℕ) (bigEndian : Bool)
  | memStore (address value size : ℕ) (bigEndian : Bool)
  | code (effectSlot : ℕ) (pc : BitVec 64)
deriving DecidableEq

/-! ## What they mean -/

/-- One or zero. -/
def flag (condition : Bool) : BitVec 64 := if condition then 1 else 0

/-- What `Op.bin` means. -/
def denoteBin : BinOp → BitVec 64 → BitVec 64 → BitVec 64
  | .add, l, r => l + r
  | .sub, l, r => l - r
  | .mul, l, r => l * r
  | .and, l, r => l &&& r
  | .or, l, r => l ||| r
  | .xor, l, r => l ^^^ r
  | .lshift, l, r => if 64 ≤ r.toNat then 0 else l <<< r.toNat
  | .rshift, l, r => if 64 ≤ r.toNat then 0 else l >>> r.toNat
  | .eq, l, r => flag (l == r)
  | .neq, l, r => flag (l != r)
  | .lt, l, r => flag (decide (l.toNat < r.toNat))
  | .le, l, r => flag (decide (l.toNat ≤ r.toNat))
  | .gt, l, r => flag (decide (r.toNat < l.toNat))
  | .ge, l, r => flag (decide (r.toNat ≤ l.toNat))
  | .udiv, l, r => if r = 0 then BitVec.allOnes 64 else l / r
  | .urem, l, r => if r = 0 then l else l % r
  | .sdiv, l, r =>
    if r = 0 then (if l.msb then 1 else BitVec.allOnes 64)
    else if l = BitVec.intMin 64 ∧ r = BitVec.allOnes 64 then l else l.sdiv r
  | .srem, l, r =>
    if r = 0 then l
    else if l = BitVec.intMin 64 ∧ r = BitVec.allOnes 64 then 0 else l.srem r
  | .slt, l, r => flag (decide (l.toInt < r.toInt))
  | .sle, l, r => flag (decide (l.toInt ≤ r.toInt))
  | .sgt, l, r => flag (decide (r.toInt < l.toInt))
  | .sge, l, r => flag (decide (r.toInt ≤ l.toInt))

/-- What `Op.signExtend` means. -/
def denoteSignExtend (width : ℕ) (value : BitVec 64) : BitVec 64 :=
  if width < 64 then (value <<< (64 - width)).sshiftRight (64 - width) else value

/-- What `Op.ashr` means: the amount saturates at the width. -/
def denoteAshr (width : ℕ) (value amount : BitVec 64) : BitVec 64 :=
  value.sshiftRight (if width ≤ amount.toNat then width - 1 else amount.toNat)

/-! ## What is emitted -/

/-- `case 6` and `case 7` of the binary operations: a shift, which is zero by 64 and more. -/
def emitShift (shift : BitVec 64 → BitVec 64 → Option (BitVec 64)) (left right : BitVec 64) :
    Option (BitVec 64) := do
  let large := icmp .uge right 64#64
  let amount := select large 0#64 right
  let shifted ← shift left amount
  return select large 0#64 shifted

/-- The comparisons. -/
def emitCompare (predicate : Predicate) (left right : BitVec 64) : Option (BitVec 64) :=
  some (zext 64 (icmp predicate left right))

/-- `case 14` and `case 15`: a division, with what it is by zero. -/
def emitUnsigned (divide : BitVec 64 → BitVec 64 → Option (BitVec 64))
    (byZero left right : BitVec 64) : Option (BitVec 64) := do
  let isZero := icmp .eq right 0#64
  let divisor := select isZero 1#64 right
  let quotient ← divide left divisor
  return select isZero byZero quotient

/-- `case 16` and `case 17`: a signed division, with what it is by zero and where the quotient
doesn't fit. -/
def emitSigned (divide : BitVec 64 → BitVec 64 → Option (BitVec 64))
    (byZero overflowed left right : BitVec 64) : Option (BitVec 64) := do
  let isZero := icmp .eq right 0#64
  let overflow := icmp .eq left (BitVec.intMin 64) && icmp .eq right (BitVec.allOnes 64)
  let divisor := select isZero 1#64 right
  let divisor := select overflow 1#64 divisor
  let quotient ← divide left divisor
  let result := select overflow overflowed quotient
  return select isZero byZero result

/-- `case 5`. -/
def emitBin (op : BinOp) (left right : BitVec 64) : Option (BitVec 64) :=
  match op with
  | .add => some (left + right)
  | .sub => some (left - right)
  | .mul => some (left * right)
  | .and => some (left &&& right)
  | .or => some (left ||| right)
  | .xor => some (left ^^^ right)
  | .lshift => emitShift Llvm.shl left right
  | .rshift => emitShift Llvm.lshr left right
  | .eq => emitCompare .eq left right
  | .neq => emitCompare .ne left right
  | .lt => emitCompare .ult left right
  | .le => emitCompare .ule left right
  | .gt => emitCompare .ugt left right
  | .ge => emitCompare .uge left right
  | .slt => emitCompare .slt left right
  | .sle => emitCompare .sle left right
  | .sgt => emitCompare .sgt left right
  | .sge => emitCompare .sge left right
  | .udiv => emitUnsigned Llvm.udiv (BitVec.allOnes 64) left right
  | .urem => emitUnsigned Llvm.urem left left right
  | .sdiv =>
    let byZero := select (icmp .slt left 0#64) 1#64 (BitVec.allOnes 64)
    emitSigned Llvm.sdiv byZero left left right
  | .srem => emitSigned Llvm.srem left 0#64 left right

/-- `case 7`. -/
def emitSignExtend (width : ℕ) (value : BitVec 64) : Option (BitVec 64) :=
  if width < 64 then do
    let shift := BitVec.ofNat 64 (64 - width)
    let value ← Llvm.shl value shift
    Llvm.ashr value shift
  else some value

/-- `case 11`. -/
def emitAshr (width : ℕ) (left right : BitVec 64) : Option (BitVec 64) :=
  let large := icmp .uge right (BitVec.ofNat 64 width)
  let amount := select large (BitVec.ofNat 64 (width - 1)) right
  Llvm.ashr left amount

/-! ## What is emitted means the same -/

/-- A shift that has a value below the width. -/
lemma emitShift_eq {shift : BitVec 64 → BitVec 64 → Option (BitVec 64)}
    {shifted : BitVec 64 → ℕ → BitVec 64}
    (hshift : ∀ l r, r.toNat < 64 → shift l r = some (shifted l r.toNat)) (l r : BitVec 64) :
    emitShift shift l r = some (if 64 ≤ r.toNat then 0 else shifted l r.toNat) := by
  have hlarge : icmp .uge r 64#64 = decide (64 ≤ r.toNat) := rfl
  unfold emitShift
  rw [hlarge]
  by_cases hr : 64 ≤ r.toNat
  · rw [decide_eq_true hr, if_pos hr]
    simp [hshift l 0#64 (by simp)]
  · rw [decide_eq_false hr, if_neg hr]
    simp [hshift l r (by omega)]

/-- A division that has a value by all but zero. -/
lemma emitUnsigned_eq {divide : BitVec 64 → BitVec 64 → Option (BitVec 64)}
    {quotient : BitVec 64 → BitVec 64 → BitVec 64}
    (hdivide : ∀ l r, r ≠ 0#64 → divide l r = some (quotient l r)) (byZero l r : BitVec 64) :
    emitUnsigned divide byZero l r = some (if r = 0 then byZero else quotient l r) := by
  have hone : divide l 1#64 = some (quotient l 1#64) := hdivide l 1#64 (by decide)
  unfold emitUnsigned
  by_cases hr : r = 0
  · have hzero : icmp .eq r 0#64 = true := beq_iff_eq.mpr hr
    simp only [hzero, if_pos hr, select_true, hone]
    rfl
  · have hzero : icmp .eq r 0#64 = false := beq_false_of_ne hr
    simp only [hzero, if_neg hr, select_false, hdivide l r hr]
    rfl

/-- A signed division that has a value where its result fits. -/
lemma emitSigned_eq {divide : BitVec 64 → BitVec 64 → Option (BitVec 64)}
    {quotient : BitVec 64 → BitVec 64 → BitVec 64}
    (hdivide : ∀ l r, SignedDefined l r → divide l r = some (quotient l r))
    (byZero overflowed l r : BitVec 64) :
    emitSigned divide byZero overflowed l r = some (if r = 0 then byZero
      else if l = BitVec.intMin 64 ∧ r = BitVec.allOnes 64 then overflowed else quotient l r) := by
  have hguarded := hdivide _ _ (signedDefined_guarded (show 2 ≤ 64 by omega) l r)
  unfold emitSigned
  simp only [hguarded]
  by_cases hr : r = 0
  · have hzero : icmp .eq r 0#64 = true := beq_iff_eq.mpr hr
    rw [hzero, if_pos hr]
    rfl
  · have hzero : icmp .eq r 0#64 = false := beq_false_of_ne hr
    have hoverflow : (icmp .eq l (BitVec.intMin 64) && icmp .eq r (BitVec.allOnes 64)) =
        decide (l = BitVec.intMin 64 ∧ r = BitVec.allOnes 64) := by
      rw [Bool.decide_and]
      rfl
    rw [hzero, hoverflow, if_neg hr]
    by_cases hover : l = BitVec.intMin 64 ∧ r = BitVec.allOnes 64
    · rw [decide_eq_true hover, if_pos hover]
      rfl
    · rw [decide_eq_false hover, if_neg hover]
      rfl

/-- **What is emitted for an operation of two slots is defined for all of their values, and
is what the operation means.** -/
theorem emitBin_eq (op : BinOp) (l r : BitVec 64) : emitBin op l r = some (denoteBin op l r) := by
  cases op with
  | lshift => exact emitShift_eq (fun _ _ h => shl_of_lt h) l r
  | rshift => exact emitShift_eq (fun _ _ h => lshr_of_lt h) l r
  | udiv => exact emitUnsigned_eq (fun _ _ h => udiv_of_ne h) _ l r
  | urem => exact emitUnsigned_eq (fun _ _ h => urem_of_ne h) _ l r
  | sdiv =>
    have hslt : icmp .slt l 0#64 = l.msb := by
      rw [icmp, BitVec.slt_zero_eq_msb]
    rw [emitBin, hslt]
    exact emitSigned_eq (fun _ _ h => sdiv_of_defined h) _ l l r
  | srem => exact emitSigned_eq (fun _ _ h => srem_of_defined h) l 0#64 l r
  | _ => rfl

/-- **What is emitted for a sign extension means it, for the widths that are compiled.** -/
theorem emitSignExtend_eq {width : ℕ} (hpos : 0 < width) (value : BitVec 64) :
    emitSignExtend width value = some (denoteSignExtend width value) := by
  unfold emitSignExtend denoteSignExtend
  split_ifs with hwidth
  · have hamount : (BitVec.ofNat 64 (64 - width)).toNat = 64 - width := by
      rw [BitVec.toNat_ofNat]
      omega
    simp only [shl_of_lt (show (BitVec.ofNat 64 (64 - width)).toNat < 64 by omega),
      Option.bind_eq_bind, Option.bind_some,
      ashr_of_lt (show (BitVec.ofNat 64 (64 - width)).toNat < 64 by omega), hamount]
  · rfl

/-- **What is emitted for an arithmetic shift means it, for the widths that are compiled.** -/
theorem emitAshr_eq {width : ℕ} (hpos : 0 < width) (hwidth : width ≤ 64) (l r : BitVec 64) :
    emitAshr width l r = some (denoteAshr width l r) := by
  have hlarge : icmp .uge r (BitVec.ofNat 64 width) = decide (width ≤ r.toNat) := by
    rw [icmp, BitVec.ule, BitVec.toNat_ofNat, Nat.mod_eq_of_lt (by omega)]
  unfold emitAshr denoteAshr
  simp only [hlarge]
  by_cases hr : width ≤ r.toNat
  · have hamount : (BitVec.ofNat 64 (width - 1)).toNat = width - 1 := by
      rw [BitVec.toNat_ofNat]
      omega
    rw [decide_eq_true hr, select_true, if_pos hr, ashr_of_lt (by omega), hamount]
  · rw [decide_eq_false hr, select_false, if_neg hr, ashr_of_lt (by omega)]

end BapNative.Jit
