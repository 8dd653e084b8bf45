import Mathlib

/-!
# Instructions of LLVM

What the instructions of LLVM compute that code is emitted with.  Some are undefined, or
have a result that may not be used, for some of their operands: a division by zero, a
signed one that overflows, a shift by no less than the width.  These are partial here, so
that code which has a value is code that none of this happens in.
-/

namespace BapNative.Llvm

variable {w : ℕ}

/-- `shl`. -/
def shl (x amount : BitVec w) : Option (BitVec w) :=
  if amount.toNat < w then some (x <<< amount.toNat) else none

/-- `lshr`. -/
def lshr (x amount : BitVec w) : Option (BitVec w) :=
  if amount.toNat < w then some (x >>> amount.toNat) else none

/-- `ashr`. -/
def ashr (x amount : BitVec w) : Option (BitVec w) :=
  if amount.toNat < w then some (x.sshiftRight amount.toNat) else none

/-- `udiv`. -/
def udiv (x y : BitVec w) : Option (BitVec w) := if y = 0#w then none else some (x / y)

/-- `urem`. -/
def urem (x y : BitVec w) : Option (BitVec w) := if y = 0#w then none else some (x % y)

/-- When a signed division has a result that fits. -/
def SignedDefined (x y : BitVec w) : Prop :=
  y ≠ 0#w ∧ ¬ (x = BitVec.intMin w ∧ y = BitVec.allOnes w)

instance (x y : BitVec w) : Decidable (SignedDefined x y) :=
  inferInstanceAs (Decidable (_ ∧ _))

/-- `sdiv`. -/
def sdiv (x y : BitVec w) : Option (BitVec w) :=
  if SignedDefined x y then some (x.sdiv y) else none

/-- `srem`. -/
def srem (x y : BitVec w) : Option (BitVec w) :=
  if SignedDefined x y then some (x.srem y) else none

/-- The predicates of `icmp`. -/
inductive Predicate where
  | eq | ne | ult | ule | ugt | uge | slt | sle | sgt | sge
deriving DecidableEq

/-- `icmp`. -/
def icmp : Predicate → BitVec w → BitVec w → Bool
  | .eq, x, y => x == y
  | .ne, x, y => x != y
  | .ult, x, y => x.ult y
  | .ule, x, y => x.ule y
  | .ugt, x, y => y.ult x
  | .uge, x, y => y.ule x
  | .slt, x, y => x.slt y
  | .sle, x, y => x.sle y
  | .sgt, x, y => y.slt x
  | .sge, x, y => y.sle x

/-- `select`. -/
def select {α : Type*} (condition : Bool) (x y : α) : α := if condition then x else y

/-- `zext` of a bit. -/
def zext (w : ℕ) (condition : Bool) : BitVec w := if condition then 1#w else 0#w

@[simp] lemma select_true {α : Type*} (x y : α) : select true x y = x := rfl

@[simp] lemma select_false {α : Type*} (x y : α) : select false x y = y := rfl

lemma icmp_ne_zero (x : BitVec w) : (icmp .ne x 0#w = true) = (x ≠ 0) := by
  simp [icmp]

lemma select_ne_zero {α : Type*} (x : BitVec w) (y z : α) :
    select (icmp .ne x 0#w) y z = if x ≠ 0 then y else z := by
  simp [icmp, select]

/-! ## Where they have a value -/

lemma shl_of_lt {x amount : BitVec w} (h : amount.toNat < w) :
    shl x amount = some (x <<< amount.toNat) := if_pos h

lemma lshr_of_lt {x amount : BitVec w} (h : amount.toNat < w) :
    lshr x amount = some (x >>> amount.toNat) := if_pos h

lemma ashr_of_lt {x amount : BitVec w} (h : amount.toNat < w) :
    ashr x amount = some (x.sshiftRight amount.toNat) := if_pos h

lemma udiv_of_ne {x y : BitVec w} (h : y ≠ 0#w) : udiv x y = some (x / y) := if_neg h

lemma urem_of_ne {x y : BitVec w} (h : y ≠ 0#w) : urem x y = some (x % y) := if_neg h

lemma sdiv_of_defined {x y : BitVec w} (h : SignedDefined x y) : sdiv x y = some (x.sdiv y) :=
  if_pos h

lemma srem_of_defined {x y : BitVec w} (h : SignedDefined x y) : srem x y = some (x.srem y) :=
  if_pos h

/-- A divisor that was replaced by one where it was zero, or where the quotient would not fit,
divides. -/
lemma signedDefined_guarded (hw : 2 ≤ w) (x y : BitVec w) :
    SignedDefined x (select (icmp .eq x (BitVec.intMin w) && icmp .eq y (BitVec.allOnes w)) 1#w
      (select (icmp .eq y 0#w) 1#w y)) := by
  have hone : (1#w).toNat = 1 := by
    rw [BitVec.toNat_ofNat, Nat.mod_eq_of_lt (Nat.one_lt_two_pow (by omega))]
  have hpow : 2 ^ 2 ≤ 2 ^ w := Nat.pow_le_pow_right (by omega) hw
  have hzero : (1#w) ≠ 0#w := by
    intro h
    have := congrArg BitVec.toNat h
    simp at this
    omega
  have hones : (1#w) ≠ BitVec.allOnes w := by
    intro h
    have := congrArg BitVec.toNat h
    rw [hone, BitVec.toNat_allOnes] at this
    omega
  unfold SignedDefined
  simp only [icmp]
  by_cases hover : (x == BitVec.intMin w && y == BitVec.allOnes w) = true
  · rw [hover, select_true]
    exact ⟨hzero, fun h => hones h.2⟩
  · rw [Bool.not_eq_true] at hover
    rw [hover, select_false]
    by_cases hy : y = 0#w
    · rw [hy, beq_self_eq_true, select_true]
      exact ⟨hzero, fun h => hones h.2⟩
    · rw [beq_false_of_ne hy, select_false]
      refine ⟨hy, fun h => ?_⟩
      rw [h.1, h.2] at hover
      simp at hover

end BapNative.Llvm
