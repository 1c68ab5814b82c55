import Mathlib.Data.Int.ModEq
import Mathlib.Data.Nat.Digits.Defs
import Retrace.Instruction
import Retrace.Stack

/-!
# Exit codes

A program ends with a number of any size on its stack and the exit code has 32 bits. The code is
made from the low bits of the magnitude, which are negated for a negative number. That this is
reduction modulo `2 ^ 32` into the numbers from `-2 ^ 31` up to but not including `2 ^ 31` is shown
here: the range and the congruence determine the code (`WrapsTo.unique`).

Reduction is a map of rings, so sums, differences and products of exit codes are those of the
numbers (`Operator.ofInt_apply`). Quotients are not, and there is no law for them.
-/

namespace Retrace

/-! ### Reduction to 32 bits -/

/-- `r` is the number that stands for `v` in two's complement with 32 bits. -/
structure WrapsTo (v r : Int) : Prop where
  lower : -2 ^ 31 ≤ r
  upper : r < 2 ^ 31
  congruent : r ≡ v [ZMOD 2 ^ 32]

/-- Truncation to a word is one way to wrap an integer, and by `WrapsTo.unique` the only one. -/
theorem wrapsTo_ofInt (v : Int) : WrapsTo v (Int32.ofInt v).toInt where
  lower := Int32.le_toInt _
  upper := Int32.toInt_lt _
  congruent := by
    rw [Int32.toInt_ofInt]
    exact Int.bmod_emod

/-- Two words that are congruent and both in range differ by less than the modulus, so they are
equal. -/
theorem WrapsTo.unique {v r r' : Int} (h : WrapsTo v r) (h' : WrapsTo v r') : r = r' := by
  obtain ⟨hlower, hupper, hr⟩ := h
  obtain ⟨hlower', hupper', hr'⟩ := h'
  -- The two are congruent, and they are closer to each other than the modulus.
  have hmod : r % 2 ^ 32 = r' % 2 ^ 32 := hr.trans hr'.symm
  omega

/-- The operation on words of 32 bits that stands for an operator, if there is one. -/
def Operator.wrapped? : Operator → Option (Int32 → Int32 → Int32)
  | .add => some (· + ·)
  | .sub => some (· - ·)
  | .mul => some (· * ·)
  | .div => none
  | .rem => none

/-- Wrapping after each operation gives the same as wrapping once at the end. -/
theorem Operator.ofInt_apply {op : Operator} {wrapped : Int32 → Int32 → Int32}
    (h : op.wrapped? = some wrapped) (a b : Int) :
    Int32.ofInt (op.apply a b) = wrapped (Int32.ofInt a) (Int32.ofInt b) := by
  cases op with
  | add => cases h; exact Int32.ofInt_add a b
  | sub => cases h; exact Int32.ofInt_sub a b
  | mul => cases h; exact Int32.ofInt_mul a b
  | div => cases h
  | rem => cases h

namespace Stack

/-! ### Sign and magnitude -/

/-- The code of a number given by its sign and the digits of its magnitude to the base `2 ^ 32`, the
lowest digit first. It is the lowest digit, negated if the number is negative, and zero if there is
no digit. -/
def codeOfDigits (negative : Bool) (digits : List Nat) : Int32 :=
  let low := UInt32.ofNat (digits.headD 0)
  (if negative then -low else low).toInt32

theorem ofNat_headD_digits (n : Nat) :
    UInt32.ofNat ((Nat.digits (2 ^ 32) n).headD 0) = UInt32.ofNat n := by
  cases n with
  | zero => rw [Nat.digits_zero]; rfl
  | succ n =>
    -- The lowest digit is the remainder, and a word is made from it as from the number.
    rw [Nat.digits_def' (by decide) (Nat.succ_pos n), List.headD_cons]
    apply UInt32.toNat_inj.1
    rw [UInt32.toNat_ofNat', UInt32.toNat_ofNat']
    exact Nat.mod_mod (n + 1) _

/-- The least significant digit of the magnitude in base 2^32, and the sign, decide on the exit
code. -/
theorem exitCode_eq_codeOfDigits {s : Stack} {v : Int} (h : s.top? = some v) :
    s.exitCode = codeOfDigits (v < 0) (Nat.digits (2 ^ 32) v.natAbs) := by
  rw [exitCode, h, codeOfDigits, ofNat_headD_digits]
  simp only [decide_eq_true_eq]

/-- Negating the bits of the magnitude is negating the number. -/
theorem exitCode_of_top? {s : Stack} {v : Int} (h : s.top? = some v) :
    s.exitCode = Int32.ofInt v := by
  have hlow : (UInt32.ofNat v.natAbs).toInt32 = Int32.ofInt v.natAbs := by
    rw [UInt32.toInt32_ofNat', Int32.ofInt_eq_ofNat]
  simp only [exitCode, h]
  by_cases hv : v < 0
  · have hneg : -(v.natAbs : Int) = v := by omega
    rw [if_pos hv, UInt32.toInt32_neg, hlow, ← Int32.ofInt_neg, hneg]
  · have hpos : (v.natAbs : Int) = v := by omega
    rw [if_neg hv, hlow, hpos]

/-! ### The exit code of a stack -/

/-- The exit code of this stack is its top value in 32 bits. -/
structure WrapsTop (s : Stack) : Prop where
  empty : s.isEmpty = true → s.exitCode = 0
  /-- The code is the one number of 32 bits that is congruent to the top value. -/
  top : ∀ v, s.top? = some v → ∀ r : Int, s.exitCode.toInt = r ↔ WrapsTo v r
  /-- It can be read off the sign and the digits of the top value. -/
  digits : ∀ v, s.top? = some v →
    s.exitCode = codeOfDigits (v < 0) (Nat.digits (2 ^ 32) v.natAbs)
  /-- Where the top value is a sum, a difference or a product, it is that of the codes, wrapped. -/
  computed : ∀ op wrapped, Operator.wrapped? op = some wrapped →
    ∀ (a b : Int) (left right : Stack), left.top? = some a → right.top? = some b →
      s.top? = some (op.apply a b) → s.exitCode = wrapped left.exitCode right.exitCode

/-- **Exit codes are reductions modulo `2 ^ 32`**, for top values of any size and sign. -/
theorem wrapsTop_exitCode (s : Stack) : s.WrapsTop where
  empty := by
    intro h
    have htop : s.top? = none := List.head?_eq_none_iff.2 (List.isEmpty_iff.1 h)
    rw [exitCode, htop]
  top := by
    intro v hv r
    have hwraps := wrapsTo_ofInt v
    rw [exitCode_of_top? hv]
    constructor
    · intro hr
      rw [← hr]
      exact hwraps
    · intro hr
      exact hwraps.unique hr
  digits := fun v hv => exitCode_eq_codeOfDigits hv
  computed := by
    intro op wrapped hop a b left right ha hb hs
    rw [exitCode_of_top? hs, exitCode_of_top? ha, exitCode_of_top? hb]
    exact Operator.ofInt_apply hop a b

/-- The magnitude is half of the modulus above a multiple of it. -/
example : (ofList [7, -6442450944]).exitCode = -2147483648 := by decide

end Stack

end Retrace
