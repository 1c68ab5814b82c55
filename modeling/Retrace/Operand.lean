import Retrace.Point

/-!
# Operands as places and characters

Values on the stack have no bounds, but places and characters do. A value is taken for a coordinate
by going to the nearest 64-bit integer, and for a character by its code point, where a value that is
no code point stands for the replacement character.
-/

namespace Retrace

/-- The 64-bit integer nearest to a value. -/
def saturate (v : Int) : Int64 :=
  if v < Int64.minValue.toInt then Int64.minValue
  else if Int64.maxValue.toInt < v then Int64.maxValue
  else Int64.ofInt v

/-- The character with code point `v`, or the replacement character if there is none. -/
def charOfCode (v : Int) : Char :=
  if 0 ≤ v ∧ v.toNat.isValidChar then Char.ofNat v.toNat else '\uFFFD'

def codeOf (c : Char) : Int := c.toNat

@[simp] theorem charOfCode_codeOf (c : Char) : charOfCode (codeOf c) = c := by
  have h : c.toNat.isValidChar := c.valid
  simp [charOfCode, codeOf, h]

end Retrace
