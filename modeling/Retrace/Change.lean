import Retrace.Event
import Retrace.Grid.Basic

/-!
# Changes

A `Change` is what has to be known to take back one primitive effect of a step: the value that was
overwritten, and the operands that were taken, `none` for one that was not there because the stack
was empty. Where two operands were taken, `a` was the upper.
-/

namespace Retrace

/-- A primitive effect, told by what was there before it. -/
inductive Change where
  /-- The pointer left `old`. -/
  | moved (old : Point)
  /-- The velocity was `old`. -/
  | turned (old : Point)
  /-- A value was taken, and the velocity was `old`. -/
  | branched (popped : Option Int) (old : Point)
  /-- Two values gave way to the result of an operator. -/
  | computed (a b : Option Int)
  /-- A value gave way to its negation. -/
  | negated (popped : Option Int)
  /-- Two values gave way to their comparison. -/
  | compared (a b : Option Int)
  /-- The mode was `old`. -/
  | modeSet (old : Mode)
  /-- A value was taken and pushed twice. -/
  | duplicated (popped : Option Int)
  /-- Two values were exchanged. -/
  | swapped (a b : Option Int)
  /-- A value was dropped. -/
  | discarded (popped : Option Int)
  /-- A place and a code were taken, and a character at a spot was replaced, if any was. -/
  | placed (y x v : Option Int) (replaced : Option (Spot × Char))
  /-- A place was taken and a code pushed. -/
  | grabbed (y x : Option Int)
  /-- A value was pushed. -/
  | pushed
  /-- A value was taken and printed as a number. -/
  | printedInt (popped : Option Int) (text : String)
  /-- A value was taken and printed as a character. -/
  | printedChar (popped : Option Int) (text : String)
  /-- A digit was read and pushed. -/
  | readDigit (digit : Nat)
  /-- A character was read and its code pushed. -/
  | readChar (c : Char)
  deriving DecidableEq, Repr

end Retrace
