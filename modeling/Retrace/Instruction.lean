import Retrace.Point
import Retrace.Text.Digit

/-!
# Instructions

What each character of a program means when it is executed. `decode` gives every character a
meaning; those without one of their own are `nop`, and the pointer just passes over them.
-/

namespace Retrace

inductive Operator where
  | add
  | sub
  | mul
  | div
  | rem
  deriving DecidableEq, Repr

namespace Operator

def symbol : Operator → Char
  | add => '+'
  | sub => '-'
  | mul => '*'
  | div => '/'
  | rem => '%'

/-- Whether an operator has no result of its own for a right operand of zero. -/
def divides : Operator → Bool
  | div => true
  | rem => true
  | _ => false

/-- The result of an operator. Quotients are cut toward zero, remainders have the sign of the left
operand, and both are zero where the right operand is. -/
def apply : Operator → Int → Int → Int
  | add, left, right => left + right
  | sub, left, right => left - right
  | mul, left, right => left * right
  | div, left, right => if right = 0 then 0 else left.tdiv right
  | rem, left, right => if right = 0 then 0 else left.tmod right

end Operator

inductive Instruction where
  | go (d : Direction)
  /-- Take a value; travel one way if it is not zero and the other way if it is. -/
  | branch (nonzero zero : Direction)
  /-- Travel in a direction drawn by chance. -/
  | random
  /-- Jump over the next cell. -/
  | skip
  /-- Replace two values by the result of an operator. -/
  | arith (op : Operator)
  /-- Replace a value by one if it is zero and by zero if not. -/
  | negate
  /-- Replace two values by one if the lower is greater, and by zero if not. -/
  | greater
  /-- Take the following cells as text. -/
  | quote
  /-- Take a value and print it as a number. -/
  | printInt
  /-- Take a value and print it as a character. -/
  | printChar
  | readInt
  | readChar
  | duplicate
  | swap
  | discard
  /-- Take a place and a code and write the character there. -/
  | place
  /-- Take a place and push the code of the character there. -/
  | grab
  /-- Come to rest and stop. -/
  | halt
  | digit (d : Nat)
  | nop
  deriving DecidableEq, Repr

namespace Instruction

def decode (c : Char) : Instruction :=
  match c with
  | '<' => go .left
  | '^' => go .up
  | '>' => go .right
  | 'v' => go .down
  | '←' => branch .left .right
  | '↑' => branch .up .down
  | '→' => branch .right .left
  | '↓' => branch .down .up
  | '?' => random
  | '#' => skip
  | '+' => arith .add
  | '-' => arith .sub
  | '*' => arith .mul
  | '/' => arith .div
  | '%' => arith .rem
  | '!' => negate
  | '\x60' => greater
  | '"' => quote
  | '.' => printInt
  | ',' => printChar
  | '&' => readInt
  | '~' => readChar
  | ':' => duplicate
  | '\\' => swap
  | '$' => discard
  | 'p' => place
  | 'g' => grab
  | '@' => halt
  | c =>
    match Text.digit? c with
    | some d => digit d
    | none => nop

/-- Whether a character has a meaning of its own. -/
def isInstruction (c : Char) : Bool := decode c ≠ nop

theorem decode_symbol (op : Operator) : decode op.symbol = arith op := by
  cases op <;> rfl

end Instruction

end Retrace
