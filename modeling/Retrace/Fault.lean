import Retrace.Edge
import Retrace.Point

/-!
# Faults

Everything that can go wrong, as causes. The wording of each is `Fault.message`, and nothing in the
machine looks at it.
-/

namespace Retrace

inductive StreamFault where
  /-- The bytes read are not UTF-8. -/
  | invalidText
  /-- The sink has no room for all bytes of a text. -/
  | full
  /-- The path names a directory. -/
  | isDirectory
  /-- The path goes on below something that is no directory. -/
  | notDirectory
  /-- Something else, in the words of the system. -/
  | other (words : String)
  deriving DecidableEq, Repr

def StreamFault.message : StreamFault → String
  | invalidText => "stream did not contain valid UTF-8"
  | full => "failed to write whole buffer"
  | isDirectory => "Is a directory (os error 21)"
  | notDirectory => "Not a directory (os error 20)"
  | other words => words

inductive Fault where
  /-- A guard refused an access past an edge. -/
  | boundary (access : Access) (edge : Edge) (position : Point)
  /-- The divisor of the operator `symbol` at `position` was zero. -/
  | divisionByZero (symbol : Char) (position : Point)
  /-- A write would have grown the grid to `width` by `height` cells, more than `limit`. -/
  | gridTooLarge (width height limit : Nat)
  | inputExhausted
  | fileNotFound (path : String)
  | stream (cause : StreamFault)
  deriving DecidableEq, Repr

def Fault.message : Fault → String
  | boundary access edge position =>
    "cannot " ++ access.render ++ " past " ++ edge.render ++ " of grid at " ++ position.render
  | divisionByZero symbol position =>
    "'" ++ symbol.toString ++ "' by zero at " ++ position.render
  | gridTooLarge width height limit =>
    "grid of " ++ width.repr ++ "x" ++ height.repr ++ " exceeds the limit of " ++ limit.repr
      ++ " cells"
  | inputExhausted => "input exhausted"
  | fileNotFound path => "file " ++ path ++ " is not found"
  | stream cause => cause.message

end Retrace
