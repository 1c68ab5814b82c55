import Retrace.Fault
import Retrace.Grid.Basic
import Retrace.Text.Lines
import Retrace.Text.Utf8

/-!
# Grids from text

A text becomes a grid line by line: the grid is as high as there are lines and as wide as the
longest, and shorter lines are filled up with spaces.
-/

namespace Retrace.Grid

/-- The length of the longest of some lines, zero if there are none. -/
def longest (lines : List (List Char)) : Nat := lines.foldl (fun n line => max n line.length) 0

def ofLines (lines : List (List Char)) : Grid :=
  let width := longest lines
  { rows := (lines.map fun line => line.toArray.rightpad width ' ').toArray
    width := width
    height := lines.length
    cellLimit := defaultCellLimit }

def parse (text : String) : Grid := ofLines (Text.programLines text.toList)

inductive Found where
  /-- No such file. -/
  | missing
  /-- A file that cannot be read. -/
  | unreadable (cause : StreamFault)
  /-- The bytes of a file. -/
  | content (bytes : List UInt8)
  deriving DecidableEq, Repr

/-- The grid of the program in the file at `path`, given what was found there. -/
def load (path : String) : Found → Except Fault Grid
  | .missing => .error (.fileNotFound path)
  | .unreadable cause => .error (.stream cause)
  | .content bytes =>
    match Text.decode? bytes with
    | none => .error (.stream .invalidText)
    | some text => .ok (ofLines (Text.programLines text))

end Retrace.Grid
