import Retrace.Grid.Basic

/-!
# Grids as text

`render` writes the rows of a grid with line feeds between them, and `renderMarked` does the same
with one cell shown as a marker.
-/

namespace Retrace.Grid

def lines (g : Grid) : List String := g.rows.toList.map fun row => String.ofList row.toList

def render (g : Grid) : String := String.intercalate "\n" g.lines

/-- A row in which the cell at `p` is shown as `marker`, if `p` is in row `y`. -/
def markRow (p : Point) (marker : Char) (y : Nat) (row : Array Char) : List Char :=
  row.toList.mapIdx fun x c => if p.x.toInt = x ∧ p.y.toInt = y then marker else c

/-- The text of a grid in which the cell at `p` is shown as `marker`, if `p` is in the grid. -/
def renderMarked (g : Grid) (p : Point) (marker : Char) : String :=
  String.intercalate "\n"
    (g.rows.toList.mapIdx fun y row => String.ofList (markRow p marker y row))

end Retrace.Grid
