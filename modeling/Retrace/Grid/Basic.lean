import Retrace.Point

/-!
# The grid

A program is a rectangle of characters that it can read and overwrite while it runs. The rectangle
grows when something is written to the right of it or below it, and it never shrinks.

The rectangle is stored row by row together with its extent. That the two agree is `Rectangular`;
every grid that is made by parsing has it, and every operation keeps it.
-/

namespace Retrace

/-- A cell's place in the grid, counted from the top-left corner. -/
@[ext] structure Spot where
  x : Nat
  y : Nat
  deriving DecidableEq, Repr

/-- A rectangle of `width` by `height` characters that may grow to at most `cellLimit` cells. -/
structure Grid where
  rows : Array (Array Char)
  width : Nat
  height : Nat
  cellLimit : Nat
  deriving DecidableEq, Repr

namespace Grid

def defaultCellLimit : Nat := 4194304

instance : Inhabited Grid := ⟨⟨#[], 0, 0, defaultCellLimit⟩⟩

/-- The rows are as many as the grid is high, and each is as long as the grid is wide. -/
def Rectangular (g : Grid) : Prop :=
  g.rows.size = g.height ∧ ∀ row ∈ g.rows, row.size = g.width

def Contains (g : Grid) (s : Spot) : Prop := s.x < g.width ∧ s.y < g.height

instance (g : Grid) (s : Spot) : Decidable (g.Contains s) :=
  inferInstanceAs (Decidable (_ ∧ _))

/-- The character at a spot, if the grid reaches that far. -/
def cell? (g : Grid) (s : Spot) : Option Char := g.rows[s.y]?.bind fun row => row[s.x]?

/-- The spot at a point of the plane, if it is neither left of the grid nor above it. -/
def spot? (p : Point) : Option Spot :=
  if p.x.toInt < 0 ∨ p.y.toInt < 0 then none else some ⟨p.x.toInt.toNat, p.y.toInt.toNat⟩

/-- The character at a point of the plane, if the point is in the grid. Nobody is asked. -/
def get? (g : Grid) (p : Point) : Option Char := (spot? p).bind g.cell?

def replaced (g : Grid) (s : Spot) : Char := (g.cell? s).getD ' '

/-- Overwrites the cell at a spot; without an effect outside the grid. -/
def set (s : Spot) (c : Char) (g : Grid) : Grid :=
  { g with rows := g.rows.modify s.y fun row => row.setIfInBounds s.x c }

/-- The extent that a grid needs to reach a spot. -/
def extentFor (g : Grid) (s : Spot) : Nat × Nat := (max g.width (s.x + 1), max g.height (s.y + 1))

/-- Makes the grid reach a spot, filling up with spaces. -/
def growTo (s : Spot) (g : Grid) : Grid :=
  if g.Contains s then g
  else
    let (width, height) := g.extentFor s
    { g with
      rows := (g.rows.map fun row => row.rightpad width ' ').rightpad height
        (Array.replicate width ' ')
      width := width
      height := height }

def put (s : Spot) (c : Char) (g : Grid) : Grid := (g.growTo s).set s c

/-! ### Extents -/

@[simp] theorem width_set (s : Spot) (c : Char) (g : Grid) : (g.set s c).width = g.width := rfl

@[simp] theorem height_set (s : Spot) (c : Char) (g : Grid) : (g.set s c).height = g.height := rfl

@[simp] theorem cellLimit_set (s : Spot) (c : Char) (g : Grid) :
    (g.set s c).cellLimit = g.cellLimit := rfl

@[simp] theorem cellLimit_growTo (s : Spot) (g : Grid) : (g.growTo s).cellLimit = g.cellLimit := by
  unfold growTo; split <;> rfl

end Grid

end Retrace
