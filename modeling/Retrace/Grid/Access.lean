import Retrace.Grid.Basic
import Retrace.Guard

/-!
# Reading and writing under a guard

The plane around the grid can be addressed too. A guard is asked about every edge that an access
crosses; if it does not refuse, then

* a read right of the grid or below it finds no cell, and a read left of it or above it finds a
  space;
* a write left of the grid or above it is skipped, and a write right of it or below it makes it
  grow, unless it would have more cells than its limit. The number of cells is taken as a 64-bit
  word that does not wrap around.

A write is decided by `landing` before it is done by `Grid.put`, so a refused write has no effect
on the grid.
-/

namespace Retrace.Grid

variable {η : Type u} [EdgeGuard η]

/-- The edge that a read at a point is held to cross, if it misses the grid. -/
def missed? (g : Grid) (p : Point) : Option Edge :=
  if (g.width : Int) ≤ p.x.toInt then some .right
  else if (g.height : Int) ≤ p.y.toInt then some .bottom
  else if p.x.toInt < 0 then some .left
  else if p.y.toInt < 0 then some .top
  else none

def beyond : Edge → Option Char
  | .right => none
  | .bottom => none
  | .left => some ' '
  | .top => some ' '

/-- Reads the cell at a point; the result is `none` if there is no cell. -/
def read (g : Grid) (p : Point) (guard : η) : Reply η (Option Char) :=
  match g.missed? p with
  | none => .done (g.get? p) guard
  | some edge => (EdgeGuard.consult .read edge p guard).map fun () => beyond edge

/-- The edges that a write at a point crosses, in the order in which the guard is asked. -/
def crossed (g : Grid) (p : Point) : List Edge :=
  if p.x.toInt < 0 then [.left]
  else if p.y.toInt < 0 then [.top]
  else
    (if (g.width : Int) ≤ p.x.toInt then [.right] else [])
      ++ (if (g.height : Int) ≤ p.y.toInt then [.bottom] else [])

/-- Asks the guard about several edges, up to the first refusal. -/
def consultAll (access : Access) (p : Point) : List Edge → η → Reply η Unit
  | [], guard => .done () guard
  | edge :: rest, guard =>
    (EdgeGuard.consult access edge p guard).andThen fun () guard => consultAll access p rest guard

def greatestWord : Nat := 18446744073709551615

def area (extent : Nat × Nat) : Nat := min (extent.1 * extent.2) greatestWord

/-- Whether a write at a spot is refused because the grid would become too large. -/
def overgrows (g : Grid) (s : Spot) : Bool :=
  !decide (g.Contains s) && decide (g.cellLimit < area (g.extentFor s))

/-- A limit below the greatest word is not exceeded unnoticed. -/
theorem overgrows_iff {g : Grid} (hlimit : g.cellLimit < greatestWord) {s : Spot} :
    g.overgrows s = true ↔
      ¬ g.Contains s ∧ g.cellLimit < (g.extentFor s).1 * (g.extentFor s).2 := by
  have hword : g.cellLimit < area (g.extentFor s) ↔
      g.cellLimit < (g.extentFor s).1 * (g.extentFor s).2 := by
    rw [area, Nat.lt_min]
    exact and_iff_left hlimit
  simp [overgrows, hword]

theorem area_le_of_not_overgrows {g : Grid} (hlimit : g.cellLimit < greatestWord) {s : Spot}
    (hs : g.overgrows s = false) (hout : ¬ g.Contains s) :
    (g.extentFor s).1 * (g.extentFor s).2 ≤ g.cellLimit := by
  apply Nat.not_lt.1
  intro hlarge
  rw [(overgrows_iff hlimit).2 ⟨hout, hlarge⟩] at hs
  cases hs

/-- Decides where a write at a point lands; the result is `none` if the write is skipped. -/
def landing (g : Grid) (p : Point) (guard : η) : Reply η (Option Spot) :=
  (consultAll .write p (g.crossed p) guard).andThen fun () guard =>
    match spot? p with
    | none => .done none guard
    | some s =>
      if g.overgrows s then
        .fail (.gridTooLarge (g.extentFor s).1 (g.extentFor s).2 g.cellLimit) guard
      else .done (some s) guard

/-- Writes a character at a point; the result is the character that was replaced, `none` if the
write was skipped. -/
def write (g : Grid) (p : Point) (c : Char) (guard : η) : Reply (Grid × η) (Option Char) :=
  match g.landing p guard with
  | ⟨.error fault, guard, events⟩ => ⟨.error fault, (g, guard), events⟩
  | ⟨.ok none, guard, events⟩ => ⟨.ok none, (g, guard), events⟩
  | ⟨.ok (some s), guard, events⟩ => ⟨.ok (some (g.replaced s)), (g.put s c, guard), events⟩

end Retrace.Grid
