/-!
# Points and directions

The pointer of the machine lives on a plane of 64-bit coordinates: `x` grows to the right and `y`
grows downward. A `Point` is used both for a place on that plane and for a velocity, the place
reached from the origin in one move. Addition wraps around at 64 bits, so moving is total.

The four unit velocities are named by `Direction`; the only other velocity that the machine takes
is `Point.origin`, at which it rests.
-/

namespace Retrace

/-- A place on the plane, or the velocity that leads there from the origin. -/
@[ext] structure Point where
  x : Int64
  y : Int64
  deriving DecidableEq, Repr, Inhabited

namespace Point

/-- The top-left corner; as a velocity, rest. -/
def origin : Point := ⟨0, 0⟩

/-- Coordinates are added one by one and wrap around at 64 bits. -/
protected def add (p q : Point) : Point := ⟨p.x + q.x, p.y + q.y⟩

instance : Add Point := ⟨Point.add⟩

@[simp] theorem add_x (p q : Point) : (p + q).x = p.x + q.x := rfl

@[simp] theorem add_y (p q : Point) : (p + q).y = p.y + q.y := rfl

def render (p : Point) : String :=
  "\x7bx: " ++ p.x.toInt.repr ++ ", y: " ++ p.y.toInt.repr ++ "\x7d"

end Point

inductive Direction where
  | left
  | up
  | right
  | down
  deriving DecidableEq, Repr

namespace Direction

def velocity : Direction → Point
  | left => ⟨-1, 0⟩
  | up => ⟨0, -1⟩
  | right => ⟨1, 0⟩
  | down => ⟨0, 1⟩

/-- Travelling is never resting. -/
theorem velocity_ne_origin (d : Direction) : d.velocity ≠ Point.origin := by
  cases d <;> decide

end Direction

end Retrace
