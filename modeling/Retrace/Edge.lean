/-!
# The edges of the grid

A cell can be missed in four ways, one for each edge of the grid, and it can be missed by a read or
by a write. Edges and accesses are named here once, for everything that speaks about them: the
guard that is asked, the fault it raises and the event it reports.
-/

namespace Retrace

inductive Edge where
  | top
  | bottom
  | left
  | right
  deriving DecidableEq, Repr

def Edge.render : Edge → String
  | top => "top"
  | bottom => "bottom"
  | left => "left"
  | right => "right"

inductive Access where
  | read
  | write
  deriving DecidableEq, Repr

def Access.render : Access → String
  | read => "read"
  | write => "write"

end Retrace
