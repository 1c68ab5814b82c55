import Retrace.Reply

/-!
# Guards of the edges

Whenever a cell is missed, a guard is asked before anything happens. It may refuse, it may report,
and it may keep notes of its own; what a guard is, is open (`EdgeGuard`), and the machine works with
any. Two guards are given here:

* an `EdgePolicy` looks its answer up in a table with one action for each edge and access;
* an `EdgeRecorder` never refuses and writes down every access that it was asked about.
-/

namespace Retrace

/-- Someone to ask before a cell past an edge is read or written. -/
class EdgeGuard (η : Type u) where
  consult : Access → Edge → Point → η → Reply η Unit

/-! ### Policies -/

inductive EdgeAction where
  /-- Refuse it. -/
  | fatal
  /-- Let it pass and report it. -/
  | warn
  /-- Let it pass in silence. -/
  | permit
  deriving DecidableEq, Repr

structure EdgeRule where
  read : EdgeAction
  write : EdgeAction
  deriving DecidableEq, Repr

structure EdgePolicy where
  top : EdgeRule
  bottom : EdgeRule
  left : EdgeRule
  right : EdgeRule
  deriving DecidableEq, Repr

namespace EdgeRule

def closed : EdgeRule := ⟨.fatal, .fatal⟩

/-- Reads are reported and writes pass, so that the grid can grow here. -/
def elastic : EdgeRule := ⟨.warn, .permit⟩

def action (rule : EdgeRule) : Access → EdgeAction
  | .read => rule.read
  | .write => rule.write

end EdgeRule

namespace EdgePolicy

/-- The grid grows to the right and downward, and is closed on the other sides. -/
def standard : EdgePolicy := ⟨.closed, .elastic, .closed, .elastic⟩

/-- Nothing is refused on any side. -/
def permissive : EdgePolicy := ⟨.elastic, .elastic, .elastic, .elastic⟩

instance : Inhabited EdgePolicy := ⟨standard⟩

def rule (policy : EdgePolicy) : Edge → EdgeRule
  | .top => policy.top
  | .bottom => policy.bottom
  | .left => policy.left
  | .right => policy.right

def action (policy : EdgePolicy) (access : Access) (edge : Edge) : EdgeAction :=
  (policy.rule edge).action access

/-- A policy answers by its table and never changes. -/
instance : EdgeGuard EdgePolicy where
  consult access edge position policy :=
    match policy.action access edge with
    | .fatal =>
      ⟨.error (.boundary access edge position), policy, [.refused access edge position]⟩
    | .warn => ⟨.ok (), policy, [.crossed access edge position]⟩
    | .permit => .done () policy

end EdgePolicy

/-! ### Recorders -/

structure Violation where
  access : Access
  edge : Edge
  position : Point
  deriving DecidableEq, Repr

/-- The written form of a violation, such as `write left {x: -1, y: 0}`. -/
def Violation.render (v : Violation) : String :=
  v.access.render ++ " " ++ v.edge.render ++ " " ++ v.position.render

/-- A guard that lets everything pass and remembers it, the newest violation last. -/
structure EdgeRecorder where
  violations : Array Violation := #[]
  deriving DecidableEq, Repr, Inhabited

instance : EdgeGuard EdgeRecorder where
  consult access edge position recorder :=
    .done () ⟨recorder.violations.push ⟨access, edge, position⟩⟩

end Retrace
