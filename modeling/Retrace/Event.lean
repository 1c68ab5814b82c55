import Retrace.Fault

/-!
# Modes, outcomes and events

The vocabulary in which the machine reports on itself: the `Mode` in which it reads cells, the
`Outcome` of a step, and the `Event`s that its operations leave behind. Events are values and are
never printed by the machine; an observer filters them by `Level` and writes the ones that it wants
with `Event.render`.
-/

namespace Retrace

inductive Mode where
  /-- Cells are instructions. -/
  | normal
  /-- Cells are pushed as character codes, up to the next double quote. -/
  | text
  deriving DecidableEq, Repr

def Mode.render : Mode → String
  | normal => "NORMAL"
  | text => "TEXT"

/-- What a step that did not fail has done. -/
inductive Outcome where
  /-- One cell was executed. -/
  | executed
  /-- The machine was not running; nothing happened. -/
  | halted
  /-- The pointer was past the right or bottom edge; nothing happened. -/
  | stalled
  deriving DecidableEq, Repr

def Outcome.render : Outcome → String
  | executed => "Executed"
  | halted => "Halted"
  | stalled => "Stalled"

/-- How much an event matters, from the most to the least. -/
inductive Level where
  | error
  | warn
  | debug
  | trace
  deriving DecidableEq, Repr

namespace Level

def render : Level → String
  | error => "ERROR"
  | warn => "WARN"
  | debug => "DEBUG"
  | trace => "TRACE"

def rank : Level → Nat
  | error => 0
  | warn => 1
  | debug => 2
  | trace => 3

end Level

/-- Something that happened and that an observer may want to know. -/
inductive Event where
  /-- A guard refused an access. -/
  | refused (access : Access) (edge : Edge) (position : Point)
  /-- A guard let an access pass with a warning. -/
  | crossed (access : Access) (edge : Edge) (position : Point)
  /-- A step found `cell` under the pointer and is about to execute it. -/
  | stepping (position : Point) (cell : Char) (mode : Mode)
  /-- A step of `changes` changes is being undone, after which `remaining` steps can be. -/
  | undoing (changes remaining : Nat)
  /-- The oldest step was forgotten to keep within `limit`. -/
  | evicted (limit : Nat)
  /-- A run ended without a fault. -/
  | finished (steps : Nat) (outcome : Outcome)
  /-- The program was given up because of a fault. -/
  | failed (fault : Fault)
  deriving DecidableEq, Repr

namespace Event

def level : Event → Level
  | refused .. => .error
  | crossed .. => .warn
  | stepping .. => .trace
  | undoing .. => .debug
  | evicted .. => .debug
  | finished .. => .debug
  | failed .. => .error

def beyond : Edge → String
  | .top => "above top-most character"
  | .bottom => "below bottom-most character"
  | .left => "left of left-most character"
  | .right => "right of right-most character"

def accessing : Access → String
  | .read => "reading"
  | .write => "writing"

/-- What an event says: a message followed by its fields as `key=value`. -/
def message : Event → String
  | refused access edge position =>
    "cannot " ++ access.render ++ " past " ++ edge.render ++ " of grid position="
      ++ position.render
  | crossed access edge position =>
    accessing access ++ " " ++ beyond edge ++ " position=" ++ position.render
  | stepping position cell mode =>
    "step position=" ++ position.render ++ " opcode=" ++ cell.toString ++ " mode=" ++ mode.render
  | undoing changes remaining =>
    "unstep deltas=" ++ changes.repr ++ " remaining=" ++ remaining.repr
  | evicted limit => "evicted oldest delta group limit=" ++ limit.repr
  | finished steps outcome =>
    "run finished steps=" ++ steps.repr ++ " outcome=" ++ outcome.render
  | failed fault => fault.message

/-- The written form of an event: its level and what it says. -/
def render (e : Event) : String := e.level.render ++ " " ++ e.message

/-- Whether an observer who follows events down to level `least` sees this one. -/
def visibleAt (least : Level) (e : Event) : Bool := e.level.rank ≤ least.rank

end Event

end Retrace
