import Retrace.Change
import Retrace.Instruction
import Retrace.Operand
import Retrace.Stack

/-!
# The state of the machine and what is done to it

A `State` is all that a program itself can see and change: the grid, the pointer, the stack. What
happens to it in a step is a `Deed`, which has everything in it that had to be asked of others, such
as the character that was read. Doing it (`State.perform`) therefore cannot fail, and gives the
changes along with the new state. Each change can be taken back on its own by `State.revert`, which
cannot fail either.

Taking back restores everything but two things: a grid that has grown keeps its extent, and a
machine that has stopped stays stopped.
-/

namespace Retrace

/-- The grid, the pointer with its velocity, the stack, the mode, and whether the machine runs. -/
structure State where
  grid : Grid
  position : Point := .origin
  velocity : Point := Direction.right.velocity
  stack : Stack := .empty
  mode : Mode := .normal
  running : Bool := true
  deriving DecidableEq, Inhabited

/-- Something to be done in a step, after everything it depends on is known. -/
inductive Deed where
  /-- Come to rest and stop. -/
  | halt
  | turn (d : Direction)
  /-- Take a value; travel one way if it is not zero and the other way if it is. -/
  | branch (nonzero zero : Direction)
  /-- Move once more. -/
  | skip
  /-- Replace two values by the result of an operator. -/
  | compute (op : Operator)
  /-- Replace a value by one if it is zero and by zero if not. -/
  | negate
  /-- Replace two values by one if the lower is greater, and by zero if not. -/
  | compare
  | setMode (mode : Mode)
  | push (v : Int)
  /-- Drop the value that was printed as the number `text`. -/
  | printInt (text : String)
  /-- Drop the value that was printed as the character `text`. -/
  | printChar (text : String)
  /-- Push the digit that was read. -/
  | readDigit (d : Nat)
  /-- Push the code of the character that was read. -/
  | readChar (c : Char)
  | duplicate
  | swap
  | discard
  /-- Take a place and a code; write the character at the spot, if there is one. -/
  | place (target : Option Spot) (c : Char)
  /-- Take a place; push the code of the character that was found there. -/
  | grab (c : Char)
  | idle
  deriving DecidableEq, Repr

namespace State

def truth (b : Bool) : Int := if b then 1 else 0

/-- The place that the two top values stand for, `y` above `x`. -/
def target (s : State) : Point := ⟨saturate (s.stack.peek 1), saturate (s.stack.peek 0)⟩

/-- The character under the pointer, if the pointer is in the grid. -/
def cell? (s : State) : Option Char := s.grid.get? s.position

/-! ### Doing -/

def advance (s : State) : State × List Change :=
  ({ s with position := s.position + s.velocity }, [.moved s.position])

/-- Does a deed, but does not move on. The changes are given oldest first. -/
def enact (d : Deed) (s : State) : State × List Change :=
  match d with
  | .halt => ({ s with velocity := .origin, running := false }, [.turned s.velocity])
  | .turn d => ({ s with velocity := d.velocity }, [.turned s.velocity])
  | .branch nonzero zero =>
    let (popped, stack) := s.stack.pop?
    let d := if popped.getD 0 = 0 then zero else nonzero
    ({ s with stack, velocity := d.velocity }, [.branched popped s.velocity])
  | .skip => s.advance
  | .compute op =>
    let (a, stack) := s.stack.pop?
    let (b, stack) := stack.pop?
    ({ s with stack := stack.push (op.apply (b.getD 0) (a.getD 0)) }, [.computed a b])
  | .negate =>
    let (popped, stack) := s.stack.pop?
    ({ s with stack := stack.push (truth (popped.getD 0 = 0)) }, [.negated popped])
  | .compare =>
    let (a, stack) := s.stack.pop?
    let (b, stack) := stack.pop?
    ({ s with stack := stack.push (truth (a.getD 0 < b.getD 0)) }, [.compared a b])
  | .setMode mode => ({ s with mode }, [.modeSet s.mode])
  | .push v => ({ s with stack := s.stack.push v }, [.pushed])
  | .printInt text =>
    let (popped, stack) := s.stack.pop?
    ({ s with stack }, [.printedInt popped text])
  | .printChar text =>
    let (popped, stack) := s.stack.pop?
    ({ s with stack }, [.printedChar popped text])
  | .readDigit d => ({ s with stack := s.stack.push d }, [.readDigit d])
  | .readChar c => ({ s with stack := s.stack.push (codeOf c) }, [.readChar c])
  | .duplicate =>
    let (popped, stack) := s.stack.pop?
    ({ s with stack := (stack.push (popped.getD 0)).push (popped.getD 0) }, [.duplicated popped])
  | .swap =>
    let (a, stack) := s.stack.pop?
    let (b, stack) := stack.pop?
    ({ s with stack := (stack.push (a.getD 0)).push (b.getD 0) }, [.swapped a b])
  | .discard =>
    let (popped, stack) := s.stack.pop?
    ({ s with stack }, [.discarded popped])
  | .place target c =>
    let (y, stack) := s.stack.pop?
    let (x, stack) := stack.pop?
    let (v, stack) := stack.pop?
    match target with
    | none => ({ s with stack }, [.placed y x v none])
    | some spot =>
      let old := s.grid.replaced spot
      ({ s with grid := s.grid.put spot c, stack }, [.placed y x v (some (spot, old))])
  | .grab c =>
    let (y, stack) := s.stack.pop?
    let (x, stack) := stack.pop?
    ({ s with stack := stack.push (codeOf c) }, [.grabbed y x])
  | .idle => (s, [])

/-- Does a deed and moves on, unless the deed was to halt. -/
def perform (d : Deed) (s : State) : State × List Change :=
  match d with
  | .halt => s.enact .halt
  | d =>
    let (s, changes) := s.enact d
    let (s, moves) := s.advance
    (s, changes ++ moves)

/-! ### Taking back -/

def revert (s : State) (c : Change) : State :=
  match c with
  | .moved old => { s with position := old }
  | .turned old => { s with velocity := old }
  | .branched popped old => { s with velocity := old, stack := s.stack.restore popped }
  | .computed a b => { s with stack := (s.stack.dropTop.restore b).restore a }
  | .negated popped => { s with stack := s.stack.dropTop.restore popped }
  | .compared a b => { s with stack := (s.stack.dropTop.restore b).restore a }
  | .modeSet old => { s with mode := old }
  | .duplicated popped => { s with stack := s.stack.dropTop.dropTop.restore popped }
  | .swapped a b => { s with stack := (s.stack.dropTop.dropTop.restore b).restore a }
  | .discarded popped => { s with stack := s.stack.restore popped }
  | .placed y x v none => { s with stack := ((s.stack.restore v).restore x).restore y }
  | .placed y x v (some (spot, old)) =>
    { s with
      grid := s.grid.set spot old
      stack := ((s.stack.restore v).restore x).restore y }
  | .grabbed y x => { s with stack := (s.stack.dropTop.restore x).restore y }
  | .pushed => { s with stack := s.stack.dropTop }
  | .printedInt popped _ => { s with stack := s.stack.restore popped }
  | .printedChar popped _ => { s with stack := s.stack.restore popped }
  | .readDigit _ => { s with stack := s.stack.dropTop }
  | .readChar _ => { s with stack := s.stack.dropTop }

/-- Takes back some changes, the newest first. -/
def revertAll (changes : List Change) (s : State) : State := changes.foldl revert s

@[simp] theorem running_revert (s : State) (c : Change) : (s.revert c).running = s.running := by
  cases c with
  | placed y x v replaced => cases replaced <;> rfl
  | _ => rfl

end State

end Retrace
