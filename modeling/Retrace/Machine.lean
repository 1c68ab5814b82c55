import Retrace.Dice
import Retrace.Grid.Access
import Retrace.Journal
import Retrace.Channel
import Retrace.State

/-!
# The machine

A machine is a state together with what surrounds it, a channel, a guard of the edges and a source
of directions, and with a history. It goes forward by `step` and back by `unstep`.

A step has two halves. First it is *resolved* what is to be done: the cell under the pointer is
fetched, and the surroundings are asked for what its instruction needs. All that can fail is in this
half, and it does not touch the state. Then the deed is performed and its changes are committed to
the history as one group. So a step happens whole or not at all.

An undone step is taken back from the state and from the channel. Retracting output may fail; the
step is undone nevertheless, and the fault is reported afterwards.
-/

namespace Retrace

variable {π η ρ : Type}

/-- What a machine works with: a channel, a guard of the edges, a source of directions. -/
structure Surroundings (π η ρ : Type) where
  channel : π
  guard : η
  dice : ρ

/-- What becomes of a division by zero. -/
inductive DivisionPolicy where
  /-- The step fails. -/
  | fatal
  /-- The result is zero. -/
  | yieldZero
  deriving DecidableEq, Repr, Inhabited

/-- A state, its surroundings, and the history of its steps. -/
structure Machine (π η ρ : Type) where
  state : State
  surroundings : Surroundings π η ρ
  division : DivisionPolicy := .fatal
  history : History := .off

namespace Machine

def start (grid : Grid) (channel : π) (guard : η) (dice : ρ) (history : History) :
    Machine π η ρ :=
  { state := { grid }, surroundings := ⟨channel, guard, dice⟩, history }

def stop (m : Machine π η ρ) : Machine π η ρ :=
  { m with state := { m.state with running := false } }

/-- Makes the machine run again, with the velocity it has. -/
def restart (m : Machine π η ρ) : Machine π η ρ :=
  { m with state := { m.state with running := true } }

variable [Channel π] [EdgeGuard η] [DirectionSource ρ]

/-! ### Forward -/

/-- Finds out what an instruction does in a state, asking the surroundings. -/
def resolve (division : DivisionPolicy) (s : State) (i : Instruction) :
    Surroundings π η ρ → Reply (Surroundings π η ρ) Deed
  | ⟨channel, guard, dice⟩ =>
    match i with
    | .go d => .done (.turn d) ⟨channel, guard, dice⟩
    | .branch nonzero zero => .done (.branch nonzero zero) ⟨channel, guard, dice⟩
    | .random =>
      match DirectionSource.draw dice with
      | (d, dice) => .done (.turn d) ⟨channel, guard, dice⟩
    | .skip => .done .skip ⟨channel, guard, dice⟩
    | .arith op =>
      if op.divides ∧ s.stack.peek 0 = 0 ∧ division = .fatal then
        .fail (.divisionByZero op.symbol s.position) ⟨channel, guard, dice⟩
      else .done (.compute op) ⟨channel, guard, dice⟩
    | .negate => .done .negate ⟨channel, guard, dice⟩
    | .greater => .done .compare ⟨channel, guard, dice⟩
    | .quote => .done (.setMode .text) ⟨channel, guard, dice⟩
    | .printInt =>
      let text := " " ++ (s.stack.peek 0).repr ++ " "
      ((Channel.emit text channel).map fun () => Deed.printInt text).within (⟨·, guard, dice⟩)
    | .printChar =>
      let text := (charOfCode (s.stack.peek 0)).toString
      ((Channel.emit text channel).map fun () => Deed.printChar text).within (⟨·, guard, dice⟩)
    | .readInt => ((Channel.takeDigit channel).map Deed.readDigit).within (⟨·, guard, dice⟩)
    | .readChar => ((Channel.takeChar channel).map Deed.readChar).within (⟨·, guard, dice⟩)
    | .duplicate => .done .duplicate ⟨channel, guard, dice⟩
    | .swap => .done .swap ⟨channel, guard, dice⟩
    | .discard => .done .discard ⟨channel, guard, dice⟩
    | .place =>
      let c := charOfCode (s.stack.peek 2)
      ((s.grid.landing s.target guard).map fun spot? => Deed.place spot? c).within
        (⟨channel, ·, dice⟩)
    | .grab =>
      ((s.grid.read s.target guard).map fun c? => Deed.grab (c?.getD ' ')).within
        (⟨channel, ·, dice⟩)
    | .halt => .done .halt ⟨channel, guard, dice⟩
    | .digit d => .done (.push d) ⟨channel, guard, dice⟩
    | .nop => .done .idle ⟨channel, guard, dice⟩

/-- What a cell is in text mode: a double quote ends the mode, anything else is pushed. -/
def literal (c : Char) : Deed := if c = '"' then .setMode .normal else .push (codeOf c)

def interpret (division : DivisionPolicy) (s : State) (c : Char)
    (around : Surroundings π η ρ) : Reply (Surroundings π η ρ) Deed :=
  match s.mode with
  | .text => .done (literal c) around
  | .normal => resolve division s (.decode c) around

/-- Fetches the cell under the pointer; the result is `none` if there is none. -/
def fetch (s : State) : Surroundings π η ρ → Reply (Surroundings π η ρ) (Option Char)
  | ⟨channel, guard, dice⟩ => (s.grid.read s.position guard).within (⟨channel, ·, dice⟩)

/-- Executes the cell under the pointer. -/
def step : Machine π η ρ → Reply (Machine π η ρ) Outcome
  | ⟨state, around, division, history⟩ =>
    if !state.running then .done .halted ⟨state, around, division, history⟩
    else
      match fetch state around with
      | ⟨.error fault, around, events⟩ =>
        ⟨.error fault, ⟨state, around, division, history⟩, events⟩
      | ⟨.ok none, around, events⟩ => ⟨.ok .stalled, ⟨state, around, division, history⟩, events⟩
      | ⟨.ok (some c), around, events⟩ =>
        let stepping := Event.stepping state.position c state.mode
        match interpret division state c around with
        | ⟨.error fault, around, more⟩ =>
          ⟨.error fault, ⟨state, around, division, history⟩, events ++ stepping :: more⟩
        | ⟨.ok deed, around, more⟩ =>
          let (state, changes) := state.perform deed
          let (history, evictions) := history.extend changes
          ⟨.ok .executed, ⟨state, around, division, history⟩,
            events ++ stepping :: (more ++ evictions)⟩

/-! ### Back -/

/-- Undoes the newest step of the history; the result is `false` if there is none. -/
def unstep : Machine π η ρ → Reply (Machine π η ρ) Bool
  | ⟨state, ⟨channel, guard, dice⟩, division, history⟩ =>
    match history.pop? with
    | none => .done false ⟨state, ⟨channel, guard, dice⟩, division, history⟩
    | some (group, history) =>
      match Channel.revertAll group channel with
      | ⟨result, channel, events⟩ =>
        ⟨result.map fun () => true,
          ⟨state.revertAll group, ⟨channel, guard, dice⟩, division, history⟩,
          .undoing group.length history.depth :: events⟩

end Machine

end Retrace
