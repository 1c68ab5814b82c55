import Retrace.Grid.Render
import Retrace.Channel.Transcript
import Retrace.Run
import Retrace.Text.Blank

/-!
# Watched sessions

A session runs a program one command at a time. Before each command it shows the machine; the
commands step, step back, or quit. Commands come line by line from the same source as the input of
the program, and everything is shown on the sink on which the program's prompts appear.

The session counts the steps that were executed and not undone, and it ends when the machine stops
running or the count reaches a limit. Every turn that does not end the session has read a line, so
there are at most as many as there is input (`Session.run`).
-/

namespace Retrace

/-- A machine that is watched, with the number of its steps that count and their limit. -/
structure Session (ρ : Type) where
  machine : Machine Transcript EdgePolicy ρ
  steps : Nat := 0
  limit : Option Nat := none

inductive Command where
  | forward
  | back
  | quit
  deriving DecidableEq, Repr

/-- The command in a line, in which blanks at the ends do not count. The end of the source, where
there is no line, quits. -/
def Command.ofLine (line? : Option String) : Command :=
  match line? with
  | none => .quit
  | some line =>
    match Text.trim line.toList with
    | ['q'] => .quit
    | ['b'] => .back
    | _ => .forward

namespace Session

variable {ρ : Type}

/-! ### What is shown -/

def marker : Char := '☺'

def outputLines : Nat := 3

/-- How a cell is shown: one that does nothing in normal mode is pointed out. -/
def cellLabel (cell? : Option Char) (mode : Mode) : String :=
  match cell? with
  | none => "(none)"
  | some c =>
    if mode = .normal ∧ !Instruction.isInstruction c then c.toString ++ " (no-op)" else c.toString

/-- How many steps can be undone, and out of how many if there is a limit. -/
def historyLabel (depth : Nat) (limit? : Option Nat) : String :=
  match limit? with
  | none => depth.repr
  | some limit => depth.repr ++ "/" ++ limit.repr

def screen (s : Session ρ) : List String :=
  let m := s.machine
  m.surroundings.channel.tail outputLines ++
    ["V: " ++ m.state.velocity.render,
      "S: " ++ m.state.stack.render,
      "Mode: " ++ m.state.mode.render,
      "OPCode: " ++ cellLabel m.state.cell? m.state.mode,
      "History: " ++ historyLabel m.history.depth m.history.limit?,
      m.state.grid.renderMarked m.state.position marker]

def invitation (s : Session ρ) : String :=
  String.join (s.screen.map fun line => line ++ "\n") ++ "..."

/-! ### Turns -/

def atChannel {α : Type} (op : Transcript → Reply Transcript α) : Session ρ → Reply (Session ρ) α
  | ⟨⟨state, ⟨channel, guard, dice⟩, division, history⟩, steps, limit⟩ =>
    (op channel).within fun channel =>
      ⟨⟨state, ⟨channel, guard, dice⟩, division, history⟩, steps, limit⟩

def tell (text : String) (s : Session ρ) : Reply (Session ρ) Unit :=
  s.atChannel fun channel => channel.display text

def readCommand (s : Session ρ) : Reply (Session ρ) Command :=
  (s.atChannel Transcript.command).map Command.ofLine

/-- Whether another command is wanted. -/
def active (s : Session ρ) : Bool :=
  s.machine.state.running && s.limit.all fun limit => s.steps < limit

variable [DirectionSource ρ]

/-- Steps back, or says that there is nothing to go back to. -/
def goBack : Session ρ → Reply (Session ρ) Unit
  | ⟨machine, steps, limit⟩ =>
    (machine.unstep.within (⟨·, steps, limit⟩)).andThen fun undone s =>
      if undone then .done () { s with steps := s.steps - 1 } else s.tell "(no history)\n"

/-- Steps; the result tells whether a cell was executed. -/
def goForward : Session ρ → Reply (Session ρ) Bool
  | ⟨machine, steps, limit⟩ =>
    (machine.step.within (⟨·, steps, limit⟩)).andThen fun outcome s =>
      match outcome with
      | .executed => .done true { s with steps := s.steps + 1 }
      | _ => .done false s

/-- Carries out a command; the result tells whether the session goes on. -/
def obey (command : Command) (s : Session ρ) : Reply (Session ρ) Bool :=
  match command with
  | .quit => .done false s
  | .back => s.goBack.map fun () => true
  | .forward => s.goForward

/-- Shows the machine, reads a command and carries it out; the result tells whether the session goes
on. -/
def turn (s : Session ρ) : Reply (Session ρ) Bool :=
  (s.tell s.invitation).andThen fun () s =>
    s.readCommand.andThen fun command s =>
      (s.obey command).andThen fun goesOn s =>
        if goesOn then (s.tell "\n").map fun () => true else .done false s

/-- Takes turns as long as the session goes on, at most `n`. -/
def turns : Nat → Session ρ → Reply (Session ρ) Unit
  | 0, s => .done () s
  | n + 1, s =>
    if s.active then
      s.turn.andThen fun goesOn s => if goesOn then turns n s else .done () s
    else .done () s

def run (s : Session ρ) : Reply (Session ρ) Int32 :=
  let bound := s.machine.surroundings.channel.console.input.unread.length + 1
  (s.turns bound).andThen fun () s => .done s.machine.state.stack.exitCode s

end Session

end Retrace
