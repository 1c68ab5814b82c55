import Retrace.Machine

/-!
# Runs

A run is a sequence of steps that ends when a step does something else than executing a cell, or
when a limit is reached. The limit is looked at before each step, so a run that ends on it is
reported as executed, even if the program would not have gone on.

`runFor` has a limit and is therefore total. A run without a limit need not end; `runToEnd` looks
for its end among the first `fuel` steps.
-/

namespace Retrace

structure Summary where
  steps : Nat
  outcome : Outcome
  exitCode : Int32
  deriving DecidableEq, Repr

namespace Machine

variable {π η ρ : Type} [Channel π] [EdgeGuard η] [DirectionSource ρ]

/-- Steps until a step does not execute a cell, at most `n` times. The result counts the executed
steps on top of `steps` and has the last outcome; `events` are those made before, newest first. -/
def stepsFrom (steps : Nat) (events : List Event) :
    Nat → Machine π η ρ → Reply (Machine π η ρ) (Nat × Outcome)
  | 0, m => ⟨.ok (steps, .executed), m, events.reverse⟩
  | n + 1, m =>
    match m.step with
    | ⟨.error fault, m, more⟩ => ⟨.error fault, m, (more.reverseAux events).reverse⟩
    | ⟨.ok .executed, m, more⟩ => stepsFrom (steps + 1) (more.reverseAux events) n m
    | ⟨.ok outcome, m, more⟩ => ⟨.ok (steps, outcome), m, (more.reverseAux events).reverse⟩

/-- Steps and events made before only add to those of the run. -/
theorem stepsFrom_eq (steps : Nat) (events : List Event) (n : Nat) (m : Machine π η ρ) :
    stepsFrom steps events n m =
      ⟨(stepsFrom 0 [] n m).result.map fun (k, outcome) => (steps + k, outcome),
        (stepsFrom 0 [] n m).state, events.reverse ++ (stepsFrom 0 [] n m).events⟩ := by
  induction n generalizing steps events m with
  | zero => simp [stepsFrom, Except.map]
  | succ n ih =>
    simp only [stepsFrom]
    obtain ⟨result, m', more⟩ := m.step
    cases result with
    | error fault => simp [Except.map, List.reverseAux_eq]
    | ok outcome =>
      cases outcome with
      | executed =>
        simp only [ih (steps + 1) (more.reverseAux events), ih (0 + 1) (more.reverseAux [])]
        cases (stepsFrom 0 [] n m').result <;>
          simp [Except.map, List.reverseAux_eq, Nat.add_assoc, Nat.add_comm 1]
      | halted => simp [Except.map, List.reverseAux_eq]
      | stalled => simp [Except.map, List.reverseAux_eq]

def summarize (ended : Nat × Outcome) (m : Machine π η ρ) : Reply (Machine π η ρ) Summary :=
  ⟨.ok ⟨ended.1, ended.2, m.state.stack.exitCode⟩, m, [.finished ended.1 ended.2]⟩

def runFor (limit : Nat) (m : Machine π η ρ) : Reply (Machine π η ρ) Summary :=
  (stepsFrom 0 [] limit m).andThen summarize

/-- Runs until the program ends by itself or fails; `none` if that takes more than `fuel` steps. -/
def runToEnd (fuel : Nat) (m : Machine π η ρ) : Option (Reply (Machine π η ρ) Summary) :=
  let r := stepsFrom 0 [] fuel m
  match r.result with
  | .ok (_, .executed) => none
  | _ => some (r.andThen summarize)

/-- Runs with a limit on the steps if there is one, and looks at no more than `fuel` steps if there
is none. -/
def run (fuel : Nat) (limit : Option Nat) (m : Machine π η ρ) :
    Option (Reply (Machine π η ρ) Summary) :=
  match limit with
  | some n => some (m.runFor n)
  | none => m.runToEnd fuel

end Machine

end Retrace
