import Retrace.Text.Digit

/-!
# Options

The words on the command line: one file and some options, in any order. An option that takes a
number has it after an equals sign or as the next word. Each option and the file may be given once;
after a word `--` there are no more options. Anything else is refused as a whole.
-/

namespace Retrace

structure Options where
  /-- The program. -/
  file : String
  /-- Whether the run is watched. -/
  debug : Bool := false
  /-- The number of steps that can be undone in a watched run. -/
  history : Nat := 1000
  /-- The seed for directions by chance. -/
  seed : Option Nat := none
  /-- The number of steps after which the run ends. -/
  stepLimit : Option Nat := none
  deriving DecidableEq, Repr

namespace Options

/-- Numbers on the command line are below this bound. -/
def numberBound : Nat := Nat.pow 2 64

/-- A number in decimal digits, with leading digits in front. -/
def digits? : List Char → Nat → Option Nat
  | [], n => some n
  | c :: rest, n => (Text.digit? c).bind fun d => digits? rest (10 * n + d)

/-- The number that a word stands for: decimal digits, after a plus sign if there is one. -/
def number? (word : String) : Option Nat :=
  let numeral :=
    match word.toList with
    | '+' :: rest => rest
    | cs => cs
  if numeral.isEmpty then none
  else (digits? numeral 0).filter (· < numberBound)

/-- What has been given so far. -/
structure Given where
  file : Option String := none
  debug : Bool := false
  history : Option Nat := none
  seed : Option Nat := none
  stepLimit : Option Nat := none

namespace Given

def giveFile (word : String) (g : Given) : Option Given :=
  if g.file.isNone ∧ word ≠ "" then some { g with file := some word } else none

def giveFlag (name : List Char) (g : Given) : Option Given :=
  if name = "debug".toList ∧ !g.debug then some { g with debug := true } else none

def takesNumber (name : List Char) : Bool :=
  name ∈ ["history".toList, "seed".toList, "step-limit".toList]

def giveNumber (name : List Char) (word : String) (g : Given) : Option Given := do
  let n ← number? word
  if name = "history".toList ∧ g.history.isNone then some { g with history := some n }
  else if name = "seed".toList ∧ g.seed.isNone then some { g with seed := some n }
  else if name = "step-limit".toList ∧ g.stepLimit.isNone then some { g with stepLimit := some n }
  else none

/-- Takes words none of which is an option. -/
def giveFiles : List String → Given → Option Given
  | [], g => some g
  | word :: rest, g => (g.giveFile word).bind (giveFiles rest)

def giveAll : List String → Given → Option Given
  | [], g => some g
  | word :: rest, g =>
    match word.toList with
    | ['-', '-'] => giveFiles rest g
    | '-' :: '-' :: option =>
      match option.span (· ≠ '=') with
      | (name, _ :: value) => (g.giveNumber name (String.ofList value)).bind (giveAll rest)
      | (name, []) =>
        if takesNumber name then
          match rest with
          | [] => none
          | value :: rest => (g.giveNumber name value).bind (giveAll rest)
        else (g.giveFlag name).bind (giveAll rest)
    | '-' :: _ :: _ => none
    | _ => (g.giveFile word).bind (giveAll rest)

def finish (g : Given) : Option Options :=
  g.file.map fun file =>
    { file, debug := g.debug, history := g.history.getD 1000, seed := g.seed,
      stepLimit := g.stepLimit }

end Given

/-- The options in the words of a command line, `none` if they are refused. -/
def parse (words : List String) : Option Options := (Given.giveAll words {}).bind Given.finish

end Options

end Retrace
