/-!
# Lines

Text comes in lines, and a line ends *after* its line feed: `splitAfter` cuts a list behind every
element that ends a piece and loses nothing (`flatten_splitAfter`), and `breakAfter` takes just the
first piece. Both work on characters and on bytes, since a program is split as characters and input
is read as bytes.

What counts as the content of a line differs by its use: a line of a program is stripped of its
line feed and of a carriage return in front of it (`programLine`), a line of input of a line feed
and then of a carriage return, each if it is there (`commandLine`).
-/

namespace Retrace.Text

variable {α : Type u}

/-- The first piece of a list, up to and including the first element with `ends`, and the rest. -/
def breakAfter (ends : α → Bool) : List α → List α × List α
  | [] => ([], [])
  | a :: rest =>
    if ends a then ([a], rest)
    else
      let (piece, others) := breakAfter ends rest
      (a :: piece, others)

/-- All pieces of a list, each but perhaps the last one ending with an element with `ends`. -/
def splitAfter (ends : α → Bool) : List α → List (List α)
  | [] => []
  | a :: rest =>
    if ends a then [a] :: splitAfter ends rest
    else
      match splitAfter ends rest with
      | [] => [[a]]
      | piece :: others => (a :: piece) :: others

/-- Breaking loses nothing. -/
theorem breakAfter_append (ends : α → Bool) :
    ∀ l : List α, (breakAfter ends l).1 ++ (breakAfter ends l).2 = l
  | [] => rfl
  | a :: rest => by
    rw [breakAfter]
    split
    · rfl
    · simpa using breakAfter_append ends rest

/-- A piece is taken off every list that is not empty. -/
theorem length_breakAfter_snd_lt (ends : α → Bool) :
    ∀ {l : List α}, l ≠ [] → (breakAfter ends l).2.length < l.length
  | a :: rest, _ => by
    rw [breakAfter]
    split
    · simp
    · cases rest with
      | nil => simp [breakAfter]
      | cons b rest =>
        have := length_breakAfter_snd_lt ends (List.cons_ne_nil b rest)
        simpa using Nat.lt_succ_of_lt this

/-- Splitting loses nothing. -/
theorem flatten_splitAfter (ends : α → Bool) :
    ∀ l : List α, (splitAfter ends l).flatten = l
  | [] => rfl
  | a :: rest => by
    have ih := flatten_splitAfter ends rest
    rw [splitAfter]
    split
    · simp [ih]
    · split
      · next h => rw [h] at ih; simp [← ih]
      · next h => rw [h] at ih; simpa using ih

/-- A text without its last character, if that is `c`. -/
def dropFinal (c : Char) (text : List Char) : List Char :=
  if text.getLast? = some c then text.dropLast else text

/-- The content of a program's line: without a line feed at the end, and then without a carriage
return. Where there is no line feed a carriage return stays. -/
def programLine (line : List Char) : List Char :=
  if line.getLast? = some '\n' then dropFinal '\r' line.dropLast else line

def programLines (text : List Char) : List (List Char) :=
  (splitAfter (· == '\n') text).map programLine

/-- The content of a line of input: without a line feed at the end, and then without a carriage
return, whether or not there was a line feed. -/
def commandLine (line : List Char) : List Char := dropFinal '\r' (dropFinal '\n' line)

end Retrace.Text
