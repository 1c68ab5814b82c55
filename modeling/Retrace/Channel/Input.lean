import Retrace.Reply
import Retrace.Text.Lines
import Retrace.Text.Utf8

/-!
# Input by lines

Input is a source of bytes that is read line by line, with a queue of characters in front of it that
have been read and not been used. Characters are taken from the queue; a line is read only when the
queue has run dry, and a line that is not UTF-8 is lost as a whole. Whatever was taken can be put
back in front.

A reader of whole lines (`command`) shares the source with the reader of characters but not the
queue, so it always gets the next fresh line.
-/

namespace Retrace

/-- The characters that were read and not yet taken, and the bytes that were not yet read. -/
structure Input where
  pending : List Char := []
  unread : List UInt8 := []
  deriving DecidableEq, Repr, Inhabited

namespace Input

def ofBytes (bytes : List UInt8) : Input := { unread := bytes }

/-- Input of which everything has been read. -/
def ofText (text : String) : Input := { pending := text.toList }

def isLineFeed (b : UInt8) : Bool := b == 10

/-- Reads the next line with its line feed; the result is `none` at the end of the source. -/
def readLine (i : Input) : Reply Input (Option (List Char)) :=
  if i.unread.isEmpty then .done none i
  else
    let (line, rest) := Text.breakAfter isLineFeed i.unread
    match Text.decode? line with
    | none => .fail (.stream .invalidText) { i with unread := rest }
    | some text => .done (some text) { i with unread := rest }

/-- Takes the next character. A line that was read is not empty, so the last case is the end of the
source. -/
def next (i : Input) : Reply Input Char :=
  match i.pending with
  | c :: rest => .done c { i with pending := rest }
  | [] =>
    match i.readLine with
    | ⟨.error fault, i, _⟩ => .fail fault i
    | ⟨.ok (some (c :: rest)), i, _⟩ => .done c { i with pending := rest }
    | ⟨.ok _, i, _⟩ => .fail .inputExhausted i

/-- Reads the next line as a command, without its line break. -/
def command (i : Input) : Reply Input (Option String) :=
  i.readLine.map fun line? => line?.map fun line => String.ofList (Text.commandLine line)

def giveBack (c : Char) (i : Input) : Input := { i with pending := c :: i.pending }

/-- Puts back characters, given in the opposite order of their taking. -/
def giveBackAll (taken : List Char) (i : Input) : Input :=
  { i with pending := taken.reverseAux i.pending }

/-- Taking a character shortens the queue, or else reads from the source. -/
theorem next_shortens {i i' : Input} {c : Char} {events : List Event}
    (h : i.next = ⟨.ok c, i', events⟩) :
    i'.unread.length < i.unread.length ∨
      i'.unread = i.unread ∧ i'.pending.length < i.pending.length := by
  obtain ⟨pending, unread⟩ := i
  cases pending with
  | cons d rest =>
    simp only [next, Reply.done, Reply.mk.injEq] at h
    obtain ⟨-, rfl, -⟩ := h
    exact .inr ⟨rfl, Nat.lt_succ_self _⟩
  | nil =>
    refine .inl ?_
    cases unread with
    | nil => simp [next, readLine, Reply.done, Reply.fail] at h
    | cons b rest =>
      have shorter := Text.length_breakAfter_snd_lt isLineFeed (List.cons_ne_nil b rest)
      simp only [next, readLine, List.isEmpty_cons] at h
      cases decoded : Text.decode? (Text.breakAfter isLineFeed (b :: rest)).1 with
      | none => simp [decoded, Reply.fail] at h
      | some text =>
        cases text with
        | nil => simp [decoded, Reply.fail, Reply.done] at h
        | cons d text =>
          simp only [decoded, Reply.done] at h
          obtain ⟨-, rfl, -⟩ := h
          exact shorter

end Input

end Retrace
