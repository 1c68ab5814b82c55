import Retrace.Channel.Input
import Retrace.Channel.Sink
import Retrace.Text.Digit

/-!
# Consoles

A console joins input with a sink on which the user is asked for it. Digits are taken in attempts:
each attempt takes one character, and characters that are no digits are dropped. Only if no digit is
found do they go back to the front of the input, in their order, so a failed search leaves the queue
as long as it was.

How often the user is asked is the console's `Prompting`: before every attempt, or only when an
attempt has to wait for a new line.
-/

namespace Retrace

inductive Prompting where
  /-- Before every attempt. -/
  | always
  /-- When no character is pending. -/
  | whenDry
  deriving DecidableEq, Repr

structure Console where
  input : Input := {}
  sink : Sink := {}
  deriving Inhabited

namespace Console

def charPrompt : String := ": "

def digitPrompt : String := "(0-9): "

/-- Asks for input, if it is time to. -/
def prompt (rule : Prompting) (text : String) (input : Input) (sink : Sink) : Reply Sink Unit :=
  match rule with
  | .always => sink.write text
  | .whenDry => if input.pending.isEmpty then sink.write text else .done () sink

def takeChar (rule : Prompting) : Console → Reply Console Char
  | ⟨input, sink⟩ =>
    match prompt rule charPrompt input sink with
    | ⟨.error fault, sink, _⟩ => .fail fault ⟨input, sink⟩
    | ⟨.ok (), sink, _⟩ => input.next.within fun input => ⟨input, sink⟩

/-- Takes characters up to the next digit; `skipped` are those taken already, the newest first. -/
def seekDigit (rule : Prompting) (input : Input) (sink : Sink) (skipped : List Char) :
    Reply Console Nat :=
  match prompt rule digitPrompt input sink with
  | ⟨.error fault, sink, _⟩ => .fail fault ⟨input.giveBackAll skipped, sink⟩
  | ⟨.ok (), sink, _⟩ =>
    match _h : input.next with
    | ⟨.error fault, input, _⟩ => .fail fault ⟨input.giveBackAll skipped, sink⟩
    | ⟨.ok c, rest, _⟩ =>
      match Text.digit? c with
      | some d => .done d ⟨rest, sink⟩
      | none => seekDigit rule rest sink (c :: skipped)
termination_by (input.unread.length, input.pending.length)
decreasing_by
  rcases Input.next_shortens _h with shorter | ⟨same, shorter⟩
  · exact Prod.Lex.left _ _ shorter
  · rw [same]
    exact Prod.Lex.right _ shorter

def takeDigit (rule : Prompting) : Console → Reply Console Nat
  | ⟨input, sink⟩ => seekDigit rule input sink []

def returnChar (c : Char) (console : Console) : Console :=
  { console with input := console.input.giveBack c }

def returnDigit (d : Nat) (console : Console) : Console := console.returnChar (Text.digitChar d)

/-- Lets more bytes follow the input. -/
def feed (bytes : List UInt8) (console : Console) : Console :=
  { console with input := { console.input with unread := console.input.unread ++ bytes } }

/-- The bytes on the sink, and the console with the sink emptied. -/
def drain : Console → ByteArray × Console
  | ⟨input, sink⟩ => (sink.written, ⟨input, { sink with written := .empty }⟩)

def write (text : String) : Console → Reply Console Unit
  | ⟨input, sink⟩ => (sink.write text).within fun sink => ⟨input, sink⟩

end Console

end Retrace
