import Retrace.Change
import Retrace.Reply

/-!
# Channels

A channel is where a program's output goes and where its input comes from. Every operation has one
that takes it back, so that a step that printed or read can be undone: text that was emitted can be
retracted, which may fail, and what was taken from the input can be returned, which may not.

`Channel.revert` takes back the part of a change that happened at the channel. A list of changes is
reverted to its end whatever happens on the way, and the first fault is the result.
-/

namespace Retrace

/-- Output and input of a program, both of which can be taken back. -/
class Channel (π : Type u) where
  /-- Sends a text. -/
  emit : String → π → Reply π Unit
  /-- Takes the next character. -/
  takeChar : π → Reply π Char
  /-- Takes the next digit and all characters in front of it. -/
  takeDigit : π → Reply π Nat
  /-- Takes back a text that was sent. -/
  retract : String → π → Reply π Unit
  /-- Puts a character back in front of the input. -/
  returnChar : Char → π → π
  /-- Puts a digit back in front of the input. -/
  returnDigit : Nat → π → π

namespace Channel

variable {π : Type u} [Channel π]

def revert (c : Change) (channel : π) : Reply π Unit :=
  match c with
  | .printedInt _ text => retract text channel
  | .printedChar _ text => retract text channel
  | .readDigit d => .done () (returnDigit d channel)
  | .readChar c => .done () (returnChar c channel)
  | _ => .done () channel

/-- Takes back what some changes did at the channel, the newest change first. -/
def revertAll : List Change → π → Reply π Unit
  | [], channel => .done () channel
  | c :: rest, channel =>
    match revert c channel with
    | ⟨.ok (), channel, events⟩ =>
      match revertAll rest channel with
      | ⟨result, channel, more⟩ => ⟨result, channel, events ++ more⟩
    | ⟨.error fault, channel, events⟩ =>
      match revertAll rest channel with
      | ⟨_, channel, more⟩ => ⟨.error fault, channel, events ++ more⟩

end Channel

end Retrace
