import Retrace.Channel
import Retrace.Channel.Console

/-!
# Transcripts

The channel of a run that is watched. Output is collected, so that retracting can really remove it.
Only prompts go to the sink, and only when the user has to type something.

Retracting removes as many characters as the retracted text has. When the text stands at the end,
which it does if output is retracted in the opposite order of its printing, its bytes are cut off.
-/

namespace Retrace

/-- A console with the collected output. -/
structure Transcript where
  console : Console := {}
  output : String := ""
  deriving Inhabited

namespace Transcript

/-- A transcript of a run whose input is given in full. -/
def scripted (input : String) : Transcript := { console := { input := .ofText input } }

/-- The first `n` bytes of a text, which are whole characters. -/
def keepBytes (n : Nat) (text : String) : String :=
  (String.fromUTF8? (text.toUTF8.extract 0 n)).getD text

def keepChars (n : Nat) (text : String) : String := String.ofList (text.toList.take n)

/-- A text from whose end another one was removed. -/
def strip (text output : String) : String :=
  if text.toList.isSuffixOf output.toList then
    keepBytes (output.utf8ByteSize - text.utf8ByteSize) output
  else keepChars (output.length - text.length) output

instance : Channel Transcript where
  emit text t := .done () { t with output := t.output ++ text }
  takeChar
    | ⟨console, output⟩ => (console.takeChar .whenDry).within fun console => ⟨console, output⟩
  takeDigit
    | ⟨console, output⟩ => (console.takeDigit .whenDry).within fun console => ⟨console, output⟩
  retract text t := .done () { t with output := strip text t.output }
  returnChar c t := { t with console := t.console.returnChar c }
  returnDigit d t := { t with console := t.console.returnDigit d }

/-- The last `n` lines of the output; there is always at least an empty one. -/
def tail (n : Nat) (t : Transcript) : List String :=
  let lines := t.output.toList.splitOn '\n'
  (lines.drop (lines.length - n)).map String.ofList

def command : Transcript → Reply Transcript (Option String)
  | ⟨⟨input, sink⟩, output⟩ => input.command.within fun input => ⟨⟨input, sink⟩, output⟩

def display (text : String) : Transcript → Reply Transcript Unit
  | ⟨console, output⟩ => (console.write text).within fun console => ⟨console, output⟩

end Transcript

end Retrace
