import Retrace.Channel
import Retrace.Channel.Console

/-!
# The terminal

The channel of a plain run. Output goes straight to the sink, next to the prompts, of which there is
one for every attempt. What is on the sink stays there, so output is retracted as on a screen: every
character since the last line feed is stepped back over, blanked and stepped back over again.
-/

namespace Retrace

/-- A console to which output goes as well. -/
structure Terminal where
  console : Console := {}
  deriving Inhabited

namespace Terminal

/-- What blanks the character before the cursor. -/
def rubout : String := "\x08 \x08"

/-- What blanks the last line of a text behind which the cursor stands. -/
def erasure (text : String) : String :=
  String.join ((text.toList.reverse.takeWhile (· ≠ '\n')).map fun _ => rubout)

instance : Channel Terminal where
  emit text t := (t.console.write text).within Terminal.mk
  takeChar t := (t.console.takeChar .always).within Terminal.mk
  takeDigit t := (t.console.takeDigit .always).within Terminal.mk
  retract text t := (t.console.write (erasure text)).within Terminal.mk
  returnChar c t := ⟨t.console.returnChar c⟩
  returnDigit d t := ⟨t.console.returnDigit d⟩

end Terminal

end Retrace
