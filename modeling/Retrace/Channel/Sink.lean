import Retrace.Reply

/-!
# Sinks

A sink takes text as bytes and keeps them. It may have room for so many bytes only: a text that does
not fit is cut off where the room ends, possibly inside a character, and the write fails.
-/

namespace Retrace

/-- The bytes written so far, and the number of bytes that there is room for in all. -/
structure Sink where
  written : ByteArray := ByteArray.empty
  capacity : Option Nat := none
  deriving Inhabited

namespace Sink

/-- Writes a text, or as many bytes of it as there is room for. -/
def write (text : String) (s : Sink) : Reply Sink Unit :=
  let bytes := text.toUTF8
  match s.capacity with
  | none => .done () { s with written := s.written ++ bytes }
  | some room =>
    if s.written.size + bytes.size ≤ room then .done () { s with written := s.written ++ bytes }
    else
      .fail (.stream .full)
        { s with written := s.written ++ bytes.extract 0 (room - s.written.size) }

end Sink

end Retrace
