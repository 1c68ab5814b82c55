/-!
# Bytes as text

Input and programs arrive as bytes and are text only if the bytes are UTF-8. `decode?` reads them
all or not at all, and undoes the encoding of any text (`decode?_encode`).
-/

namespace Retrace.Text

/-- The characters that `bytes` encode in UTF-8, if they do. -/
def decode? (bytes : List UInt8) : Option (List Char) :=
  (String.fromUTF8? bytes.toByteArray).map String.toList

def encode (text : String) : List UInt8 := text.toUTF8.data.toList

@[simp] theorem decode?_encode (text : String) : decode? (encode text) = some text.toList := by
  have h : (encode text).toByteArray = text.toByteArray := by
    apply ByteArray.ext
    simp [encode]
  simp only [decode?, h, String.fromUTF8?, dif_pos text.isValidUTF8]
  rfl

end Retrace.Text
