/-!
# Blank characters

The characters with the Unicode property White_Space, and texts without the blanks at their ends.
-/

namespace Retrace.Text

/-- The code points that are blank, as ranges with both ends included. -/
def blankRanges : List (Nat × Nat) :=
  [(0x09, 0x0D), (0x20, 0x20), (0x85, 0x85), (0xA0, 0xA0), (0x1680, 0x1680), (0x2000, 0x200A),
    (0x2028, 0x2029), (0x202F, 0x202F), (0x205F, 0x205F), (0x3000, 0x3000)]

def isBlank (c : Char) : Bool :=
  blankRanges.any fun (first, last) => first ≤ c.toNat && c.toNat ≤ last

/-- The property has 25 characters. -/
example : (blankRanges.map fun (first, last) => last - first + 1).sum = 25 := by decide

def trim (text : List Char) : List Char :=
  ((text.dropWhile isBlank).reverse.dropWhile isBlank).reverse

end Retrace.Text
