/-!
# Blank characters

The characters with the Unicode property `White_Space`. A field name holds none of them,
and a text made of them alone names no field.
-/

namespace FieldSelection.Text

/-- The inclusive ranges of code points with the Unicode property `White_Space`. -/
def blankRanges : List (Nat × Nat) :=
  [(0x09, 0x0D), (0x20, 0x20), (0x85, 0x85), (0xA0, 0xA0), (0x1680, 0x1680),
   (0x2000, 0x200A), (0x2028, 0x2029), (0x202F, 0x202F), (0x205F, 0x205F), (0x3000, 0x3000)]

/-- Whether a character is white space. -/
def isBlank (c : Char) : Bool :=
  blankRanges.any fun (low, high) => low ≤ c.toNat && c.toNat ≤ high

/-- Whether a text has no character that can be seen. -/
def isBlankText (text : String) : Bool :=
  text.toList.all isBlank

end FieldSelection.Text
