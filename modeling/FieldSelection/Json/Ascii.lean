/-!
# The bytes of the format

All that JSON itself writes, from brackets to the names of its literals, is ASCII: each
character is one byte.
-/

namespace FieldSelection.Json

/-- The byte of an ASCII character. -/
def byte (c : Char) : UInt8 := c.toUInt8

/-- The bytes of an ASCII text. -/
def ascii (text : String) : List UInt8 := text.toList.map byte

end FieldSelection.Json
