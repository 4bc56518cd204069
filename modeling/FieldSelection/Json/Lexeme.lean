import FieldSelection.Json.Fault
import FieldSelection.Json.Value

/-!
# Reading a JSON text

A text is a list of bytes. A reader takes its part off the front and hands back the rest,
or tells what is wrong. A fault is noticed at a byte, and the bytes after that one are left
over; at the end of the text there is no such byte, and nothing is left over.

Here are the parts that every reader needs: faults, blanks and literals.
-/

namespace FieldSelection.Json

/-- A reader of something at the front of a text: gives it and what follows it. -/
abbrev Reader (α : Type) := List UInt8 → Reading (α × List UInt8)

/-- A broken rule, noticed at the first of these bytes. -/
def brokenAt {α : Type} (cause : Cause) (text : List UInt8) : Reading α :=
  .error (.broken cause text.tail.length)

/-- A broken rule, noticed just before these bytes. -/
def brokenBefore {α : Type} (cause : Cause) (rest : List UInt8) : Reading α :=
  .error (.broken cause rest.length)

/-- Whether a byte is a blank: a space, a tab or the end of a line. -/
def isBlank (b : UInt8) : Bool :=
  b == 0x20 || b == 0x09 || b == 0x0A || b == 0x0D

/-- The text without the blanks at its front. -/
def skipBlanks (text : List UInt8) : List UInt8 := text.dropWhile isBlank

/-- Whether a text starts with this byte. -/
def startsWith (b : UInt8) (text : List UInt8) : Bool := text.head? == some b

/-- Reads the rest of a literal. -/
def literal : List UInt8 → List UInt8 → Reading (List UInt8)
  | [], text => .ok text
  | _ :: _, [] => brokenBefore .endOfValue []
  | expected :: more, b :: rest =>
    if b == expected then literal more rest else brokenBefore .expectedIdent rest

end FieldSelection.Json
