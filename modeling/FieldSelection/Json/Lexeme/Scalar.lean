import FieldSelection.Json.Lexeme.Number
import FieldSelection.Json.Lexeme.String

/-!
# Reading values without values inside

The first byte of such a value tells what it should be. Where a value of another type is
wanted, it is refused for what it is.
-/

namespace FieldSelection.Json

/-- Reads a value that starts with neither a bracket nor a brace. -/
def scalar (text : List UInt8) : Reading (Value × List UInt8) :=
  match text with
  | [] => brokenBefore .endOfValue []
  | b :: rest =>
    if b == byte 'n' then (literal (ascii "ull") rest).map (Value.null, ·)
    else if b == byte 't' then (literal (ascii "rue") rest).map (Value.bool true, ·)
    else if b == byte 'f' then (literal (ascii "alse") rest).map (Value.bool false, ·)
    else if b == byte '"' then (string rest).map fun (s, rest) => (Value.string s, rest)
    else if startsNumber b then
      (number (b :: rest)).map fun (n, rest) => (Value.number n, rest)
    else brokenAt .expectedValue (b :: rest)

/-- What a scalar is, as far as its type goes. -/
def Value.found : Value → Found
  | .null => .null
  | .bool b => .bool b
  | .number n =>
    match n.machineInteger? with
    | some i => .integer i
    | none => .number
  | .string s => .string s
  | .array _ => .sequence
  | .object _ => .map

/-- Refuses a value for its type. The start of a container tells enough; anything else is
read first, and may turn out to be no value at all. -/
def mistyped {α : Type} (wanted : Wanted) (text : List UInt8) : Reading α :=
  if startsWith (byte '[') text then .error (.mistyped .sequence wanted)
  else if startsWith (byte '\x7b') text then .error (.mistyped .map wanted)
  else do
    let (v, _) ← scalar text
    .error (.mistyped v.found wanted)

/-- Reads a value that must be a string. -/
def wantedString (wanted : Wanted) (text : List UInt8) : Reading (String × List UInt8) :=
  match skipBlanks text with
  | [] => brokenBefore .endOfValue []
  | b :: rest =>
    if b == byte '"' then string rest else mistyped wanted (b :: rest)

end FieldSelection.Json
