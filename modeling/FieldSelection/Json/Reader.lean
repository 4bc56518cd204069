import FieldSelection.Json.Lexeme.Punctuation
import FieldSelection.Json.Lexeme.Scalar

/-!
# Reading a document as one value

A text is read as a value when it is one, with nothing but blanks around it. Of several
members of one name the last counts. An object whose first member has the name
`numberName` stands for a number, whose digits that member gives as a string.

The readers of lists count down the bytes of the text. Each element takes at least one, so
the count runs out only where the text does.
-/

namespace FieldSelection.Json

/-- How many containers can be open at once. -/
def depthLimit : Nat := 127

/-- The name of the first member of an object that stands for a number. -/
def numberName : String := "$serde_json::private::Number"

/-- Reads the elements of an array after its bracket. -/
def elements {α : Type} (item : Reader α) :
    Nat → Bool → List UInt8 → Reading (List α × List UInt8)
  | 0, _, _ => brokenBefore .endOfList []
  | fuel + 1, first, text => do
    match ← nextElement first text with
    | .done rest => return ([], rest)
    | .element text =>
      let (x, rest) ← item text
      let (xs, rest) ← elements item fuel false rest
      return (x :: xs, rest)

/-- Reads the members of an object after the name of the next one. -/
def membersFrom {α : Type} (item : Reader α) :
    Nat → NextMember → Reading (List (String × α) × List UInt8)
  | _, .done rest => .ok ([], rest)
  | 0, .member _ _ => brokenBefore .endOfObject []
  | fuel + 1, .member name text => do
    let text ← colon text
    let (x, rest) ← item text
    let next ← nextMember false rest
    let (xs, rest) ← membersFrom item fuel next
    return ((name, x) :: xs, rest)

/-- Reads a value, with at most `depth` containers open at once. -/
def value : Nat → Reader Value
  | depth, text =>
    match skipBlanks text with
    | [] => brokenBefore .endOfValue []
    | b :: rest =>
      if b == byte '[' then
        match depth with
        | 0 => brokenAt .nestedTooDeep (b :: rest)
        | depth + 1 => do
          let (items, rest) ← elements (value depth) (rest.length + 1) true rest
          return (.array items, rest)
      else if b == byte '\x7b' then
        match depth with
        | 0 => brokenAt .nestedTooDeep (b :: rest)
        | depth + 1 => do
          match ← nextMember true rest with
          | .member name text =>
            if name = numberName then
              let (digits, rest) ← wantedString .numericString (← colon text)
              let n ← numberOfText digits
              return (.number n, ← endOfRecord rest)
            else
              let (members, rest) ←
                membersFrom (value depth) rest.length (.member name text)
              return (.ofMembers members, rest)
          | .done rest => return (.ofMembers [], rest)
      else scalar (b :: rest)

/-- Reads a whole document as a value. -/
def Value.parse (text : List UInt8) : Except (Fault Position) Value :=
  let reading : Reading Value := do
    let (v, rest) ← value depthLimit text
    endOfDocument rest
    return v
  reading.mapError (Fault.located text)

end FieldSelection.Json
