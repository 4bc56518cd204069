import FieldSelection.Json.Event
import FieldSelection.Json.Lexeme.Number
import FieldSelection.Json.Lexeme.Punctuation

/-!
# Passing over a value

A value that nobody wants is passed over without being built. It has to be well formed, but
less is looked at than in a value that is read: containers may nest as deep as they like,
and the escapes of a string need not make characters.

The places at which faults are noticed differ a little, too. A control character is noticed
before it is taken, and a number that breaks off is no number rather than an early end.
-/

namespace FieldSelection.Json

/-- Where in a string the reader is. -/
inductive SkipState where
  /-- Between two characters. -/
  | plain
  /-- After a backslash. -/
  | escape
  /-- Within the four digits of an escape. -/
  | unit (digits : List UInt8)
  deriving DecidableEq, Repr

/-- Passes over the content of a string and its closing quote. -/
def skipString : SkipState → List UInt8 → Reading (List UInt8)
  | _, [] => brokenBefore .endOfString []
  | .plain, b :: rest =>
    if b == byte '"' then .ok rest
    else if b == byte '\\' then skipString .escape rest
    else if b < 0x20 then brokenBefore .controlCharacter (b :: rest)
    else skipString .plain rest
  | .escape, b :: rest =>
    if b == byte 'u' then skipString (.unit []) rest
    else if (escaped? b).isSome then skipString .plain rest
    else brokenBefore .invalidEscape rest
  | .unit digits, b :: rest =>
    if digits.length < 3 then skipString (.unit (digits ++ [b])) rest
    else if (hexNumber? (digits ++ [b])).isSome then skipString .plain rest
    else brokenBefore .invalidEscape rest

/-- Passes over a number. -/
def skipNumber (text : List UInt8) : Reading (List UInt8) :=
  match number text with
  | .ok (_, rest) => .ok rest
  | .error (.broken .endOfValue place) => .error (.broken .invalidNumber place)
  | .error fault => .error fault

/-- Passes over a value that starts with neither a bracket nor a brace. -/
def skipScalar (text : List UInt8) : Reading (List UInt8) :=
  match text with
  | [] => brokenBefore .endOfValue []
  | b :: rest =>
    if b == byte 'n' then literal (ascii "ull") rest
    else if b == byte 't' then literal (ascii "rue") rest
    else if b == byte 'f' then literal (ascii "alse") rest
    else if b == byte '"' then skipString .plain rest
    else if startsNumber b then skipNumber (b :: rest)
    else brokenAt .expectedValue (b :: rest)

/-- Where a value that is passed over stands after one of its parts. -/
inductive Skipped where
  /-- At its end, with what follows it. -/
  | done (rest : List UInt8)
  /-- In front of another part, within these containers, innermost first. -/
  | within (frames : List Container) (text : List UInt8)

/-- Passes over what stands in front of a part: in an object its name and a colon. -/
def skipName (kind : Container) (text : List UInt8) : Reading (List UInt8) :=
  match kind with
  | .array => .ok text
  | .object =>
    match skipBlanks text with
    | [] => brokenBefore .endOfObject []
    | b :: rest =>
      if b == byte '"' then do
        let rest ← skipString .plain rest
        colon rest
      else brokenAt .keyNotString (b :: rest)

/-- Passes over the ends of containers after a part, or after an opening bracket, and over
what stands in front of the next part. Only a part can have a comma after it. -/
def skipEnds : Bool → List Container → List UInt8 → Reading Skipped
  | _, [], text => .ok (.done text)
  | afterPart, kind :: outer, text =>
    match skipBlanks text with
    | [] => brokenBefore (if kind = .array then .endOfList else .endOfObject) []
    | b :: rest =>
      if afterPart && b == byte ',' then
        (skipName kind rest).map (.within (kind :: outer))
      else if b == kind.stopByte then skipEnds true outer rest
      else if afterPart then
        brokenAt (if kind = .array then .expectedCommaOrBracket else .expectedCommaOrBrace)
          (b :: rest)
      else (skipName kind (b :: rest)).map (.within (kind :: outer))

/-- Passes over a part and all parts after it. -/
def skipParts : Nat → List Container → List UInt8 → Reading (List UInt8)
  | 0, _, _ => brokenBefore .endOfValue []
  | fuel + 1, frames, text => do
    let skipped ←
      match skipBlanks text with
      | [] => brokenBefore .endOfValue []
      | b :: rest =>
        if b == byte '[' then skipEnds false (.array :: frames) rest
        else if b == byte '\x7b' then skipEnds false (.object :: frames) rest
        else do
          let rest ← skipScalar (b :: rest)
          skipEnds true frames rest
    match skipped with
    | .done rest => return rest
    | .within frames text => skipParts fuel frames text

/-- Passes over a value. Each part of it takes a byte, so there are no more parts than
bytes. -/
def skipValue (text : List UInt8) : Reading (List UInt8) :=
  skipParts (text.length + 1) [] text

end FieldSelection.Json
