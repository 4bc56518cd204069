import FieldSelection.Json.Lexeme

/-!
# Reading strings

The content of a string is read byte by byte by a machine that knows whether it is inside
of an escape. An escape of four digits stands for a character, or for one half of a
surrogate pair, which must be followed by the other half.

That the content is UTF-8 is checked when the string ends, after all other faults.
-/

namespace FieldSelection.Json

/-- The value of a hexadecimal digit. -/
def hexValue? (b : UInt8) : Option Nat :=
  let n := b.toNat
  if 48 ≤ n ∧ n ≤ 57 then some (n - 48)
  else if 65 ≤ n ∧ n ≤ 70 then some (n - 55)
  else if 97 ≤ n ∧ n ≤ 102 then some (n - 87)
  else none

/-- The number that hexadecimal digits stand for. -/
def hexNumber? (digits : List UInt8) : Option Nat :=
  digits.foldlM (fun acc b => (hexValue? b).map (16 * acc + ·)) 0

/-- The character that a letter escapes. -/
def escaped? (b : UInt8) : Option Char :=
  if b == byte '"' then some '"'
  else if b == byte '\\' then some '\\'
  else if b == byte '/' then some '/'
  else if b == byte 'b' then some '\x08'
  else if b == byte 'f' then some '\x0c'
  else if b == byte 'n' then some '\n'
  else if b == byte 'r' then some '\r'
  else if b == byte 't' then some '\t'
  else none

/-- Whether a number is the first half of a surrogate pair. -/
def isHighSurrogate (n : Nat) : Bool := 0xD800 ≤ n && n ≤ 0xDBFF

/-- Whether a number is the second half of a surrogate pair. -/
def isLowSurrogate (n : Nat) : Bool := 0xDC00 ≤ n && n ≤ 0xDFFF

/-- The character that a surrogate pair stands for. -/
def ofSurrogates (high low : Nat) : Char :=
  Char.ofNat (0x10000 + (high - 0xD800) * 0x400 + (low - 0xDC00))

/-- Where in a string the reader is. -/
inductive StringState where
  /-- Between two characters. -/
  | plain
  /-- After a backslash. -/
  | escape
  /-- Within the four digits of an escape, after the first half of a pair or not. -/
  | unit (high : Option Nat) (digits : List UInt8)
  /-- After the first half of a pair: a backslash must follow. -/
  | pairEscape (high : Nat)
  /-- After the first half of a pair and a backslash: an `u` must follow. -/
  | pairUnit (high : Nat)
  deriving DecidableEq, Repr

/-- Reads the content of a string up to its closing quote: its bytes with the escapes
replaced, and what follows the quote. -/
def stringBytes : StringState → List UInt8 → Reading (List UInt8 × List UInt8)
  | _, [] => brokenBefore .endOfString []
  | .plain, b :: rest =>
    if b == byte '"' then .ok ([], rest)
    else if b == byte '\\' then stringBytes .escape rest
    else if b < 0x20 then brokenBefore .controlCharacter rest
    else do
      let (content, rest) ← stringBytes .plain rest
      return (b :: content, rest)
  | .escape, b :: rest =>
    if b == byte 'u' then stringBytes (.unit none []) rest
    else
      match escaped? b with
      | none => brokenBefore .invalidEscape rest
      | some c => do
        let (content, rest) ← stringBytes .plain rest
        return (String.utf8EncodeChar c ++ content, rest)
  | .unit high digits, b :: rest =>
    if digits.length < 3 then stringBytes (.unit high (digits ++ [b])) rest
    else
      match hexNumber? (digits ++ [b]), high with
      | none, _ => brokenBefore .invalidEscape rest
      | some n, none =>
        if isLowSurrogate n then brokenBefore .loneSurrogate rest
        else if isHighSurrogate n then stringBytes (.pairEscape n) rest
        else do
          let (content, rest) ← stringBytes .plain rest
          return (String.utf8EncodeChar (Char.ofNat n) ++ content, rest)
      | some n, some high =>
        if isLowSurrogate n then do
          let (content, rest) ← stringBytes .plain rest
          return (String.utf8EncodeChar (ofSurrogates high n) ++ content, rest)
        else brokenBefore .loneSurrogate rest
  | .pairEscape high, b :: rest =>
    if b == byte '\\' then stringBytes (.pairUnit high) rest
    else brokenBefore .endOfHexEscape rest
  | .pairUnit high, b :: rest =>
    if b == byte 'u' then stringBytes (.unit (some high) []) rest
    else brokenBefore .endOfHexEscape rest

/-- Reads a string after its opening quote. That it is UTF-8 is checked when it ends, and
the place of the fault is counted back from there, by as many bytes as the content has from
its first broken character on. Where no escape stands in between this is the first byte of
that character; an escape takes more bytes than what it stands for and moves the place
towards the end. -/
def string (text : List UInt8) : Reading (String × List UInt8) := do
  let (content, rest) ← stringBytes .plain text
  match Text.ofBytes? content with
  | some s => return (s, rest)
  | none => brokenBefore .invalidCodePoint (Text.dropText content ++ rest)

end FieldSelection.Json
