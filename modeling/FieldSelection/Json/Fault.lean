import FieldSelection.Text.Quoted

/-!
# What is wrong with a JSON text

A text can break the rules of the format at a place, or hold a value of the wrong type. A
rule is broken where the reader notices it. The reader knows how many bytes are left over
after that place, and `Position.before` makes a line and a column of it.
-/

namespace FieldSelection.Json

/-- A rule of the format that a text breaks. -/
inductive Cause where
  /-- The text ends where a value is due, or within a number or a literal. -/
  | endOfValue
  /-- The text ends within an array. -/
  | endOfList
  /-- The text ends within an object. -/
  | endOfObject
  /-- The text ends within a string. -/
  | endOfString
  /-- No value starts like this. -/
  | expectedValue
  /-- No literal goes on like this. -/
  | expectedIdent
  /-- No number is written like this. -/
  | invalidNumber
  /-- An element is followed by neither a comma nor the end of the array. -/
  | expectedCommaOrBracket
  /-- A member is followed by neither a comma nor the end of the object. -/
  | expectedCommaOrBrace
  /-- A member name is not followed by a colon. -/
  | expectedColon
  /-- A container ends after a comma. -/
  | trailingComma
  /-- A member name is not a string. -/
  | keyNotString
  /-- Something follows the document. -/
  | trailingCharacters
  /-- A string holds a control character. -/
  | controlCharacter
  /-- No escape is written like this. -/
  | invalidEscape
  /-- The first half of a surrogate pair is not followed by an escape. -/
  | endOfHexEscape
  /-- One half of a surrogate pair stands without the other. -/
  | loneSurrogate
  /-- A string is not UTF-8. -/
  | invalidCodePoint
  /-- Too many containers are open at once. -/
  | nestedTooDeep
  deriving DecidableEq, Repr

/-- The broken rule in words. -/
def Cause.message : Cause → String
  | .endOfValue => "EOF while parsing a value"
  | .endOfList => "EOF while parsing a list"
  | .endOfObject => "EOF while parsing an object"
  | .endOfString => "EOF while parsing a string"
  | .expectedValue => "expected value"
  | .expectedIdent => "expected ident"
  | .invalidNumber => "invalid number"
  | .expectedCommaOrBracket => "expected `,` or `]`"
  | .expectedCommaOrBrace => "expected `,` or `\x7d`"
  | .expectedColon => "expected `:`"
  | .trailingComma => "trailing comma"
  | .keyNotString => "key must be a string"
  | .trailingCharacters => "trailing characters"
  | .controlCharacter => "control character (\\u0000-\\u001F) found while parsing a string"
  | .invalidEscape => "invalid escape"
  | .endOfHexEscape => "unexpected end of hex escape"
  | .loneSurrogate => "lone leading surrogate in hex escape"
  | .invalidCodePoint => "invalid unicode code point"
  | .nestedTooDeep => "recursion limit exceeded"

/-- What a value is, as far as its type goes. -/
inductive Found where
  /-- The value `null`. -/
  | null
  /-- A truth value. -/
  | bool (value : Bool)
  /-- An integer that fits into 64 bits. -/
  | integer (value : Int)
  /-- Any other number. -/
  | number
  /-- A string. -/
  | string (text : String)
  /-- An array. -/
  | sequence
  /-- An object. -/
  | map
  deriving DecidableEq, Repr

/-- The value that was found, in words. -/
def Found.message : Found → String
  | .null => "null"
  | .bool value => "boolean `" ++ (if value then "true" else "false") ++ "`"
  | .integer value => "integer `" ++ toString value ++ "`"
  | .number => "number"
  | .string text => "string " ++ Text.quoted text
  | .sequence => "sequence"
  | .map => "map"

/-- What should stand in the place of a value. -/
inductive Wanted where
  /-- Any string. -/
  | string
  /-- A string that holds a number. -/
  | numericString
  /-- An object of any names. -/
  | map
  /-- An object with the fields of a named record. -/
  | record (name : String)
  deriving DecidableEq, Repr

/-- What should stand in the place of a value, in words. -/
def Wanted.message : Wanted → String
  | .string => "a string"
  | .numericString => "string containing a number"
  | .map => "a map"
  | .record name => "struct " ++ name

/-- A place in a text: its line, and how far into the line the text was read. -/
structure Position where
  /-- The number of the line, from 1. -/
  line : Nat
  /-- How many bytes of the line were read. -/
  column : Nat
  deriving DecidableEq, Repr

/-- The place in a text that has this many bytes after it. -/
def Position.before (text : List UInt8) (remaining : Nat) : Position :=
  let consumed := text.take (text.length - remaining)
  ⟨1 + consumed.count 0x0A, (consumed.reverse.takeWhile (· != 0x0A)).length⟩

/-- What is wrong with a text. Only broken rules of the format have a place. -/
inductive Fault (α : Type) where
  /-- The text breaks a rule of the format. -/
  | broken (cause : Cause) (place : α)
  /-- A value is of the wrong type. -/
  | mistyped (found : Found) (wanted : Wanted)
  /-- A field of a record is given twice. -/
  | repeated (field : String)
  /-- A string that should hold the digits of a number does not. -/
  | digits (cause : Cause)
  deriving DecidableEq, Repr

namespace Fault

/-- The fault with its place told in another way. -/
def map {p q : Type} (f : p → q) : Fault p → Fault q
  | .broken cause place => .broken cause (f place)
  | .mistyped found wanted => .mistyped found wanted
  | .repeated field => .repeated field
  | .digits cause => .digits cause

/-- What is wrong, in words. -/
def message : Fault Position → String
  | .broken cause place =>
    cause.message ++ " at line " ++ toString place.line ++ " column " ++ toString place.column
  | .mistyped found wanted =>
    "invalid type: " ++ found.message ++ ", expected " ++ wanted.message
  | .repeated field => "duplicate field `" ++ field ++ "`"
  | .digits cause => cause.message

/-- The fault with its place found in the text that was read. -/
def located (text : List UInt8) : Fault Nat → Fault Position :=
  map (Position.before text)

end Fault

/-- The outcome of reading something at the front of a text, or what is wrong with it and
how many bytes follow the place. -/
abbrev Reading (α : Type) := Except (Fault Nat) α

end FieldSelection.Json
