import FieldSelection.Json.Number
import FieldSelection.Text.Utf8

/-!
# Strings as they are written

A string is written between quotes. A quote, a backslash and the control characters below
U+0020 are escaped, five of these by a letter and the others by four digits; every other
character is written as it is.
-/

namespace FieldSelection.Json

/-- The lower-case hexadecimal digit of a number below 16. -/
def hexByte (n : Nat) : UInt8 := UInt8.ofNat (if n < 10 then 48 + n else 87 + n)

/-- The letter that escapes a character, if it has one. -/
def escapeLetter? (c : Char) : Option Char :=
  if c = '"' then some '"'
  else if c = '\\' then some '\\'
  else if c = '\x08' then some 'b'
  else if c = '\x0c' then some 'f'
  else if c = '\n' then some 'n'
  else if c = '\r' then some 'r'
  else if c = '\t' then some 't'
  else none

/-- The bytes that a character of a string is written as. -/
def quotedChar (c : Char) : List UInt8 :=
  match escapeLetter? c with
  | some letter => [byte '\\', byte letter]
  | none =>
    if c.toNat < 0x20 then
      ascii "\\u00" ++ [hexByte (c.toNat / 16), hexByte (c.toNat % 16)]
    else String.utf8EncodeChar c

/-- The bytes of a string in quotes. -/
def quoted (text : String) : List UInt8 :=
  byte '"' :: (text.toList.flatMap quotedChar ++ [byte '"'])

end FieldSelection.Json
