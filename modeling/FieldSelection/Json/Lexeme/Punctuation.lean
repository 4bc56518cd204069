import FieldSelection.Json.Lexeme.String

/-!
# Reading punctuation

What stands between the values of a document: the brackets and braces, the commas, the
colons after names, and the end of it all.
-/

namespace FieldSelection.Json

/-- What comes next in an array. -/
inductive NextElement where
  /-- Its end, with what follows it. -/
  | done (rest : List UInt8)
  /-- An element, at the front of this text. -/
  | element (text : List UInt8)

/-- Looks for the next element of an array. All but the first have a comma in front. -/
def nextElement (first : Bool) (text : List UInt8) : Reading NextElement :=
  match skipBlanks text with
  | [] => brokenBefore .endOfList []
  | b :: rest =>
    if b == byte ']' then .ok (.done rest)
    else if first then .ok (.element (b :: rest))
    else if b == byte ',' then
      match skipBlanks rest with
      | [] => brokenBefore .endOfValue []
      | c :: rest =>
        if c == byte ']' then brokenAt .trailingComma (c :: rest)
        else .ok (.element (c :: rest))
    else brokenAt .expectedCommaOrBracket (b :: rest)

/-- What comes next in an object. -/
inductive NextMember where
  /-- Its end, with what follows it. -/
  | done (rest : List UInt8)
  /-- A member of this name, whose colon is due at the front of this text. -/
  | member (name : String) (text : List UInt8)

/-- Looks for the next member of an object and reads its name. All but the first have a
comma in front. -/
def nextMember (first : Bool) (text : List UInt8) : Reading NextMember :=
  match skipBlanks text with
  | [] => brokenBefore .endOfObject []
  | b :: rest =>
    if b == byte '\x7d' then .ok (.done rest)
    else if first then
      if b == byte '"' then named rest else brokenAt .keyNotString (b :: rest)
    else if b == byte ',' then
      match skipBlanks rest with
      | [] => brokenBefore .endOfValue []
      | c :: rest =>
        if c == byte '"' then named rest
        else if c == byte '\x7d' then brokenAt .trailingComma (c :: rest)
        else brokenAt .keyNotString (c :: rest)
    else brokenAt .expectedCommaOrBrace (b :: rest)
where
  /-- Reads the name after its opening quote. -/
  named (text : List UInt8) : Reading NextMember :=
    (string text).map fun (name, rest) => .member name rest

/-- Takes the colon between the name of a member and its value. -/
def colon (text : List UInt8) : Reading (List UInt8) :=
  match skipBlanks text with
  | [] => brokenBefore .endOfObject []
  | b :: rest => if b == byte ':' then .ok rest else brokenAt .expectedColon (b :: rest)

/-- Takes the end of an object of which all that is wanted was read. -/
def endOfRecord (text : List UInt8) : Reading (List UInt8) :=
  match skipBlanks text with
  | [] => brokenBefore .endOfObject []
  | b :: rest =>
    if b == byte '\x7d' then .ok rest
    else if b == byte ',' then brokenAt .trailingComma (b :: rest)
    else brokenAt .trailingCharacters (b :: rest)

/-- Takes the end of an array of which all that is wanted was read. -/
def endOfTuple (text : List UInt8) : Reading (List UInt8) :=
  match skipBlanks text with
  | [] => brokenBefore .endOfList []
  | b :: rest =>
    if b == byte ']' then .ok rest
    else if b == byte ',' then
      let rest := skipBlanks rest
      if startsWith (byte ']') rest then brokenAt .trailingComma rest
      else brokenAt .trailingCharacters rest
    else brokenAt .trailingCharacters (b :: rest)

/-- Makes sure that nothing but blanks follows a document. -/
def endOfDocument (text : List UInt8) : Reading Unit :=
  match skipBlanks text with
  | [] => .ok ()
  | b :: rest => brokenAt .trailingCharacters (b :: rest)

end FieldSelection.Json
