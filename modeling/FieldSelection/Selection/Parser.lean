import FieldSelection.Selection

/-!
# Reading a fields expression

An expression is read all at once or refused. The grammar is

* expression: selections separated by `,`
* selection: segments separated by `/`, and after the last one an optional group
* group: `(`, an expression, `)`
* segment: `*`, or a run of characters that names may hold

Each reader below takes as much of the text as it can and hands back the rest. A list
whose next element is missing ends in front of the separator, and a group that cannot be
read up to its `)` counts as absent; the text is accepted if nothing is left over. So a
refused text is reported at the end of its longest prefix that is an expression.

The number the readers count down bounds their nesting. Every two levels take a character
off the text, so twice its length is enough, whatever the text is.
-/

namespace FieldSelection

/-- Reads a segment at the front of a text. -/
def segment? : List Char → Option (Segment × List Char)
  | '*' :: rest => some (.wildcard, rest)
  | text =>
    match text.takeWhile isNameChar with
    | [] => none
    | name => some (.name (String.ofList name), text.dropWhile isNameChar)

mutual

/-- Reads one element of an expression at the front of a text. -/
def selection? : Nat → List Char → Option (Selection × List Char)
  | 0, _ => none
  | fuel + 1, text =>
    match segment? text with
    | none => none
    | some (s, '/' :: rest) =>
      match selection? fuel rest with
      | some (selection, rest') => some (.step s selection, rest')
      | none => some (.leaf s, '/' :: rest)
    | some (s, '(' :: rest) =>
      match selections? fuel rest with
      | some (members, ')' :: rest') => some (.group s members, rest')
      | _ => some (.leaf s, '(' :: rest)
    | some (s, rest) => some (.leaf s, rest)

/-- Reads the elements of an expression or a group at the front of a text. -/
def selections? : Nat → List Char → Option (Selections × List Char)
  | 0, _ => none
  | fuel + 1, text =>
    match selection? fuel text with
    | none => none
    | some (selection, ',' :: rest) =>
      match selections? fuel rest with
      | some (selections, rest') => some (.cons selection selections, rest')
      | none => some (.one selection, ',' :: rest)
    | some (selection, rest) => some (.one selection, rest)

end

/-- Why a text is no fields expression: the place that no reading of it gets past. -/
structure SyntaxError where
  /-- The whole text that was refused. -/
  expression : String
  /-- How many bytes lie before the place. -/
  offset : Nat
  /-- The character at the place, if the text does not end there. -/
  found : Option Char
  deriving DecidableEq, Repr

namespace SyntaxError

/-- What is wrong, without the text. -/
def reason (e : SyntaxError) : String :=
  let found := match e.found with
    | some c => "'" ++ c.toString ++ "'"
    | none => "end of input"
  "unexpected " ++ found ++ " at offset " ++ toString e.offset

/-- What is wrong, with the text. -/
def message (e : SyntaxError) : String :=
  "fields expression '" ++ e.expression ++ "' is invalid: " ++ e.reason

end SyntaxError

/-- How many bytes a text takes in UTF-8. -/
def utf8Length (text : List Char) : Nat :=
  text.foldr (fun c length => c.utf8Size + length) 0

namespace Selections

/-- The longest expression at the front of a text, with what follows it. -/
def longest? (text : List Char) : Option (Selections × List Char) :=
  selections? (2 * text.length + 2) text

/-- Reads a whole text as an expression. -/
def parse (text : String) : Except SyntaxError Selections :=
  match longest? text.toList with
  | some (selections, []) => .ok selections
  | some (_, c :: rest) =>
    .error ⟨text, utf8Length text.toList - utf8Length (c :: rest), some c⟩
  | none => .error ⟨text, 0, text.toList.head?⟩

end Selections

end FieldSelection
