import FieldSelection.Text.Blank

/-!
# Literal field paths

Questions about an expression are asked with the names of fields, separated by `/`. There
are no wildcards and no empty names in such a path.
-/

namespace FieldSelection

/-- Why a text is no literal field path. -/
inductive FieldPathError where
  /-- It has no character that can be seen. -/
  | blank
  /-- It has a `*` in it. -/
  | wildcard (path : String)
  /-- It starts or ends with `/`, or has two of them in a row. -/
  | separators (path : String)
  deriving DecidableEq, Repr

/-- What is wrong, in words. -/
def FieldPathError.message : FieldPathError → String
  | .blank => "field path must be a non-blank string"
  | .wildcard path => "field path '" ++ path ++ "' must not contain wildcards"
  | .separators path =>
    "field path '" ++ path ++ "' must not start with, end with or have repeated '/' chars"

namespace FieldPath

/-- The parts of a text between its separators: always one more than there are of those. -/
def split : List Char → List (List Char)
  | [] => [[]]
  | '/' :: rest => [] :: split rest
  | c :: rest =>
    match split rest with
    | [] => [[c]]
    | part :: parts => (c :: part) :: parts

/-- The names of a literal field path, or what is wrong with it. -/
def names (path : String) : Except FieldPathError (List String) :=
  let parts := split path.toList
  if Text.isBlankText path then .error .blank
  else if '*' ∈ path.toList then .error (.wildcard path)
  else if [] ∈ parts then .error (.separators path)
  else .ok (parts.map String.ofList)

end FieldPath

end FieldSelection
