import FieldSelection.Expression
import FieldSelection.FieldPath

/-!
# Questions about an expression

A field is retained if filtering leaves it alone where it is there: it is selected, or
lies below or above something selected. It is requested if the expression and the field
overlap as trees. The two differ on wildcards, which here reach down any number of levels
and there exactly one.

A checker can start from a place inside the document. Its questions are then relative to
that place, so the same question can be asked of an item and of a list of items.
-/

namespace FieldSelection

/-- An expression, and the place that questions about it start from. -/
structure Checker where
  /-- What the questions are about. -/
  expression : Expression
  /-- The names that lead to the place. -/
  start : List String := []

namespace Checker

/-- The names that lead to a field from the root of the document. -/
def locate (c : Checker) (path : String) : Except FieldPathError (List String) :=
  (FieldPath.names path).map (c.start ++ ·)

/-- The checker that starts from a place below this one. -/
def startingFrom (c : Checker) (path : String) : Except FieldPathError Checker :=
  (c.locate path).map fun start => { c with start }

/-- Walks down a path and a list of names until one of them ends or the path has a
wildcard. Only a different name on the way tells them apart. -/
def sharesPrefix : Path → List String → Bool
  | .name expected :: path, name :: names => expected == name && sharesPrefix path names
  | _, _ => true

/-- Whether an expression keeps the field that these names lead to. -/
def retains (e : Expression) (names : List String) : Bool :=
  e.fieldPaths.any (sharesPrefix · names)

/-- Whether an expression asks for the field that these names lead to. -/
def requests (e : Expression) (names : List String) : Bool :=
  e.overlaps (Tree.ofPath (names.map Segment.name))

/-- Whether filtering leaves a field alone. -/
def isRetained (c : Checker) (path : String) : Except FieldPathError Bool :=
  (c.locate path).map (retains c.expression)

/-- Whether a field is asked for. -/
def isRequested (c : Checker) (path : String) : Except FieldPathError Bool :=
  (c.locate path).map (requests c.expression)

end Checker

end FieldSelection
