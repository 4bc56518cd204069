import FieldSelection.Path
import FieldSelection.Text.Blank

/-!
# Selections

A selection is the shape of one element of a fields expression, such as `a/b(c,d/e)`: a
chain of segments that may end in a group of further selections. A group is never empty.

`Selection.paths` gives the meaning: every group is distributed over the segments before
it, so `a(b,c)` selects what `a/b,a/c` selects.
-/

namespace FieldSelection

mutual

/-- One element of a fields expression. -/
inductive Selection where
  /-- The chain ends in this segment. -/
  | leaf (segment : Segment)
  /-- The chain goes on below this segment. -/
  | step (segment : Segment) (rest : Selection)
  /-- The chain ends in this segment, with a group of selections below it. -/
  | group (segment : Segment) (members : Selections)

/-- The elements of an expression or a group, at least one. -/
inductive Selections where
  /-- The last element. -/
  | one (selection : Selection)
  /-- An element with more after it. -/
  | cons (selection : Selection) (rest : Selections)

end

mutual

/-- The paths that one element selects, in written order. -/
def Selection.paths : Selection → List Path
  | .leaf s => [[s]]
  | .step s rest => rest.paths.map (s :: ·)
  | .group s members => members.paths.map (s :: ·)

/-- The paths that a list of elements selects, in written order. -/
def Selections.paths : Selections → List Path
  | .one selection => selection.paths
  | .cons selection rest => selection.paths ++ rest.paths

end

/-- Whether a character can be part of a field name in an expression: it is no
punctuation of expressions and no white space. -/
def isNameChar (c : Char) : Bool :=
  !(c == ',' || c == '/' || c == '(' || c == ')' || c == '*') && !Text.isBlank c

/-- Whether an expression can name a segment: the wildcard, or a name of at least one
character, all of which names may hold. -/
def Segment.isWritable : Segment → Bool
  | .name text => !text.isEmpty && text.toList.all isNameChar
  | .wildcard => true
  | .catchAll => false

mutual

/-- Whether every segment of an element can be written. -/
def Selection.isWritable : Selection → Bool
  | .leaf s => s.isWritable
  | .step s rest => s.isWritable && rest.isWritable
  | .group s members => s.isWritable && members.isWritable

/-- Whether every segment of a list of elements can be written. -/
def Selections.isWritable : Selections → Bool
  | .one selection => selection.isWritable
  | .cons selection rest => selection.isWritable && rest.isWritable

end

end FieldSelection
