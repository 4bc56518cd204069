import FieldSelection.Selection.Parser
import FieldSelection.Tree.Containment

/-!
# Fields expressions

An expression is a text with the selections it was read as. All else follows from those:
every path it selects, the least list of paths that selects the same, and the tree that
documents are filtered by.
-/

namespace FieldSelection

/-- A fields expression that was read. -/
structure Expression where
  /-- The expression as it was written. -/
  text : String
  /-- What it was read as. -/
  selections : Selections

namespace Expression

/-- Reads an expression. -/
def parse (text : String) : Except SyntaxError Expression :=
  (Selections.parse text).map fun selections => ⟨text, selections⟩

/-- Every path of the expression in written order, without the wildcards at its end. -/
def allPaths (e : Expression) : List Path :=
  e.selections.paths.map Path.dropTrailingWildcards

/-- The paths that no other path of the expression makes redundant. -/
def fieldPaths (e : Expression) : List Path := Path.collapse e.allPaths

/-- The tree of the field paths. -/
def filterTree (e : Expression) : Tree := Tree.ofPaths e.fieldPaths

/-- The field paths as an expression. -/
def collapsedText (e : Expression) : String :=
  ",".intercalate (e.fieldPaths.map Path.text)

/-- Whether a schema has every path of the expression. The redundant ones count: in
`a,a/b` the second must exist although the first selects it. -/
def isValidAgainst (e : Expression) (schema : Tree) : Bool :=
  e.allPaths.all fun path => schema.contains (Tree.ofPath path)

/-- Whether one of the paths lies in the tested tree or has it beneath. -/
def overlaps (e : Expression) (tested : Tree) : Bool :=
  e.fieldPaths.any fun path =>
    (Tree.ofPath path).contains tested || tested.contains (Tree.ofPath path)

end Expression

end FieldSelection
