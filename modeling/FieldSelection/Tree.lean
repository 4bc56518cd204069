import FieldSelection.Graph.Growth

/-!
# Trees

A tree is a graph seen from one of its roots. It may be a tree in name only: nodes can be
shared and can lie below themselves, so every walk over it carries a guard against going
round in circles.
-/

namespace FieldSelection

/-- A graph with the node to read it from. -/
structure Tree where
  /-- The nodes. -/
  graph : Graph
  /-- Where the tree starts. -/
  root : NodeId
  deriving DecidableEq, Repr

namespace Tree

/-- The tree of a root without children. -/
def empty : Tree :=
  let (graph, root) := Graph.empty.addRoot
  ⟨graph, root⟩

/-- The tree with one more path from its root. -/
def addPath (t : Tree) (path : Path) : Tree :=
  ⟨(t.graph.ensureBranch t.root path).1, t.root⟩

/-- The tree of one path. -/
def ofPath (path : Path) : Tree := empty.addPath path

/-- The tree that several paths make together. -/
def ofPaths (paths : List Path) : Tree := paths.foldl addPath empty

/-- The tree whose root has children with these labels and that goes no deeper. -/
def ofLabels (labels : List Segment) : Tree := ofPaths (labels.map ([·]))

/-- How many nodes there are. -/
def size (t : Tree) : Nat := t.graph.size

end Tree

end FieldSelection
