import FieldSelection.Graph
import FieldSelection.Path

/-!
# How a graph grows

Nodes are only ever added at the end, so the numbers of older nodes stay valid. A child is
made only where no child with its label is there yet, spliced ones included, and a merge is
refused where it would bring a second child of one label.
-/

namespace FieldSelection

/-- Why the children of one node cannot be spliced into another. -/
inductive MergeError where
  /-- The node to take the children from has a label. -/
  | notARoot
  /-- Children with these labels are there already. -/
  | duplicateChildren (labels : List Segment)
  deriving DecidableEq, Repr

/-- What is wrong, in words. -/
def MergeError.message : MergeError → String
  | .notARoot => "only root nodes can be merged"
  | .duplicateChildren labels =>
    "duplicate children: " ++ ", ".intercalate (labels.map Segment.text)

namespace Graph

/-- The graph with one more node that nothing leads to, and its number. -/
def addNode (g : Graph) (label : Option Segment) : Graph × NodeId :=
  (⟨g.nodes.push ⟨label, []⟩⟩, g.size)

/-- The graph with one more root, and its number. -/
def addRoot (g : Graph) : Graph × NodeId := g.addNode none

/-- The graph with other links at one node. -/
def setLinks (g : Graph) (n : NodeId) (links : List Link) : Graph :=
  ⟨g.nodes.modify n fun node => { node with links }⟩

/-- The graph with one more link at the end of those of a node. -/
def addLink (g : Graph) (n : NodeId) (link : Link) : Graph :=
  g.setLinks n (g.links n ++ [link])

/-- The child of a node with this label, made if there is none. -/
def ensureChild (g : Graph) (parent : NodeId) (label : Segment) : Graph × NodeId :=
  match g.child? parent label with
  | some child => (g, child)
  | none =>
    let (g, child) := g.addNode (some label)
    (g.addLink parent (.owned child), child)

/-- The end of the path that leads on from a node, made as far as it is not there. -/
def ensureBranch (g : Graph) (parent : NodeId) : Path → Graph × NodeId
  | [] => (g, parent)
  | label :: rest =>
    let (g, child) := g.ensureChild parent label
    g.ensureBranch child rest

/-- The graph in which a node has a new catch-all child and no other, and that child. -/
def setCatchAll (g : Graph) (n : NodeId) : Graph × NodeId :=
  let (g, child) := g.addNode (some .catchAll)
  (g.setLinks n [.owned child], child)

/-- The labels of the children of `source` that also label a child of `n`. -/
def sharedLabels (g : Graph) (n source : NodeId) : List Segment :=
  (g.childLabels source).filter (g.childLabels n).contains

/-- Splices the children of a root into a node. -/
def merge (g : Graph) (n source : NodeId) : Except MergeError Graph :=
  if g.isRoot source then
    match g.sharedLabels n source with
    | [] => .ok (g.addLink n (.spliced source))
    | labels => .error (.duplicateChildren labels)
  else .error .notARoot

/-- The graph with its first nodes only. -/
def truncate (g : Graph) (size : Nat) : Graph := ⟨g.nodes.take size⟩

@[simp] theorem size_addNode (g : Graph) (label : Option Segment) :
    (g.addNode label).1.size = g.size + 1 := by
  simp [addNode, size]

@[simp] theorem size_setLinks (g : Graph) (n : NodeId) (links : List Link) :
    (g.setLinks n links).size = g.size := by
  simp [setLinks, size]

@[simp] theorem size_addLink (g : Graph) (n : NodeId) (link : Link) :
    (g.addLink n link).size = g.size := by
  simp [addLink]

end Graph

end FieldSelection
