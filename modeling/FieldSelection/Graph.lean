import FieldSelection.Segment

/-!
# Graphs of labelled nodes

The nodes of a graph are numbered from 0 in the order of their making. A node without a
label is a root. Its links lead to children of its own, or splice in the children of
another node: those are looked up each time they are read, so a node can be reached from
itself and a child that is added later shows up wherever its parent is spliced in.

A graph grows by the operations of `FieldSelection.Graph.Growth`. Looking up a number that
belongs to no node gives no label and no links.
-/

namespace FieldSelection

/-- The number of a node in its graph. -/
abbrev NodeId := Nat

/-- What a node says about its children. -/
inductive Link where
  /-- This node is a child. -/
  | owned (child : NodeId)
  /-- All children of that node are children here too. -/
  | spliced (source : NodeId)
  deriving DecidableEq, Repr

/-- A node: its label, none for a root, and its links in the order they were made. -/
structure Node where
  /-- The segment that leads to the node. -/
  label : Option Segment
  /-- Where the children come from. -/
  links : List Link
  deriving DecidableEq, Repr

/-- A collection of nodes that refer to each other by number. -/
structure Graph where
  /-- The nodes, each at its number. -/
  nodes : Array Node
  deriving DecidableEq, Repr

namespace Graph

/-- The graph without nodes. -/
def empty : Graph := ⟨#[]⟩

/-- How many nodes there are. -/
def size (g : Graph) : Nat := g.nodes.size

/-- The label of a node. -/
def label (g : Graph) (n : NodeId) : Option Segment :=
  g.nodes[n]?.bind Node.label

/-- The links of a node. -/
def links (g : Graph) (n : NodeId) : List Link :=
  match g.nodes[n]? with
  | some node => node.links
  | none => []

/-- Takes the owned children at the front of a list of links and passes over splices that
were followed before or lead nowhere. Gives those children and, if there is one, the
first splice that is still to be followed, with the links after it. -/
def nextSplice (g : Graph) (followed : List NodeId) :
    List Link → List NodeId × Option (NodeId × List Link)
  | [] => ([], none)
  | .owned child :: rest =>
    let (children, splice) := g.nextSplice followed rest
    (child :: children, splice)
  | .spliced source :: rest =>
    if source ∈ followed ∨ g.size ≤ source then g.nextSplice followed rest
    else ([], some (source, rest))

/-- The children that a list of links comes to, following at most `budget` splices and
none twice; nothing if there are more splices than that. -/
def resolve? (g : Graph) : Nat → List NodeId → List Link → Option (List NodeId)
  | budget, followed, links =>
    match g.nextSplice followed links with
    | (children, none) => some children
    | (children, some (source, rest)) =>
      match budget with
      | 0 => none
      | budget + 1 =>
        (g.resolve? budget (source :: followed) (g.links source ++ rest)).map (children ++ ·)

/-- The children of a node, its own and those spliced in, in the order of the links. No
splice is followed twice, so there are at most as many to follow as there are nodes. -/
def children (g : Graph) (n : NodeId) : List NodeId :=
  (g.resolve? g.size [n] (g.links n)).getD []

/-- The first child of a node with this label. -/
def child? (g : Graph) (n : NodeId) (label : Segment) : Option NodeId :=
  (g.children n).find? fun child => g.label child == some label

/-- Whether a node has no label. -/
def isRoot (g : Graph) (n : NodeId) : Bool := (g.label n).isNone

/-- Whether a node has no children. -/
def isLeaf (g : Graph) (n : NodeId) : Bool := (g.children n).isEmpty

/-- Whether a node is labelled with the wildcard. -/
def isWildcard (g : Graph) (n : NodeId) : Bool := g.label n == some .wildcard

/-- Whether a node is labelled with the catch-all. -/
def isCatchAll (g : Graph) (n : NodeId) : Bool := g.label n == some .catchAll

/-- Whether a node selects a field called `field`. -/
def selects (g : Graph) (n : NodeId) (field : String) : Bool :=
  match g.label n with
  | some segment => segment.matchesName field
  | none => false

/-- The labels of the children of a node. -/
def childLabels (g : Graph) (n : NodeId) : List Segment :=
  (g.children n).filterMap g.label

end Graph

end FieldSelection
