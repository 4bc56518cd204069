import FieldSelection.Tree

/-!
# Containment

One tree contains another if it accepts whatever the other one names: each child of the
other has a counterpart among its own children, all the way down. A catch-all accepts
everything, and a wildcard on either side goes with any label.

A pair of nodes that is met again while it is being compared is taken to fit. That is what
makes the comparison end on trees that contain themselves, and it refuses nothing that a
walk down both trees would accept.
-/

namespace FieldSelection

namespace Graph

/-- Whether the labels of two nodes go together: they are equal, or one is the wildcard. -/
def labelsFit (g h : Graph) (a b : NodeId) : Bool :=
  g.label a == h.label b || g.isWildcard a || h.isWildcard b

/-- Whether node `a` of `g` contains node `b` of `h`, given the pairs that are being
compared; nothing if the comparison would nest deeper than `depth`. -/
def contains? (g h : Graph) : Nat → List (NodeId × NodeId) → NodeId → NodeId → Option Bool
  | 0, _, _, _ => none
  | depth + 1, comparing, a, b =>
    if g.isCatchAll a then some true
    else if !g.labelsFit h a b then some false
    else if (a, b) ∈ comparing then some true
    else
      (h.children b).allM fun b' =>
        (g.children a).anyM fun a' => contains? g h depth ((a, b) :: comparing) a' b'

end Graph

namespace Tree

/-- Whether a tree accepts every path that another tree accepts. At most every pair of
nodes is being compared at one time, so the comparison nests no deeper than one level more. -/
def contains (t u : Tree) : Bool :=
  (Graph.contains? t.graph u.graph (t.size * u.size + 1) [] t.root u.root).getD false

end Tree

end FieldSelection
