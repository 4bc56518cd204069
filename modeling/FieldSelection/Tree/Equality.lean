import FieldSelection.Tree

/-!
# Trees with the same paths

Two trees are the same if their roots have children of the same labels, and so on below
those. The order of children, the numbers of nodes and the sharing of nodes play no part.

The pairs of nodes still to be compared wait in a list. A pair that was opened before has
its children in the list already, or had them compared, so it is passed over.
-/

namespace FieldSelection

namespace Graph

/-- Pairs each child of `a` in `g` with the first child of `b` in `h` that has its label;
nothing if the nodes have different numbers of children or a child has no counterpart. -/
def pairChildren? (g h : Graph) (a b : NodeId) : Option (List (NodeId × NodeId)) :=
  if (g.children a).length == (h.children b).length then
    (g.children a).mapM fun a' =>
      ((h.children b).find? fun b' => h.label b' == g.label a').map fun b' => (a', b')
  else none

/-- Whether all pending pairs of nodes have the same paths below them; nothing if more
than `budget` pairs would have to be opened. -/
def sameBelow? (g h : Graph) :
    Nat → List (NodeId × NodeId) → List (NodeId × NodeId) → Option Bool
  | budget, opened, pending =>
    match pending.dropWhile (opened.contains ·) with
    | [] => some true
    | (a, b) :: rest =>
      if g.label a == h.label b then
        match budget with
        | 0 => none
        | budget + 1 =>
          match pairChildren? g h a b with
          | none => some false
          | some pairs => sameBelow? g h budget ((a, b) :: opened) (pairs ++ rest)
      else some false

end Graph

namespace Tree

/-- Whether two trees have the same paths. -/
def same (t u : Tree) : Bool :=
  (Graph.sameBelow? t.graph u.graph (t.size * u.size) [] [(t.root, u.root)]).getD false

end Tree

end FieldSelection
