import FieldSelection.Graph

/-!
# Nodes that leave everything open

A leaf selects all that is beneath it, and so does a node with a wildcard child that does:
`a` and `a/*` mean the same. Such a node is an open leaf. The search goes down wildcard
children only and opens no node twice, so wildcards that lead back to each other never
count as a way to a leaf.
-/

namespace FieldSelection.Graph

/-- The wildcard children of a node. -/
def wildcardChildren (g : Graph) (n : NodeId) : List NodeId :=
  (g.children n).filter g.isWildcard

/-- Whether a leaf can be reached through wildcards from one of the nodes still to be
visited; nothing if more than `budget` nodes would have to be opened. -/
def reachesLeaf? (g : Graph) : Nat → List NodeId → List NodeId → Option Bool
  | budget, opened, pending =>
    match pending.dropWhile (opened.contains ·) with
    | [] => some false
    | n :: rest =>
      if g.isLeaf n then some true
      else
        match budget with
        | 0 => none
        | budget + 1 => g.reachesLeaf? budget (n :: opened) (g.wildcardChildren n ++ rest)

/-- Whether a node is a leaf, or has a wildcard child that is an open leaf itself. -/
def isOpenLeaf (g : Graph) (n : NodeId) : Bool :=
  (g.reachesLeaf? g.size [] [n]).getD false

end FieldSelection.Graph
