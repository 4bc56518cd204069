import FieldSelection.Tree

/-!
# Trees as text

An outline has one line per node, with as many dashes in front as there are nodes between
it and the root. A node that lies below itself is marked where it is met again and not
followed from there.
-/

namespace FieldSelection

namespace Graph

/-- The lines for a node and all below it; nothing if they would nest deeper than `depth`.
The nodes above it are given by `branch`. -/
def outline? (g : Graph) : Nat → List NodeId → Nat → NodeId → Option (List String)
  | 0, _, _, _ => none
  | depth + 1, branch, indent, n =>
    let label := match g.label n with
      | some segment => segment.text
      | none => ""
    let line := String.ofList (List.replicate indent '-') ++ label
    if n ∈ branch then some [line ++ " (cycle)"]
    else do
      let below ← (g.children n).mapM (g.outline? depth (n :: branch) (indent + 1))
      return line :: below.flatten

end Graph

namespace Tree

/-- The lines of the outline. Each level is a node of its own but the last, so there is at
most one level more than there are nodes. -/
def outlineLines (t : Tree) : List String :=
  (((t.graph.children t.root).mapM
    (t.graph.outline? (t.size + 1) [t.root] 0)).getD []).flatten

/-- The outline of a tree. -/
def outline (t : Tree) : String :=
  "Tree\x7b\n" ++ String.join (t.outlineLines.map (· ++ "\n")) ++ "\x7d"

end Tree

end FieldSelection
