import FieldSelection.Graph.OpenLeaf
import FieldSelection.Tree

/-!
# What is kept below a place

While a document is filtered, the names on the way to a place lead to nodes of the tree. A
context is what they come to: all that is beneath is kept, or what one or more nodes
select. Several nodes can be reached by the same names, as by `a` and by `*`.
-/

namespace FieldSelection

/-- What is kept below a place of a document. -/
inductive Context where
  /-- Everything. -/
  | all
  /-- What at least one of these nodes selects. -/
  | nodes (ids : List NodeId)
  deriving DecidableEq, Repr

namespace Graph

/-- Whether a node keeps all that is beneath it: it leaves everything open, or has the
catch-all for a child. -/
def admitsAll (g : Graph) (n : NodeId) : Bool :=
  g.isOpenLeaf n || (g.children n).any g.isCatchAll

end Graph

namespace Context

/-- The context of one node. -/
def ofNode (g : Graph) (n : NodeId) : Context :=
  if g.admitsAll n then .all else .nodes [n]

/-- The nodes of several contexts in a row, or nothing if one of them keeps everything. A
single node that is there already is not added again. -/
def gather (found : List NodeId) : List Context → Option (List NodeId)
  | [] => some found
  | .all :: _ => none
  | .nodes [n] :: rest => gather (if n ∈ found then found else found ++ [n]) rest
  | .nodes ids :: rest => gather (found ++ ids) rest

/-- The context that keeps what one of several contexts keeps, if there are any. -/
def union (contexts : List Context) : Option Context :=
  match gather [] contexts with
  | none => some .all
  | some [] => none
  | some ids => some (.nodes ids)

/-- The context that one node gives the value of a field, if it selects the field. -/
def ofField (g : Graph) (name : String) (n : NodeId) : Option Context :=
  union (((g.children n).filter (g.selects · name)).map (ofNode g))

/-- The context of the value of a field, if the field is kept at all. -/
def field (g : Graph) (name : String) : Context → Option Context
  | .all => some .all
  | .nodes ids => union (ids.filterMap (ofField g name))

/-- Whether a value without values inside is kept. A wildcard keeps one even if the path
goes on below it. -/
def keepsScalar (g : Graph) : Context → Bool
  | .all => true
  | .nodes ids => ids.any fun n => g.isWildcard n || g.admitsAll n

end Context

end FieldSelection
