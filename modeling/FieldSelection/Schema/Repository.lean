import FieldSelection.Schema.Reader
import FieldSelection.Tree

/-!
# The trees of a family of schemas

A repository makes a tree of each schema that it is asked for, with a node for every field
that a value can have. All trees share one graph. A schema is compiled when it is needed
first, and from then on it is spliced in wherever another one refers to it; its root is
entered before its fields are added, so schemas may refer to each other and to themselves.

If a schema cannot be compiled, the graph is cut back to what it was before, and the roots
that were entered on the way are forgotten.
-/

namespace FieldSelection

/-- Why there is no tree for a schema. -/
inductive SchemaError where
  /-- There is no schema of this name. -/
  | unknownSchema (name : String)
  /-- The schema of a field has no meaning. -/
  | invalidSchema (field : Segment) (flaw : SchemaFlaw)
  /-- The fields of a schema cannot be spliced in. -/
  | merge (why : MergeError)
  /-- The text that the schemas should be read from is wrong. -/
  | malformed (fault : Json.Fault Json.Position)
  deriving DecidableEq, Repr

/-- What is wrong, in words. -/
def SchemaError.message : SchemaError → String
  | .unknownSchema name => "schema does not exist for resource " ++ name
  | .invalidSchema field flaw => "invalid schema " ++ field.text ++ ": " ++ flaw.message
  | .merge why => why.message
  | .malformed fault => "invalid discovery document: " ++ fault.message

/-- What has been compiled so far. -/
structure Compilation where
  /-- The nodes of all trees. -/
  graph : Graph := .empty
  /-- The roots of the schemas that were entered. -/
  roots : Dictionary NodeId := []
  /-- The names that were entered since compiling began, last one first. -/
  entered : List String := []
  deriving DecidableEq, Repr

/-- A step of compiling, which leaves its traces even where it fails. -/
abbrev Compiler := EStateM SchemaError Compilation

namespace Compiler

/-- Changes the graph. -/
def growing {α : Type} (grow : Graph → Graph × α) : Compiler α := fun c =>
  let (graph, x) := grow c.graph
  .ok x { c with graph }

/-- Splices the children of a root into a node. -/
def splicing (n source : NodeId) : Compiler Unit := fun c =>
  match c.graph.merge n source with
  | .ok graph => .ok () { c with graph }
  | .error why => .error (.merge why) c

/-- Enters a new root for a name. -/
def entering (name : String) : Compiler NodeId := fun c =>
  let (graph, root) := c.graph.addRoot
  .ok root ⟨graph, c.roots.insert name root, name :: c.entered⟩

mutual

/-- Adds a field to a node, with all that its schema says about the fields below. The items
of an array take the place of the array. -/
def addField (root : String → Compiler NodeId) (parent : NodeId) (label : Segment) :
    Schema → Compiler Unit
  | ⟨_, type, reference, properties, additional, items⟩ => do
    let child ← growing (·.ensureChild parent label)
    match Schema.kindOf reference type with
    | .error flaw => throw (.invalidSchema label flaw)
    | .ok (.reference target) => splicing child (← root target)
    | .ok .array =>
      match items with
      | some items => addField root parent label items
      | none => throw (.invalidSchema label .arrayWithoutItems)
    | .ok .object =>
      addProperties root child properties
      addAdditional root child additional
    | .ok .any => discard <| growing (·.setCatchAll child)
    | .ok .primitive => pure ()

/-- Adds the fields that are known by name, if there are any. -/
def addProperties (root : String → Compiler NodeId) (parent : NodeId) :
    Option (List (String × Schema)) → Compiler Unit
  | none => pure ()
  | some properties => addNamed root parent properties

/-- Adds the fields of a list, each under its name. -/
def addNamed (root : String → Compiler NodeId) (parent : NodeId) :
    List (String × Schema) → Compiler Unit
  | [] => pure ()
  | (name, schema) :: rest => do
    addField root parent (.name name) schema
    addNamed root parent rest

/-- Adds the fields of all other names, if there can be any. -/
def addAdditional (root : String → Compiler NodeId) (parent : NodeId) :
    Option Schema → Compiler Unit
  | none => pure ()
  | some schema => addField root parent .wildcard schema

end

/-- The root of a schema, compiled if it was not entered before. Each schema is entered
once, so there is never a need to go deeper than there are definitions. -/
def root (definitions : Dictionary Schema) : Nat → String → Compiler NodeId
  | fuel, name => do
    match (← get).roots.get? name with
    | some root => return root
    | none =>
      match definitions.get? name, fuel with
      | some schema, fuel + 1 =>
        let n ← entering name
        addProperties (root definitions fuel) n schema.properties
        addAdditional (root definitions fuel) n schema.additional
        return n
      | _, _ => throw (.unknownSchema name)

end Compiler

/-- A family of schemas, and the trees made of them so far. -/
structure Repository where
  /-- The schemas, by name. -/
  definitions : Dictionary Schema
  /-- The nodes of all trees. -/
  graph : Graph := .empty
  /-- The roots of the schemas that were compiled. -/
  roots : Dictionary NodeId := []
  deriving DecidableEq

namespace Repository

/-- Reads the schemas of a description. -/
def parse (text : List UInt8) : Except SchemaError Repository :=
  match Description.parse text with
  | .ok description => .ok { definitions := description.schemas }
  | .error fault => .error (.malformed fault)

/-- The names of the schemas in ascending order. -/
def names (r : Repository) : List String := r.definitions.keys

/-- The tree of a schema, compiled if it was not asked for before. -/
def tree (r : Repository) (name : String) : Except SchemaError Tree × Repository :=
  match r.roots.get? name with
  | some root => (.ok ⟨r.graph, root⟩, r)
  | none =>
    match Compiler.root r.definitions r.definitions.length name ⟨r.graph, r.roots, []⟩ with
    | .ok root c => (.ok ⟨c.graph, root⟩, { r with graph := c.graph, roots := c.roots })
    | .error why c =>
      (.error why,
        { r with
          graph := c.graph.truncate r.graph.size
          roots := c.entered.foldl Dictionary.erase c.roots })

/-- The trees of the schemas with these names, up to the first that cannot be compiled. -/
def trees (r : Repository) : List String → Except SchemaError (List (String × Tree)) × Repository
  | [] => (.ok [], r)
  | name :: rest =>
    match r.tree name with
    | (.error why, r) => (.error why, r)
    | (.ok tree, r) =>
      let (more, r) := r.trees rest
      (more.map ((name, tree) :: ·), r)

/-- The trees of all schemas. -/
def allTrees (r : Repository) : Except SchemaError (List (String × Tree)) × Repository :=
  r.trees r.names

end Repository

end FieldSelection
