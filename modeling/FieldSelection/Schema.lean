import FieldSelection.Json.Value

/-!
# Schemas

A schema tells which fields a value can have: by a list of properties, by a schema for all
other fields, by the schema of the items of an array, or by reference to another schema. A
description is what a service says about itself; its schemas are known by name.

All parts of a schema may be absent. Its reference and its type together give its kind, and
the kind tells which of the other parts count.
-/

namespace FieldSelection

open Json

/-- The definition of a value. -/
structure Schema where
  /-- The name that the schema gives itself. -/
  id : Option String := none
  /-- The type of the value. -/
  type : Option String := none
  /-- The name of the schema to use instead. -/
  reference : Option String := none
  /-- The schemas of the fields that are known by name. -/
  properties : Option (List (String × Schema)) := none
  /-- The schema of all other fields. -/
  additional : Option Schema := none
  /-- The schema of the items of an array. -/
  items : Option Schema := none

/-- What a service says about itself. -/
structure Description where
  /-- The name of the service. -/
  name : Option String := none
  /-- The version of the service. -/
  version : Option String := none
  /-- The schemas, by name. -/
  schemas : Dictionary Schema := []

/-- Why a schema has no meaning. -/
inductive SchemaFlaw where
  /-- A type is given beside a reference. -/
  | typeBesideReference
  /-- An array has no schema for its items. -/
  | arrayWithoutItems
  deriving DecidableEq, Repr

/-- The flaw in words. -/
def SchemaFlaw.message : SchemaFlaw → String
  | .typeBesideReference => "type must be absent for $ref"
  | .arrayWithoutItems => "items must be present for array types"

/-- How a schema contributes to the fields of a resource. -/
inductive Schema.Kind where
  /-- The fields are those of another schema. -/
  | reference (target : String)
  /-- The fields are those of the items. -/
  | array
  /-- The fields are the properties and the additional ones. -/
  | object
  /-- Any fields are possible. -/
  | any
  /-- No fields are possible. -/
  | primitive
  deriving DecidableEq, Repr

namespace Schema

/-- The kind of a schema with this reference and this type. -/
def kindOf (reference type : Option String) : Except SchemaFlaw Kind :=
  match reference, type with
  | some _, some _ => .error .typeBesideReference
  | some target, none => .ok (.reference target)
  | none, none => .ok .any
  | none, some type =>
    if type = "array" then .ok .array
    else if type = "object" then .ok .object
    else if type = "any" then .ok .any
    else .ok .primitive

/-- The fields that are present, with their values. -/
def presentFields (fields : List (String × Option Value)) : List (String × Value) :=
  fields.filterMap fun (name, value?) => value?.map fun value => (name, value)

mutual

/-- A schema as a JSON value. Absent parts are left out. -/
def json : Schema → Value
  | ⟨id, type, reference, properties, additional, items⟩ =>
    .object (presentFields
      [("id", id.map .string),
        ("type", type.map .string),
        ("$ref", reference.map .string),
        ("properties",
          match properties with
          | none => none
          | some properties => some (.object (jsonMembers properties))),
        ("additionalProperties",
          match additional with
          | none => none
          | some additional => some additional.json),
        ("items",
          match items with
          | none => none
          | some items => some items.json)])

/-- Named schemas as the members of a JSON object. -/
def jsonMembers : List (String × Schema) → List (String × Value)
  | [] => []
  | (name, schema) :: rest => (name, schema.json) :: jsonMembers rest

end

mutual

/-- Decides whether two schemas are equal. -/
def decEq : (a b : Schema) → Decidable (a = b)
  | ⟨id, type, ref, properties, additional, items⟩,
    ⟨id', type', ref', properties', additional', items'⟩ =>
    if h : id = id' ∧ type = type' ∧ ref = ref' then
      match decEqMembers? properties properties', decEq? additional additional',
          decEq? items items' with
      | isTrue h₁, isTrue h₂, isTrue h₃ => isTrue (by simp [h, h₁, h₂, h₃])
      | isFalse h₁, _, _ => isFalse fun e => h₁ (by injection e)
      | _, isFalse h₂, _ => isFalse fun e => h₂ (by injection e)
      | _, _, isFalse h₃ => isFalse fun e => h₃ (by injection e)
    else isFalse fun e => h (by injection e; simp [*])

/-- Decides whether two schemas that may be absent are equal. -/
def decEq? : (a b : Option Schema) → Decidable (a = b)
  | none, none => isTrue rfl
  | none, some _ => isFalse nofun
  | some _, none => isFalse nofun
  | some a, some b =>
    match decEq a b with
    | isTrue h => isTrue (h ▸ rfl)
    | isFalse h => isFalse fun e => h (by injection e)

/-- Decides whether two lists of properties that may be absent are equal. -/
def decEqMembers? : (a b : Option (List (String × Schema))) → Decidable (a = b)
  | none, none => isTrue rfl
  | none, some _ => isFalse nofun
  | some _, none => isFalse nofun
  | some a, some b =>
    match decEqMembers a b with
    | isTrue h => isTrue (h ▸ rfl)
    | isFalse h => isFalse fun e => h (by injection e)

/-- Decides whether two lists of named schemas are equal. -/
def decEqMembers : (a b : List (String × Schema)) → Decidable (a = b)
  | [], [] => isTrue rfl
  | [], _ :: _ => isFalse nofun
  | _ :: _, [] => isFalse nofun
  | (m, a) :: as, (n, b) :: bs =>
    if h : m = n then
      match decEq a b, decEqMembers as bs with
      | isTrue h', isTrue h'' => isTrue (h ▸ h' ▸ h'' ▸ rfl)
      | isFalse h', _ => isFalse fun e => h' (by injection e with e _; injection e)
      | _, isFalse h' => isFalse fun e => h' (by injection e)
    else isFalse fun e => h (by injection e with e _; injection e)

end

instance : DecidableEq Schema := decEq

end Schema

deriving instance DecidableEq for Description

namespace Description

/-- A description as a JSON value. The schemas are there even if there are none. -/
def json (d : Description) : Value :=
  .object (Schema.presentFields
    [("name", d.name.map .string),
      ("version", d.version.map .string),
      ("schemas", some (.object (Schema.jsonMembers d.schemas)))])

/-- A description as text. -/
def text (d : Description) : List UInt8 := d.json.compact

end Description

end FieldSelection
