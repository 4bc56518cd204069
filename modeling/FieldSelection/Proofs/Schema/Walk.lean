import FieldSelection.Path
import FieldSelection.Schema

/-!
# Following a path through definitions

Which fields a value can have is said by its schema alone: the items take the place of an
array, a reference stands for the fields of the schema that it names, an object has its own,
and a schema of any type leaves everything open. A path is followed from fields to fields,
one segment at a time, however often the schemas refer to each other.
-/

namespace FieldSelection

/-- Whether a segment of a path goes to a field with this label: both are the same, or one of
them is the wildcard. -/
def Segment.goesTo (s label : Segment) : Bool :=
  label == s || label == .wildcard || s == .wildcard

namespace Schema

/-- The fields of a list of properties, under their names. -/
def namedFields (properties : List (String × Schema)) : List (Segment × Schema) :=
  properties.map fun (name, schema) => (.name name, schema)

/-- The fields of a schema: its properties under their names, and its additional ones under
every name. -/
def fields (s : Schema) : List (Segment × Schema) :=
  namedFields (s.properties.getD []) ++ s.additional.toList.map fun schema => (.wildcard, schema)

/-- The schema of the values that are no arrays: the items take the place of an array, as often
as it takes. -/
def element : Schema → Schema
  | ⟨id, type, reference, properties, additional, items⟩ =>
    match kindOf reference type, items with
    | .ok .array, some items => items.element
    | _, items => ⟨id, type, reference, properties, additional, items⟩

/-- The fields of the schema of this name. -/
def fieldsOf (definitions : Dictionary Schema) (name : String) : List (Segment × Schema) :=
  ((definitions.get? name).map fields).getD []

/-- The fields below a field with this schema; nothing if any fields are possible. -/
def fieldsBelow (definitions : Dictionary Schema) (s : Schema) : Option (List (Segment × Schema)) :=
  match kindOf s.element.reference s.element.type with
  | .ok (.reference target) => some (fieldsOf definitions target)
  | .ok .object => some s.element.fields
  | .ok .any => none
  | .ok .primitive => some []
  | .ok .array => some []
  | .error _ => some []

/-- What the schema of a field says about the fields below it. -/
inductive Content where
  /-- Any fields are possible. -/
  | anything
  /-- These are. -/
  | fields (fields : List (Segment × Schema))
  /-- Those of the schema of this name are. -/
  | reference (target : String)

/-- The content of a field with this schema. -/
def content (s : Schema) : Content :=
  match kindOf s.element.reference s.element.type with
  | .ok (.reference target) => .reference target
  | .ok .object => .fields s.element.fields
  | .ok .any => .anything
  | .ok .primitive => .fields []
  | .ok .array => .fields []
  | .error _ => .fields []

/-- The fields of a content; nothing if any fields are possible. -/
def Content.below (definitions : Dictionary Schema) : Content → Option (List (Segment × Schema))
  | .anything => none
  | .fields fs => some fs
  | .reference target => some (fieldsOf definitions target)

theorem below_content (d : Dictionary Schema) (s : Schema) :
    s.content.below d = s.fieldsBelow d := by
  rw [content, fieldsBelow]
  split <;> rfl

/-- Whether a path can be followed, starting with one of these fields. -/
def follows (definitions : Dictionary Schema) : List (Segment × Schema) → Path → Bool
  | _, [] => true
  | fields, s :: rest =>
    fields.any fun (label, schema) => s.goesTo label &&
      match fieldsBelow definitions schema with
      | none => true
      | some fields => follows definitions fields rest

mutual

/-- Whether no list of properties in a schema, however deep, has a name twice. -/
def HasDistinctNames : Schema → Prop
  | ⟨_, _, _, properties, additional, items⟩ =>
    (match properties with
      | none => True
      | some properties => (properties.map Prod.fst).Nodup ∧ HaveDistinctNames properties) ∧
    (match additional with
      | none => True
      | some additional => additional.HasDistinctNames) ∧
    (match items with
      | none => True
      | some items => items.HasDistinctNames)

/-- Whether this is true of all schemas of a list. -/
def HaveDistinctNames : List (String × Schema) → Prop
  | [] => True
  | (_, schema) :: rest => schema.HasDistinctNames ∧ HaveDistinctNames rest

end

/-- Whether this is true of all schemas of a description. -/
def DistinctNames (definitions : Dictionary Schema) : Prop :=
  ∀ name s, definitions.get? name = some s → s.HasDistinctNames

theorem hasDistinctNames_iff {s : Schema} :
    s.HasDistinctNames ↔
      (∀ properties, s.properties = some properties →
        (properties.map Prod.fst).Nodup ∧ HaveDistinctNames properties) ∧
      (∀ additional, s.additional = some additional → additional.HasDistinctNames) ∧
      (∀ items, s.items = some items → items.HasDistinctNames) := by
  obtain ⟨_, _, _, properties, additional, items⟩ := s
  rw [HasDistinctNames.eq_def]
  cases properties <;> cases additional <;> cases items <;> simp

theorem haveDistinctNames_iff {properties : List (String × Schema)} :
    HaveDistinctNames properties ↔ ∀ entry ∈ properties, entry.2.HasDistinctNames := by
  induction properties with
  | nil => simp [HaveDistinctNames]
  | cons entry rest ih => simp [HaveDistinctNames, ih]

/-! ## The content of a field, kind by kind -/

section Kinds

variable {s : Schema}

/-- What is no array is its own element. -/
theorem element_of_ne_array (h : kindOf s.reference s.type ≠ .ok .array) : s.element = s := by
  obtain ⟨id, type, reference, properties, additional, items⟩ := s
  rw [element.eq_def]
  dsimp only
  split
  · rename_i harray
    exact absurd harray h
  · rfl

theorem content_of_reference {target : String}
    (h : kindOf s.reference s.type = .ok (.reference target)) :
    s.content = .reference target := by
  rw [content, element_of_ne_array (by rw [h]; simp), h]

theorem content_of_object (h : kindOf s.reference s.type = .ok .object) :
    s.content = .fields s.fields := by
  rw [content, element_of_ne_array (by rw [h]; simp), h]

theorem content_of_any (h : kindOf s.reference s.type = .ok .any) : s.content = .anything := by
  rw [content, element_of_ne_array (by rw [h]; simp), h]

theorem content_of_primitive (h : kindOf s.reference s.type = .ok .primitive) :
    s.content = .fields [] := by
  rw [content, element_of_ne_array (by rw [h]; simp), h]

theorem content_of_error {flaw : SchemaFlaw} (h : kindOf s.reference s.type = .error flaw) :
    s.content = .fields [] := by
  rw [content, element_of_ne_array (by rw [h]; simp), h]

/-- An array has the content of its items. -/
theorem content_of_array {items : Schema} (h : kindOf s.reference s.type = .ok .array)
    (hitems : s.items = some items) : s.content = items.content := by
  obtain ⟨id, type, reference, properties, additional, _⟩ := s
  cases hitems
  have helement : element ⟨id, type, reference, properties, additional, some items⟩ =
      items.element := by
    rw [element.eq_def]
    dsimp only
    split
    · rename_i heq
      rw [Option.some.inj heq]
    · rename_i hno
      exact absurd rfl (hno items h)
  rw [content, content, helement]

theorem content_of_array_without_items (h : kindOf s.reference s.type = .ok .array)
    (hitems : s.items = none) : s.content = .fields [] := by
  obtain ⟨id, type, reference, properties, additional, _⟩ := s
  cases hitems
  have helement : element ⟨id, type, reference, properties, additional, none⟩ =
      ⟨id, type, reference, properties, additional, none⟩ := by
    rw [element.eq_def]
    dsimp only
    split
    · rename_i hsome
      exact absurd hsome (by simp)
    · rfl
  rw [content, helement, h]

end Kinds

end Schema

end FieldSelection
