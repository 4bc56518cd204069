import FieldSelection.Proofs.Json.Rereading
import FieldSelection.Proofs.Schema.Reading

/-!
# Descriptions that are written and read again

A description can be given in many ways: as objects or as arrays, with fields that are not known,
with null for what is absent, and with several entries for a name. It is written in one way, as
objects in which absent fields have no member. An absent field is read from a field that is not
there, and one that is there is never written as null, so nothing is taken for something else.

How deep a schema may lie plays a part: a reader that allows fewer containers gives fewer schemas,
and only for those must it allow the containers of what is written. Whatever the layout of the text
that was read, each record in it was one container, as it is when it is written.
-/

namespace FieldSelection

open Json

namespace Schema

theorem jsonMembers_eq (properties : List (String × Schema)) :
    jsonMembers properties = properties.map fun property => (property.1, property.2.json) := by
  induction properties with
  | nil => rfl
  | cons property rest ih => rw [jsonMembers, ih, List.map_cons]

/-- The value of a schema, field by field. -/
theorem json_eq (s : Schema) :
    s.json = .object (presentFields
      [("id", s.id.map .string), ("type", s.type.map .string), ("$ref", s.reference.map .string),
        ("properties", s.properties.map fun properties => .object (jsonMembers properties)),
        ("additionalProperties", s.additional.map json), ("items", s.items.map json)]) := by
  obtain ⟨id, type, reference, properties, additional, items⟩ := s
  rw [json.eq_def]
  cases properties <;> cases additional <;> cases items <;> rfl

theorem json_ne_null (s : Schema) : s.json ≠ .null := by
  rw [json_eq]
  simp

/-- A schema is read back if its parts are. -/
theorem readsBack_json {property : Option (Reader Schema)} {nested : Reader Schema} {s : Schema}
    (h : Parts (fun properties => ReadsBack (dictionary property)
      (.object (jsonMembers properties)) properties) (fun s => ReadsBack nested s.json s) s) :
    ReadsBack (record "JsonSchema" (some (recordFields property nested)) {}) s.json s := by
  have hnames : ((recordFields property nested).map RecordField.name).Nodup := by
    show ["id", "type", "$ref", "properties", "additionalProperties", "items"].Nodup
    decide
  rw [json_eq]
  obtain ⟨id, type, reference, properties, additional, items⟩ := s
  refine readsBack_record hnames ?_
  refine .optionalString rfl ?_
  refine .optionalString rfl ?_
  refine .optionalString rfl ?_
  refine .optional (fun properties hp => ⟨h.properties properties hp, by simp⟩) rfl ?_
  refine .optional (fun schema ha => ⟨h.additional schema ha, schema.json_ne_null⟩) rfl ?_
  refine .optional (fun schema hi => ⟨h.items schema hi, schema.json_ne_null⟩) rfl ?_
  exact .nil

theorem readsBack_jsonMembers {read : Reader Schema} {properties : List (String × Schema)}
    (hascending : Dictionary.Ascending properties)
    (h : ∀ property ∈ properties, ReadsBack read property.2.json property.2) :
    ReadsBack (dictionary (some read)) (.object (jsonMembers properties)) properties := by
  rw [jsonMembers_eq]
  exact readsBack_dictionary hascending h

/-- **A schema that was read is read back**, with as many containers allowed. -/
theorem gives_readsBack (depth : Nat) :
    Gives (Schema.read depth) fun s => ReadsBack (Schema.read depth) s.json s := by
  refine gives_read_of_parts (R := fun depth s => ReadsBack (Schema.read depth) s.json s)
    (fun s hs => ?_) (fun depth s hs => ?_) depth
  · rw [read_one]
    exact readsBack_json
      ⟨fun properties hp => (hs.properties properties hp).elim, hs.additional, hs.items⟩
  · rw [read_add_two]
    refine readsBack_json ⟨fun properties hp => ?_, hs.additional, hs.items⟩
    obtain ⟨hascending, hbelow⟩ := hs.properties properties hp
    exact readsBack_jsonMembers hascending hbelow

end Schema

namespace Description

/-- Whether the schemas of a description are read back. -/
def Rereadable (d : Description) : Prop :=
  ReadsBack (dictionary (some (Schema.read (depthLimit - 2))))
    (.object (Schema.jsonMembers d.schemas)) d.schemas

theorem preserve_rereadable : Preserve recordFields Rereadable := by
  intro field hfield r hr
  simp only [recordFields, List.mem_cons, List.not_mem_nil, or_false] at hfield
  rcases hfield with rfl | rfl | rfl
  · refine preserves_ofReader gives_true ?_ r hr
    exact fun _ _ hd _ => hd
  · refine preserves_ofReader gives_true ?_ r hr
    exact fun _ _ hd _ => hd
  · refine preserves_ofReader (gives_dictionary (Schema.gives_readsBack _)) ?_ r hr
    exact fun _ _ _ hschemas => Schema.readsBack_jsonMembers hschemas.1 hschemas.2

theorem gives_rereadable :
    Gives (record "RestDescription" (some recordFields) {}) Rereadable :=
  gives_record preserve_rereadable
    (Schema.readsBack_jsonMembers List.Pairwise.nil fun _ h => absurd h List.not_mem_nil)

theorem Rereadable.readsBack {d : Description} (h : d.Rereadable) :
    ReadsBack (record "RestDescription" (some recordFields) {}) d.json d := by
  refine readsBack_record (by decide) ?_
  refine .optionalString rfl ?_
  refine .optionalString rfl ?_
  exact .present (readsBack_ofReader h _) .nil

/-- **A description that was read is read again from what is written of it.** Whatever text it was
read from, the text that is written is read, and what is read is the same description, also where it
is laid out in lines. -/
theorem parse_written {text : List UInt8} {d : Description} (h : parse text = .ok d) :
    parse d.text = .ok d ∧ ∀ layout, parse (d.json.text layout 0) = .ok d := by
  have hlayout : ∀ layout, parse (d.json.text layout 0) = .ok d := by
    intro layout
    have hback := (of_readDocument gives_rereadable h).readsBack
    have hread := hback layout 0 (d.json.text layout 0) [] (by rw [List.append_nil])
    rw [parse, readDocument, hread]
    rfl
  refine ⟨?_, hlayout⟩
  have hcompact := hlayout .compact
  rwa [d.json.text_compact] at hcompact

/-- The description and a schema are arrays that end early, one field is not known, null stands for
what is absent, and a property comes twice. -/
theorem parse_written_shelf :
    let text := ascii
      "[null, \"v1\", \x7b\"Shelf\": \x7b\"title\": [1], \"items\": null, \"properties\":
        \x7b\"books\": \x7b\x7d, \"books\": [null, null, \"Book\"]\x7d\x7d\x7d]"
    let books : Schema := { reference := some "Book" }
    let d : Description :=
      { version := some "v1", schemas := [("Shelf", { properties := some [("books", books)] })] }
    parse text = .ok d ∧ parse d.text = .ok d ∧
      ∀ layout, parse (d.json.text layout 0) = .ok d := by
  intro text books d
  have hread : parse text = .ok d := by decide +kernel
  exact ⟨hread, parse_written hread⟩

end Description

end FieldSelection
