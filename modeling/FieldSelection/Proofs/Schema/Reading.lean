import FieldSelection.Proofs.Json.Record
import FieldSelection.Proofs.Schema.Validation

/-!
# Schemas that were read

The properties of a schema that was read come from a dictionary, so no name is there twice.
This is what following a path through definitions relies on, and it holds for every repository
that is made from a text.
-/

namespace FieldSelection

open Json

namespace Schema

variable {P : List (String × Schema) → Prop} {Q : Schema → Prop}

/-- What is true of the schemas right below a schema: of the properties, and of the schema of all
other fields and that of the items. -/
structure Parts (P : List (String × Schema) → Prop) (Q : Schema → Prop) (s : Schema) : Prop where
  properties : ∀ properties, s.properties = some properties → P properties
  additional : ∀ additional, s.additional = some additional → Q additional
  items : ∀ items, s.items = some items → Q items

/-- A field that is read into a schema keeps what is true of the parts. -/
theorem preserve_recordFields {property : Option (Reader Schema)} {nested : Reader Schema}
    (hproperty : Gives (dictionary property) P) (hnested : Gives nested Q) :
    Preserve (recordFields property nested) (Parts P Q) := by
  intro field hfield r hr
  simp only [recordFields, List.mem_cons, List.not_mem_nil, or_false] at hfield
  -- the first three fields hold no schemas
  rcases hfield with rfl | rfl | rfl | rfl | rfl | rfl
  · exact preserves_ofReader gives_true (fun _ _ hs _ => ⟨hs.1, hs.2, hs.3⟩) r hr
  · exact preserves_ofReader gives_true (fun _ _ hs _ => ⟨hs.1, hs.2, hs.3⟩) r hr
  · exact preserves_ofReader gives_true (fun _ _ hs _ => ⟨hs.1, hs.2, hs.3⟩) r hr
  · exact preserves_ofReader (gives_optional hproperty)
      (fun _ _ hs hread => ⟨hread, hs.additional, hs.items⟩) r hr
  · exact preserves_ofReader (gives_optional hnested)
      (fun _ _ hs hread => ⟨hs.properties, hread, hs.items⟩) r hr
  · exact preserves_ofReader (gives_optional hnested)
      (fun _ _ hs hread => ⟨hs.properties, hs.additional, hread⟩) r hr

theorem gives_parts {property : Option (Reader Schema)} {nested : Reader Schema}
    (hproperty : Gives (dictionary property) P) (hnested : Gives nested Q) :
    Gives (record "JsonSchema" (some (recordFields property nested)) {}) (Parts P Q) :=
  gives_record (preserve_recordFields hproperty hnested) ⟨by simp, by simp, by simp⟩

theorem read_zero : Schema.read 0 = record "JsonSchema" none {} := rfl

theorem read_one :
    Schema.read 1 = record "JsonSchema" (some (recordFields none (Schema.read 0))) {} := rfl

theorem read_add_two (depth : Nat) :
    Schema.read (depth + 2) = record "JsonSchema"
      (some (recordFields (some (Schema.read depth)) (Schema.read (depth + 1)))) {} := rfl

/-- **What is true of a schema if it is true of its parts is true of every schema that is read.**
Where only one more container may be opened, there are no properties. -/
theorem gives_read_of_parts {R : Nat → Schema → Prop}
    (hone : ∀ s, Parts (fun _ => False) (R 0) s → R 1 s)
    (hmore : ∀ depth s,
      Parts (fun properties => Dictionary.Ascending properties ∧
        ∀ entry ∈ properties, R depth entry.2) (R (depth + 1)) s → R (depth + 2) s)
    (depth : Nat) : Gives (Schema.read depth) (R depth) := by
  -- the schemas of properties lie two containers further in, all others one
  induction depth using Nat.strongRecOn with
  | ind depth ih =>
      match depth with
      | 0 =>
          rw [read_zero]
          exact gives_record_none
      | 1 =>
          rw [read_one]
          exact fun text s rest hread =>
            hone s (gives_parts gives_dictionary_none (ih 0 (by omega)) text s rest hread)
      | depth + 2 =>
          rw [read_add_two]
          exact fun text s rest hread => hmore depth s
            (gives_parts (gives_dictionary (ih depth (by omega))) (ih (depth + 1) (by omega)) text s
              rest hread)

theorem gives_read (depth : Nat) : Gives (Schema.read depth) HasDistinctNames := by
  refine gives_read_of_parts (R := fun _ => HasDistinctNames) (fun s hs => ?_) (fun _ s hs => ?_)
    depth
  · exact hasDistinctNames_iff.mpr
      ⟨fun properties hp => (hs.properties properties hp).elim, hs.additional, hs.items⟩
  · refine hasDistinctNames_iff.mpr ⟨fun properties hp => ?_, hs.additional, hs.items⟩
    obtain ⟨hascending, hbelow⟩ := hs.properties properties hp
    exact ⟨hascending.nodup, haveDistinctNames_iff.mpr hbelow⟩

end Schema

namespace Description

/-- Whether the names of properties are distinct in all schemas. -/
def HasDistinctNames (d : Description) : Prop := ∀ entry ∈ d.schemas, entry.2.HasDistinctNames

theorem preserve_recordFields : Preserve recordFields HasDistinctNames := by
  intro field hfield r hr
  simp only [recordFields, List.mem_cons, List.not_mem_nil, or_false] at hfield
  rcases hfield with rfl | rfl | rfl
  · refine preserves_ofReader gives_true ?_ r hr
    exact fun _ _ hd _ => hd
  · refine preserves_ofReader gives_true ?_ r hr
    exact fun _ _ hd _ => hd
  · exact preserves_ofReader (gives_dictionary (Schema.gives_read _))
      (fun _ _ _ hschemas => hschemas.2) r hr

theorem hasDistinctNames_of_parse {text : List UInt8} {d : Description}
    (h : parse text = .ok d) : d.HasDistinctNames := by
  have hgives : Gives (record "RestDescription" (some recordFields) {}) HasDistinctNames :=
    gives_record preserve_recordFields fun _ hentry => absurd hentry (by simp)
  exact of_readDocument hgives h

end Description

/-- **In a repository that was read, the names of properties are distinct.** -/
theorem Repository.distinctNames_of_parse {text : List UInt8} {r : Repository}
    (h : parse text = .ok r) : Schema.DistinctNames r.definitions := by
  rw [parse] at h
  split at h
  · rename_i d hd
    cases h
    intro name s hs
    exact Description.hasDistinctNames_of_parse hd _ (Dictionary.mem_of_get? hs)
  · exact absurd h (by simp)

/-- No tree was asked for when a repository is read. -/
theorem Repository.reachable_of_parse {text : List UInt8} {r : Repository}
    (h : parse text = .ok r) : r.Reachable r.definitions := by
  rw [parse] at h
  split at h
  · cases h
    exact .fresh
  · exact absurd h (by simp)

end FieldSelection
