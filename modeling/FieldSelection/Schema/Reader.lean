import FieldSelection.Json.Record
import FieldSelection.Schema

/-!
# Reading descriptions

Schemas and descriptions are records, so each may be written as an object or as an array
of its fields. Fields that neither has are passed over. A field that is null is absent; only
the schemas of a description cannot be null.
-/

namespace FieldSelection

open Json

namespace Schema

/-- The fields of a schema in order, given the readers for schemas one container further
in, and for schemas inside of that. -/
def recordFields (property : Option (Reader Schema)) (nested : Reader Schema) :
    List (RecordField Schema) :=
  [.ofReader "id" (optional (wantedString .string)) fun s id => { s with id },
    .ofReader "type" (optional (wantedString .string)) fun s type => { s with type },
    .ofReader "$ref" (optional (wantedString .string)) fun s reference => { s with reference },
    .ofReader "properties" (optional (dictionary property))
      fun s properties => { s with properties },
    .ofReader "additionalProperties" (optional nested)
      fun s additional => { s with additional },
    .ofReader "items" (optional nested) fun s items => { s with items }]

/-- Reads a schema, with at most `depth` containers open at once. -/
def read : Nat → Reader Schema
  | 0 => record "JsonSchema" none {}
  | depth + 1 =>
    let property := match depth with
      | 0 => none
      | depth + 1 => some (read depth)
    record "JsonSchema" (some (recordFields property (read depth))) {}

end Schema

namespace Description

/-- The fields of a description in order. Two containers are open around each schema. -/
def recordFields : List (RecordField Description) :=
  [.ofReader "name" (optional (wantedString .string)) fun d name => { d with name },
    .ofReader "version" (optional (wantedString .string)) fun d version => { d with version },
    .ofReader "schemas" (dictionary (some (Schema.read (depthLimit - 2))))
      fun d schemas => { d with schemas }]

/-- Reads a description. -/
def parse (text : List UInt8) : Except (Fault Position) Description :=
  readDocument (record "RestDescription" (some recordFields) {}) text

end Description

end FieldSelection
