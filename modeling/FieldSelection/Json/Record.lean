import FieldSelection.Json.Reader
import FieldSelection.Json.Skip

/-!
# Reading records

A record has a fixed list of fields, each of which may be absent. It is written as an
object, in which unknown names are passed over and no known name may come twice, or as an
array that gives the fields in their order and may end early. A dictionary is an object of
any names.

A reader of fields is handed the record so far and gives the record with the field set.
Where no more containers may be opened, there is no reader for what is inside.
-/

namespace FieldSelection.Json

/-- A field of a record: its name, and a reader that sets it. -/
structure RecordField (ρ : Type) where
  /-- The name of the field. -/
  name : String
  /-- Reads the value of the field into a record. -/
  read : ρ → Reader ρ

/-- The field that a reader gives the value of. -/
def RecordField.ofReader {ρ α : Type} (name : String) (read : Reader α) (set : ρ → α → ρ) :
    RecordField ρ :=
  ⟨name, fun record text => (read text).map fun (x, rest) => (set record x, rest)⟩

/-- Reads a value that is absent if it is null. -/
def optional {α : Type} (read : Reader α) : Reader (Option α) := fun text =>
  match skipBlanks text with
  | [] => (read []).map fun (x, rest) => (some x, rest)
  | b :: rest =>
    if b == byte 'n' then (literal (ascii "ull") rest).map (none, ·)
    else (read (b :: rest)).map fun (x, rest) => (some x, rest)

/-- Reads the fields of a record that is written as an object, after the name of the next
one. The fields in `seen` were read before. -/
def recordMembers {ρ : Type} (fields : List (RecordField ρ)) :
    Nat → List String → ρ → NextMember → Reading (ρ × List UInt8)
  | _, _, record, .done rest => .ok (record, rest)
  | 0, _, _, .member _ _ => brokenBefore .endOfObject []
  | fuel + 1, seen, record, .member name text =>
    match fields.find? (·.name == name) with
    | some field =>
      if name ∈ seen then .error (.repeated name)
      else do
        let (record, rest) ← field.read record (← colon text)
        recordMembers fields fuel (name :: seen) record (← nextMember false rest)
    | none => do
      let rest ← skipValue (← colon text)
      recordMembers fields fuel seen record (← nextMember false rest)

/-- Reads the fields of a record that is written as an array. -/
def recordElements {ρ : Type} : List (RecordField ρ) → Bool → ρ → Reader ρ
  | [], _, record, text => do return (record, ← endOfTuple text)
  | field :: fields, first, record, text => do
    match ← nextElement first text with
    | .done rest => return (record, rest)
    | .element text =>
      let (record, rest) ← field.read record text
      recordElements fields false record rest

/-- Reads a record. -/
def record {ρ : Type} (name : String) (fields : Option (List (RecordField ρ))) (absent : ρ) :
    Reader ρ := fun text =>
  match skipBlanks text with
  | [] => brokenBefore .endOfValue []
  | b :: rest =>
    if b == byte '[' || b == byte '\x7b' then
      match fields with
      | none => brokenAt .nestedTooDeep (b :: rest)
      | some fields =>
        if b == byte '[' then recordElements fields true absent rest
        else do
          recordMembers fields rest.length [] absent (← nextMember true rest)
    else mistyped (.record name) (b :: rest)

/-- Reads a dictionary. Of several entries for a name the last counts. -/
def dictionary {α : Type} (item : Option (Reader α)) : Reader (Dictionary α) := fun text =>
  match skipBlanks text with
  | [] => brokenBefore .endOfValue []
  | b :: rest =>
    if b == byte '\x7b' then
      match item with
      | none => brokenAt .nestedTooDeep (b :: rest)
      | some item => do
        let (members, rest) ← membersFrom item rest.length (← nextMember true rest)
        return (Dictionary.ofList members, rest)
    else mistyped .map (b :: rest)

/-- Reads a whole document. -/
def readDocument {α : Type} (read : Reader α) (text : List UInt8) :
    Except (Fault Position) α :=
  let reading : Reading α := do
    let (x, rest) ← read text
    endOfDocument rest
    return x
  reading.mapError (Fault.located text)

end FieldSelection.Json
