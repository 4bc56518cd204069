import FieldSelection.Sink

/-!
# Putting a value together again

An assembly is a sink that collects events into the value that they tell. Of several fields
of one name the last counts. It has a value once a whole one was told and no container is
open.
-/

namespace FieldSelection.Json

/-- A container that is still open. -/
inductive Partial where
  /-- The fields so far, and the name of the value that comes next. -/
  | object (members : Dictionary Value) (name : Option String)
  /-- The values so far, the last one first. -/
  | array (items : List Value)

/-- The value told so far. -/
structure Assembly where
  /-- The open containers, innermost first. -/
  frames : List Partial := []
  /-- The value outside of all containers. -/
  root : Option Value := none

namespace Assembly

/-- The value that was told, if it is complete. -/
def value? (a : Assembly) : Option Value :=
  match a.frames with
  | [] => a.root
  | _ :: _ => none

/-- Puts a value where the next one is due. -/
def attach (a : Assembly) (v : Value) : Reply Assembly :=
  match a.frames with
  | [] =>
    match a.root with
    | some _ => .refused a (.unbalanced .secondRoot)
    | none => .accepted { a with root := some v }
  | .array items :: outer => .accepted { a with frames := .array (v :: items) :: outer }
  | .object members (some name) :: outer =>
    .accepted { a with frames := .object (members.insert name v) none :: outer }
  | .object _ none :: _ => .refused a (.unbalanced .unnamedValue)

/-- Takes one event. An end closes the innermost container even if it does not fit. -/
def write (a : Assembly) : Event → Reply Assembly
  | .start .object => .accepted { a with frames := .object [] none :: a.frames }
  | .start .array => .accepted { a with frames := .array [] :: a.frames }
  | .stop .object =>
    match a.frames with
    | .object members none :: outer => attach { a with frames := outer } (.object members)
    | frames => .refused { a with frames := frames.tail } (.unbalanced (.unexpectedEnd .object))
  | .stop .array =>
    match a.frames with
    | .array items :: outer => attach { a with frames := outer } (.array items.reverse)
    | frames => .refused { a with frames := frames.tail } (.unbalanced (.unexpectedEnd .array))
  | .field name =>
    match a.frames with
    | .object members none :: outer =>
      .accepted { a with frames := .object members (some name) :: outer }
    | _ => .refused a (.unbalanced .strayName)
  | .scalar v => a.attach v

instance : Sink Assembly where
  write := write
  close := .accepted

end Assembly

end FieldSelection.Json
