import FieldSelection.Json.Value

/-!
# Events

A document can be told as a sequence of events, one for each bracket, each name of a field
and each value without values inside, in the order of the text. `Value.events` tells a
value this way.
-/

namespace FieldSelection.Json

/-- The two kinds of values that hold other values. -/
inductive Container where
  /-- Values with names. -/
  | object
  /-- Values in order. -/
  | array
  deriving DecidableEq, Repr

/-- The byte that opens a container. -/
def Container.startByte : Container → UInt8
  | .object => byte '\x7b'
  | .array => byte '['

/-- The byte that closes a container. -/
def Container.stopByte : Container → UInt8
  | .object => byte '\x7d'
  | .array => byte ']'

/-- One step of a document. -/
inductive Event where
  /-- A container opens. -/
  | start (kind : Container)
  /-- A container closes. -/
  | stop (kind : Container)
  /-- The next value belongs to the field of this name. -/
  | field (name : String)
  /-- A value that is handed over as a whole. -/
  | scalar (value : Value)
  deriving DecidableEq

namespace Value

mutual

/-- A value, told step by step. -/
def events : Value → List Event
  | .array items => .start .array :: (itemEvents items ++ [.stop .array])
  | .object members => .start .object :: (memberEvents members ++ [.stop .object])
  | scalar => [.scalar scalar]

/-- The values of an array, told step by step. -/
def itemEvents : List Value → List Event
  | [] => []
  | item :: rest => item.events ++ itemEvents rest

/-- The fields of an object, told step by step. -/
def memberEvents : List (String × Value) → List Event
  | [] => []
  | (name, value) :: rest => .field name :: (value.events ++ memberEvents rest)

end

end Value

end FieldSelection.Json
