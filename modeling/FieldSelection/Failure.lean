import FieldSelection.Json.Event
import FieldSelection.Json.Fault

/-!
# Why a document cannot be passed on

An event can be out of place, the text of a document can be wrong, and an output can be
full. What is out of place is told by the sink that notices it, so one and the same mistake
can have two names.
-/

namespace FieldSelection

open Json

/-- Why an event does not fit to those before it. -/
inductive Imbalance where
  /-- The document has ended already. -/
  | secondRoot
  /-- A value in an object has no name. -/
  | unnamedValue
  /-- No container is open that could end. -/
  | strayEnd
  /-- The container that ends is of the other kind. -/
  | mismatchedEnd
  /-- What ends here is not an open container of this kind, or it lacks a value. -/
  | unexpectedEnd (kind : Container)
  /-- A name is not followed by its value. -/
  | unusedName
  /-- A name stands where none is due. -/
  | strayName
  /-- The document breaks off within a container. -/
  | unfinished
  /-- The document is empty. -/
  | nothingProduced
  deriving DecidableEq, Repr

/-- What does not fit, in words. -/
def Imbalance.message : Imbalance → String
  | .secondRoot => "more than one root value"
  | .unnamedValue => "object value without a field name"
  | .strayEnd => "container end without a start"
  | .mismatchedEnd => "container end does not match its start"
  | .unexpectedEnd .object => "unexpected end of object"
  | .unexpectedEnd .array => "unexpected end of array"
  | .unusedName => "field name without a value"
  | .strayName => "field name outside of an object"
  | .unfinished => "stream ended inside a container"
  | .nothingProduced => "no value was produced"

/-- Why a document cannot be passed on. -/
inductive Failure where
  /-- The output takes no more bytes. -/
  | outputFull
  /-- The output takes no more bytes of a name or of a value. -/
  | contentCut
  /-- An event does not fit. -/
  | unbalanced (why : Imbalance)
  /-- The text of the document is wrong. -/
  | malformed (fault : Fault Position)
  deriving DecidableEq, Repr

/-- The failure in words. -/
def Failure.message : Failure → String
  | .outputFull => "disk full"
  | .contentCut => "invalid JSON input: disk full"
  | .unbalanced why => "unbalanced JSON event stream: " ++ why.message
  | .malformed fault => "invalid JSON input: " ++ fault.message

end FieldSelection
