/-!
# Segments

A segment is one step of a path: the name of a field, the wildcard `*` that stands
for any one name, or the catch-all `**` that stands for everything below a place.

Segments are ordered with all names first, by their characters, then the wildcard,
then the catch-all.
-/

namespace FieldSelection

/-- One step of a path. -/
inductive Segment where
  /-- A field of this name. -/
  | name (text : String)
  /-- Any field, one level deep. -/
  | wildcard
  /-- This place and everything beneath it. -/
  | catchAll
  deriving DecidableEq, Repr, Inhabited

namespace Segment

/-- The segment that a text stands for: `*` and `**` are reserved, all else is a name. -/
def ofString (text : String) : Segment :=
  if text = "*" then .wildcard else if text = "**" then .catchAll else .name text

/-- How a segment is written. -/
def text : Segment → String
  | .name text => text
  | .wildcard => "*"
  | .catchAll => "**"

/-- Whether a segment is the wildcard. -/
def isWildcard : Segment → Bool
  | .wildcard => true
  | _ => false

/-- Whether a segment stands for a field called `field`. -/
def matchesName (field : String) : Segment → Bool
  | .wildcard => true
  | .name text => text == field
  | .catchAll => false

/-- The order of segments: names by their characters, then the wildcard, then the catch-all. -/
def le : Segment → Segment → Bool
  | .name a, .name b => decide (a ≤ b)
  | .name _, _ => true
  | .wildcard, .name _ => false
  | .wildcard, _ => true
  | .catchAll, .catchAll => true
  | .catchAll, _ => false

end Segment

end FieldSelection
