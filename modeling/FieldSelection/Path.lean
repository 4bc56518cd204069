import FieldSelection.Segment

/-!
# Paths

A path lists the segments from the root of a document down to the place it selects.

Wildcards at the end of a path select nothing that the path without them does not
select, so `dropTrailingWildcards` removes them. A path that lies below another path of
the same list adds nothing to the selection either, and `collapse` keeps the others.
-/

namespace FieldSelection

/-- The segments from the root of a document down to a place in it. -/
abbrev Path := List Segment

namespace Path

/-- A path as it is written in an expression, such as `a/*/b`. -/
def text (path : Path) : String :=
  "/".intercalate (path.map Segment.text)

/-- The path without the wildcards at its end. The first segment stays, whatever it is. -/
def dropTrailingWildcards : Path → Path
  | [] => []
  | s :: rest => s :: (rest.reverse.dropWhile Segment.isWildcard).reverse

/-- Whether a path lies strictly below another one, segment by segment: a wildcard is
below nothing but another wildcard. -/
def isBelow (path other : Path) : Bool :=
  decide (other.length < path.length) && other.isPrefixOf path

/-- The paths of a list that lie below no other path of it, in their order and with their
repetitions. Selecting a place selects everything beneath it, so the rest is redundant. -/
def collapse (paths : List Path) : List Path :=
  paths.filter fun path => !paths.any path.isBelow

@[simp] theorem dropTrailingWildcards_nil : dropTrailingWildcards [] = [] := rfl

theorem dropTrailingWildcards_ne_nil {path : Path} (h : path ≠ []) :
    path.dropTrailingWildcards ≠ [] := by
  cases path with
  | nil => exact absurd rfl h
  | cons s rest => simp [dropTrailingWildcards]

theorem isBelow_iff {path other : Path} :
    path.isBelow other = true ↔ other.length < path.length ∧ other <+: path := by
  simp [isBelow]

theorem mem_collapse {paths : List Path} {path : Path} :
    path ∈ collapse paths ↔ path ∈ paths ∧ ∀ other ∈ paths, path.isBelow other = false := by
  simp [collapse]

end Path

end FieldSelection
