import FieldSelection.Path
import FieldSelection.Text.Blank
import Mathlib.Data.List.Induction

/-!
# The grammar of fields expressions

* expression: selection, then any number of `,` and selection
* selection: segment, then any number of `/` and segment, then perhaps a group
* group: `(`, expression, `)`
* segment: `*`, or a run of characters that are no punctuation and no white space

A derivation is kept as a tree of the same shape, one field for each symbol on the right side of
a rule. Its word is the text that it derives, and its paths are what the text means: a group is
distributed over the segments in front of it, so `a/b(c,d)` means `a/b/c` and `a/b/d`.
-/

namespace FieldSelection

/-- How a segment is derived. -/
inductive SegmentDerivation where
  /-- From `*`. -/
  | wildcard
  /-- From a run of characters, at least one. -/
  | name (run : List Char) (nonempty : run ≠ [])
      (allowed : ∀ c ∈ run, c ∉ [',', '/', '(', ')', '*'] ∧ Text.isBlank c = false)

mutual

/-- How an expression is derived. -/
inductive ExpressionDerivation where
  /-- From selections with `,` between them. -/
  | intro (first : SelectionDerivation) (others : List SelectionDerivation)

/-- How a selection is derived. -/
inductive SelectionDerivation where
  /-- From segments with `/` between them, and an expression in brackets if there is a group. -/
  | intro (first : SegmentDerivation) (others : List SegmentDerivation)
      (group : Option ExpressionDerivation)

end

/-! ## The text that is derived -/

/-- The characters of a segment. -/
def SegmentDerivation.word : SegmentDerivation → List Char
  | .wildcard => ['*']
  | .name run _ _ => run

mutual

/-- The selections with commas between them. -/
def ExpressionDerivation.word : ExpressionDerivation → List Char
  | ⟨first, others⟩ => first.word ++ othersWord others

/-- The segments with slashes between them, and the group behind the last one. -/
def SelectionDerivation.word : SelectionDerivation → List Char
  | ⟨first, others, group⟩ =>
    first.word ++ (others.flatMap fun s => '/' :: s.word) ++ groupWord group

/-- The selections after the first, each with a comma in front. -/
def othersWord : List SelectionDerivation → List Char
  | [] => []
  | next :: rest => ',' :: (next.word ++ othersWord rest)

/-- The expression of a group in its brackets; nothing without a group. -/
def groupWord : Option ExpressionDerivation → List Char
  | none => []
  | some inner => '(' :: (inner.word ++ [')'])

end

/-! ## What it means -/

/-- The wildcard, or the name that the run spells. -/
def SegmentDerivation.segment : SegmentDerivation → Segment
  | .wildcard => .wildcard
  | .name run _ _ => .name (String.ofList run)

mutual

/-- The paths of all selections, in written order. -/
def ExpressionDerivation.paths : ExpressionDerivation → List Path
  | ⟨first, others⟩ => first.paths ++ othersPaths others

/-- The segments themselves, or in front of every path of the group. -/
def SelectionDerivation.paths : SelectionDerivation → List Path
  | ⟨first, others, group⟩ =>
    (groupPaths group).map fun below =>
      first.segment :: others.map SegmentDerivation.segment ++ below

/-- The paths of the selections after the first. -/
def othersPaths : List SelectionDerivation → List Path
  | [] => []
  | next :: rest => next.paths ++ othersPaths rest

/-- Without a group, nothing follows the segments. -/
def groupPaths : Option ExpressionDerivation → List Path
  | none => [[]]
  | some inner => inner.paths

end

/-- One path is what is left of another when wildcards are taken off its end, as long as more
than one segment remains. -/
inductive Path.Strips : Path → Path → Prop where
  /-- There is nothing to take off. -/
  | done {path : Path} : path.length ≤ 1 ∨ path.getLast? ≠ some .wildcard → Strips path path
  /-- The last segment is taken off, and it goes on from there. -/
  | pop {path left : Path} : path ≠ [] → Strips path left → Strips (path ++ [.wildcard]) left

theorem SegmentDerivation.word_ne_nil (D : SegmentDerivation) : D.word ≠ [] := by
  cases D with
  | wildcard => exact List.cons_ne_nil _ _
  | name run nonempty _ => exact nonempty

theorem SegmentDerivation.segment_inj {D D' : SegmentDerivation} (h : D.segment = D'.segment) :
    D = D' := by
  cases D with
  | wildcard =>
      cases D' with
      | wildcard => rfl
      | name => exact absurd h (by simp [segment])
  | name run =>
      cases D' with
      | wildcard => exact absurd h (by simp [segment])
      | name run' =>
          have hlist := congrArg String.toList (Segment.name.inj h)
          have hrun : run = run' := by simpa using hlist
          subst hrun
          rfl

namespace Path.Strips

/-- What is left is the same in every way that it can be found. -/
theorem unique {path left left' : Path} (h : Strips path left) (h' : Strips path left') :
    left = left' := by
  induction h generalizing left' with
  | @done path hdone =>
      cases h' with
      | done => rfl
      | pop hne _ =>
          -- nothing is left to take off, but there would be a wildcard at the end
          simp [hne] at hdone
  | @pop path left hne _ ih =>
      generalize hp : path ++ [Segment.wildcard] = whole at h'
      cases h' with
      | done hdone =>
          subst hp
          simp [hne] at hdone
      | pop _ h' =>
          obtain ⟨rfl, _⟩ := List.append_inj' hp rfl
          exact ih h'

/-- The path without the wildcards at its end is what is left of it. -/
theorem dropTrailingWildcards (path : Path) : Strips path path.dropTrailingWildcards := by
  cases path with
  | nil => exact .done (Or.inl (Nat.zero_le _))
  | cons s rest =>
      induction rest using List.reverseRecOn with
      | nil => exact .done (Or.inl (Nat.le_refl _))
      | append_singleton rest last ih =>
          -- there is always a segment in front of the last one here
          by_cases hlast : last = .wildcard
          · subst hlast
            have hdrop : Path.dropTrailingWildcards (s :: (rest ++ [.wildcard])) =
                Path.dropTrailingWildcards (s :: rest) := by
              simp [Path.dropTrailingWildcards, List.dropWhile_cons, Segment.isWildcard]
            rw [hdrop]
            exact .pop (List.cons_ne_nil s rest) ih
          · have hkeep : last.isWildcard = false := by
              cases last with
              | wildcard => exact absurd rfl hlast
              | name | catchAll => rfl
            have hdrop : Path.dropTrailingWildcards (s :: (rest ++ [last])) =
                s :: (rest ++ [last]) := by
              simp [Path.dropTrailingWildcards, hkeep]
            rw [hdrop]
            refine .done (Or.inr ?_)
            rw [← List.cons_append, List.getLast?_concat]
            simpa using hlast

end Path.Strips

end FieldSelection
