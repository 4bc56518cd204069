import FieldSelection.Expression
import FieldSelection.Proofs.Path

/-!
# What the reader of expressions gives

Every segment that the reader gives is one that an expression can write, so none is the
catch-all. An element selects at least one path, and no path is empty. The paths of an expression
are those of its elements without some wildcards, so the same is true of them.
-/

namespace FieldSelection

/-! ## Writable segments -/

theorem Segment.isWritable_of_segment? {text rest : List Char} {s : Segment}
    (h : segment? text = some (s, rest)) : s.isWritable = true := by
  unfold segment? at h
  split at h
  · cases h
    rfl
  · split at h
    · exact absurd h (by simp)
    · rename_i name hne hname
      cases h
      have hall := List.all_takeWhile (p := isNameChar) (l := text)
      simp_all [Segment.isWritable]

theorem Segment.ne_catchAll_of_isWritable {s : Segment} (h : s.isWritable = true) :
    s ≠ .catchAll := by
  rintro rfl
  exact absurd h (by simp [Segment.isWritable])

/-- What the readers give with this fuel can be written. -/
structure WritableReadings (fuel : Nat) : Prop where
  /-- The reader of elements. -/
  selection : ∀ {text rest : List Char} {selection : Selection},
    selection? fuel text = some (selection, rest) → selection.isWritable = true
  /-- The reader of lists. -/
  selections : ∀ {text rest : List Char} {selections : Selections},
    selections? fuel text = some (selections, rest) → selections.isWritable = true

theorem Selection.isWritable_of_selection? {fuel : Nat} (h : WritableReadings fuel)
    {text rest : List Char} {selection : Selection}
    (hread : selection? (fuel + 1) text = some (selection, rest)) :
    selection.isWritable = true := by
  rw [selection?] at hread
  split at hread
  · exact absurd hread (by simp)
  · rename_i s rest' hs
    have hw := Segment.isWritable_of_segment? hs
    split at hread
    · rename_i hrest
      cases hread
      simp [Selection.isWritable, hw, h.selection hrest]
    · cases hread
      exact hw
  · rename_i s rest' hs
    have hw := Segment.isWritable_of_segment? hs
    split at hread
    · rename_i hrest
      cases hread
      simp [Selection.isWritable, hw, h.selections hrest]
    · -- a group that does not close is left in the text
      cases hread
      exact hw
  · rename_i hs
    cases hread
    exact Segment.isWritable_of_segment? hs

theorem Selections.isWritable_of_selections? {fuel : Nat} (h : WritableReadings fuel)
    {text rest : List Char} {selections : Selections}
    (hread : selections? (fuel + 1) text = some (selections, rest)) :
    selections.isWritable = true := by
  rw [selections?] at hread
  split at hread
  · exact absurd hread (by simp)
  · rename_i hs
    have hw := h.selection hs
    split at hread
    · rename_i hrest
      cases hread
      simp [Selections.isWritable, hw, h.selections hrest]
    · cases hread
      exact hw
  · rename_i hs
    cases hread
    exact h.selection hs

theorem writableReadings (fuel : Nat) : WritableReadings fuel := by
  -- the two readers call each other, each time with less fuel
  induction fuel with
  | zero =>
      constructor
      · intro text rest selection h
        exact absurd h (by simp [selection?])
      · intro text rest selections h
        exact absurd h (by simp [selections?])
  | succ fuel ih =>
      exact ⟨Selection.isWritable_of_selection? ih, Selections.isWritable_of_selections? ih⟩

theorem Selections.isWritable_of_parse {text : String} {selections : Selections}
    (h : Selections.parse text = .ok selections) : selections.isWritable = true := by
  unfold Selections.parse at h
  split at h
  · rename_i hread
    cases h
    exact (writableReadings _).selections hread
  · exact absurd h (by simp)
  · exact absurd h (by simp)

/-! ## Paths of an element -/

mutual

theorem Selection.paths_ne_nil : ∀ selection : Selection, selection.paths ≠ []
  | .leaf s => by simp [Selection.paths]
  | .step s rest => by simpa [Selection.paths] using rest.paths_ne_nil
  | .group s members => by simpa [Selection.paths] using members.paths_ne_nil

theorem Selections.paths_ne_nil : ∀ selections : Selections, selections.paths ≠ []
  | .one selection => selection.paths_ne_nil
  | .cons selection rest => by simp [Selections.paths, selection.paths_ne_nil]

end

mutual

theorem Selection.ne_nil_of_mem_paths : ∀ (selection : Selection) {path : Path},
    path ∈ selection.paths → path ≠ []
  | .leaf s, path, h => by
      rw [List.mem_singleton.mp h]
      simp
  | .step s rest, path, h => by
      obtain ⟨below, _, rfl⟩ := List.mem_map.mp h
      exact List.cons_ne_nil s below
  | .group s members, path, h => by
      obtain ⟨below, _, rfl⟩ := List.mem_map.mp h
      exact List.cons_ne_nil s below

theorem Selections.ne_nil_of_mem_paths : ∀ (selections : Selections) {path : Path},
    path ∈ selections.paths → path ≠ []
  | .one selection, path, h => selection.ne_nil_of_mem_paths h
  | .cons selection rest, path, h => by
      rcases List.mem_append.mp h with h | h
      · exact selection.ne_nil_of_mem_paths h
      · exact rest.ne_nil_of_mem_paths h

end

mutual

theorem Selection.isWritable_of_mem : ∀ (selection : Selection), selection.isWritable = true →
    ∀ {path : Path}, path ∈ selection.paths → ∀ s ∈ path, s.isWritable = true
  | .leaf s, hw, path, h, s', hs => by
      rw [List.mem_singleton.mp h, List.mem_singleton] at hs
      rw [hs]
      exact hw
  | .step s rest, hw, path, h, s', hs => by
      rw [Selection.isWritable, Bool.and_eq_true] at hw
      obtain ⟨below, hbelow, rfl⟩ := List.mem_map.mp h
      rcases List.mem_cons.mp hs with rfl | hs
      · exact hw.1
      · exact rest.isWritable_of_mem hw.2 hbelow s' hs
  | .group s members, hw, path, h, s', hs => by
      rw [Selection.isWritable, Bool.and_eq_true] at hw
      obtain ⟨below, hbelow, rfl⟩ := List.mem_map.mp h
      rcases List.mem_cons.mp hs with rfl | hs
      · exact hw.1
      · exact members.isWritable_of_mem hw.2 hbelow s' hs

theorem Selections.isWritable_of_mem : ∀ (selections : Selections), selections.isWritable = true →
    ∀ {path : Path}, path ∈ selections.paths → ∀ s ∈ path, s.isWritable = true
  | .one selection, hw, path, h, s, hs => selection.isWritable_of_mem hw h s hs
  | .cons selection rest, hw, path, h, s, hs => by
      rw [Selections.isWritable, Bool.and_eq_true] at hw
      rcases List.mem_append.mp h with h | h
      · exact selection.isWritable_of_mem hw.1 h s hs
      · exact rest.isWritable_of_mem hw.2 h s hs

end

/-! ## Paths of an expression -/

namespace Expression

variable {text : String} {e : Expression} {p : Path}

theorem parse_eq_error_iff {why : SyntaxError} :
    parse text = .error why ↔ Selections.parse text = .error why := by
  rw [parse]
  cases Selections.parse text <;> simp [Except.map]

theorem exists_selections_of_parse (h : parse text = .ok e) :
    ∃ selections, Selections.parse text = .ok selections ∧ e = ⟨text, selections⟩ := by
  cases hs : Selections.parse text with
  | error why => exact absurd h (by simp [parse, hs, Except.map])
  | ok selections =>
      rw [parse, hs] at h
      cases h
      exact ⟨selections, rfl, rfl⟩

theorem allPaths_ne_nil (e : Expression) : e.allPaths ≠ [] :=
  mt List.map_eq_nil_iff.mp e.selections.paths_ne_nil

theorem ne_nil_of_mem_allPaths (h : p ∈ e.allPaths) : p ≠ [] := by
  obtain ⟨q, hq, rfl⟩ := List.mem_map.mp h
  exact Path.dropTrailingWildcards_ne_nil (e.selections.ne_nil_of_mem_paths hq)

theorem isWritable_of_mem_allPaths (h : parse text = .ok e) (hp : p ∈ e.allPaths) :
    ∀ s ∈ p, s.isWritable = true := by
  intro s hs
  obtain ⟨selections, hparse, rfl⟩ := exists_selections_of_parse h
  obtain ⟨q, hq, rfl⟩ := List.mem_map.mp hp
  exact selections.isWritable_of_mem (Selections.isWritable_of_parse hparse) hq s
    (Path.mem_of_mem_dropTrailingWildcards hs)

end Expression

end FieldSelection
