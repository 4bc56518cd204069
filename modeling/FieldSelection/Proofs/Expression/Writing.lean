import FieldSelection.Proofs.Selection.Reading
import FieldSelection.Proofs.Tree.Equality

/-!
# Paths written as an expression

Paths are written with `/` between their segments and `,` between the paths, without groups. A
written path can be derived as a selection and a written list of paths as an expression, and the
derivation has just these paths. As the reader accepts what can be derived and gives what it
means, it gives the written paths back, but for the wildcards at their ends.

The paths of an expression that are left after collapsing are trimmed and collapsed. Written down
and read again, they stay as they are.
-/

namespace FieldSelection

/-! ## What can be written can be derived -/

/-- A derived segment is written as it was derived. -/
theorem SegmentDerivation.word_eq_text (D : SegmentDerivation) :
    D.word = D.segment.text.toList := by
  cases D with
  | wildcard => rfl
  | name run => simp [word, segment, Segment.text]

/-- The segments that an expression can name are those that can be derived. -/
theorem Segment.isWritable_iff_exists_derivation {s : Segment} :
    s.isWritable = true ↔ ∃ D : SegmentDerivation, D.segment = s := by
  constructor
  · intro hs
    cases s with
    | wildcard => exact ⟨.wildcard, rfl⟩
    | catchAll => exact absurd hs (by simp [isWritable])
    | name text =>
        simp only [isWritable, Bool.and_eq_true, Bool.not_eq_true', List.all_eq_true] at hs
        obtain ⟨hne, hall⟩ := hs
        have hrun : text.toList ≠ [] := by
          intro hnil
          rw [String.toList_eq_nil_iff.mp hnil] at hne
          exact absurd hne (by decide)
        refine ⟨.name text.toList hrun fun c hc => isNameChar_iff.mp (hall c hc), ?_⟩
        rw [SegmentDerivation.segment, String.ofList_toList]
  · rintro ⟨D, rfl⟩
    cases D with
    | wildcard => rfl
    | name run hne hall =>
        have hchars : run.all isNameChar = true :=
          List.all_eq_true.mpr fun c hc => isNameChar_iff.mpr (hall c hc)
        simp [SegmentDerivation.segment, isWritable, hchars, hne]

namespace Path

theorem text_singleton (s : Segment) : text [s] = s.text := String.intercalate_singleton

theorem text_cons_cons (s next : Segment) (rest : Path) :
    text (s :: next :: rest) = s.text ++ "/" ++ text (next :: rest) :=
  String.intercalate_cons_cons

/-- A path whose segments can be named is derived as it is written. -/
theorem exists_derivation {path : Path} (hne : path ≠ [])
    (hall : ∀ s ∈ path, s.isWritable = true) :
    ∃ D : SelectionDerivation, D.word = path.text.toList ∧ D.paths = [path] := by
  obtain ⟨s, rest, rfl⟩ := List.exists_cons_of_ne_nil hne
  clear hne
  induction rest generalizing s with
  | nil =>
      obtain ⟨D, rfl⟩ := Segment.isWritable_iff_exists_derivation.mp (hall s List.mem_cons_self)
      refine ⟨⟨D, [], none⟩, ?_, ?_⟩
      · simp [SelectionDerivation.word, groupWord, text_singleton, D.word_eq_text]
      · simp [SelectionDerivation.paths, groupPaths]
  | cons next rest ih =>
      obtain ⟨hs, hrest⟩ := List.forall_mem_cons.mp hall
      obtain ⟨D, rfl⟩ := Segment.isWritable_iff_exists_derivation.mp hs
      obtain ⟨below, hword, hpaths⟩ := ih next hrest
      refine ⟨below.under D, ?_, ?_⟩
      · rw [SelectionDerivation.word_under, hword, text_cons_cons, D.word_eq_text]
        simp
      · rw [SelectionDerivation.paths_under, hpaths]
        rfl

/-- And so are such paths with `,` between them. -/
theorem exists_derivation_list {paths : List Path} (hne : paths ≠ [])
    (hall : ∀ p ∈ paths, p ≠ [] ∧ ∀ s ∈ p, s.isWritable = true) :
    ∃ D : ExpressionDerivation, D.word = (",".intercalate (paths.map text)).toList ∧
      D.paths = paths := by
  obtain ⟨path, rest, rfl⟩ := List.exists_cons_of_ne_nil hne
  clear hne
  induction rest generalizing path with
  | nil =>
      obtain ⟨hpath, hsegments⟩ := hall path List.mem_cons_self
      obtain ⟨D, hword, hpaths⟩ := exists_derivation hpath hsegments
      refine ⟨⟨D, []⟩, ?_, ?_⟩
      · simp [ExpressionDerivation.word, othersWord, hword, String.intercalate_singleton]
      · simp [ExpressionDerivation.paths, othersPaths, hpaths]
  | cons next rest ih =>
      obtain ⟨⟨hpath, hsegments⟩, hrest⟩ := List.forall_mem_cons.mp hall
      obtain ⟨first, hword, hpaths⟩ := exists_derivation hpath hsegments
      obtain ⟨others, hword', hpaths'⟩ := ih next hrest
      refine ⟨others.after first, ?_, ?_⟩
      · rw [ExpressionDerivation.word_after, hword, hword']
        simp [String.intercalate_cons_cons]
      · rw [ExpressionDerivation.paths_after, hpaths, hpaths']
        rfl

end Path

/-! ## What is written is read back -/

namespace Expression

/-- Written paths are read back without the wildcards at their ends. -/
theorem exists_parse_of_paths {paths : List Path} (hne : paths ≠ [])
    (hall : ∀ p ∈ paths, p ≠ [] ∧ ∀ s ∈ p, s.isWritable = true) :
    ∃ e, parse (",".intercalate (paths.map Path.text)) = .ok e ∧
      e.allPaths = paths.map Path.dropTrailingWildcards := by
  obtain ⟨D, hword, hpaths⟩ := Path.exists_derivation_list hne hall
  refine ⟨_, parse_eq_ok_iff.mpr ⟨D, hword, rfl⟩, ?_⟩
  rw [allPaths, D.paths_reading, hpaths]

theorem fieldPaths_ne_nil (e : Expression) : e.fieldPaths ≠ [] := by
  obtain ⟨p, hp⟩ := List.exists_mem_of_ne_nil _ e.allPaths_ne_nil
  obtain ⟨q, hq, -⟩ := Path.exists_mem_collapse hp
  exact List.ne_nil_of_mem hq

/-- The field paths have no wildcards at their ends to remove. -/
theorem map_dropTrailingWildcards_fieldPaths (e : Expression) :
    e.fieldPaths.map Path.dropTrailingWildcards = e.fieldPaths := by
  have htrimmed : ∀ p ∈ e.fieldPaths, p.dropTrailingWildcards = id p := by
    intro p hp
    obtain ⟨q, -, rfl⟩ := List.mem_map.mp (Path.mem_of_mem_collapse hp)
    exact Path.dropTrailingWildcards_idem q
  rw [List.map_congr_left htrimmed, List.map_id]

/-- **Paths that are written down are read back.** This is so of all lists of paths that an
expression can name, in their order and with their repetitions, but for the wildcards at the ends.
The field paths of an expression have none there and are not collapsed any further, so what they
are read back as has no other paths and the same tree. -/
theorem parse_written_paths :
    (∀ paths : List Path, paths ≠ [] → (∀ p ∈ paths, p ≠ [] ∧ ∀ s ∈ p, s.isWritable = true) →
      (parse (",".intercalate (paths.map Path.text))).map allPaths =
        .ok (paths.map Path.dropTrailingWildcards)) ∧
    ∀ (text : String) (e : Expression), parse text = .ok e →
      ∃ e', parse e.collapsedText = .ok e' ∧ e'.allPaths = e.fieldPaths ∧
        e'.fieldPaths = e.fieldPaths ∧ e'.filterTree = e.filterTree ∧
        e'.filterTree.same e.filterTree = true := by
  constructor
  · intro paths hne hall
    obtain ⟨e, he, hpaths⟩ := exists_parse_of_paths hne hall
    rw [he, ← hpaths]
    rfl
  · intro text e he
    have hall : ∀ p ∈ e.fieldPaths, p ≠ [] ∧ ∀ s ∈ p, s.isWritable = true := by
      intro p hp
      have hmem := Path.mem_of_mem_collapse hp
      exact ⟨ne_nil_of_mem_allPaths hmem, isWritable_of_mem_allPaths he hmem⟩
    obtain ⟨e', he', hpaths⟩ := exists_parse_of_paths e.fieldPaths_ne_nil hall
    rw [map_dropTrailingWildcards_fieldPaths] at hpaths
    have hfields : e'.fieldPaths = e.fieldPaths := by
      rw [fieldPaths, hpaths]
      exact Path.collapse_collapse e.allPaths
    have htree : e'.filterTree = e.filterTree := congrArg Tree.ofPaths hfields
    refine ⟨e', he', hpaths, hfields, htree, ?_⟩
    have htold := Tree.isUnambiguous_ofPaths e.fieldPaths
    rw [htree]
    exact (Tree.same_iff_hasPath htold htold).mpr fun _ => Iff.rfl

/-- Wildcards are taken off the ends only, and a repeated path is there twice. Of an expression
with groups, the paths are left that no other one makes redundant. -/
theorem parse_written_paths_group :
    (parse "a/*/*,*/*,é/*/b,a/*/*").map allPaths =
        .ok [[.name "a"], [.wildcard], [.name "é", .wildcard, .name "b"], [.name "a"]] ∧
      ∃ e e', parse "a(b/*,c/e),a/b/d,*/x" = .ok e ∧ e.collapsedText = "a/b,a/c/e,*/x" ∧
        parse "a/b,a/c/e,*/x" = .ok e' ∧ e'.allPaths = e.fieldPaths ∧
        e'.fieldPaths = e.fieldPaths ∧ e'.filterTree = e.filterTree ∧
        e'.filterTree.same e.filterTree = true := by
  constructor
  · exact parse_written_paths.1 [[.name "a", .wildcard, .wildcard], [.wildcard, .wildcard],
      [.name "é", .wildcard, .name "b"], [.name "a", .wildcard, .wildcard]] (by decide) (by decide)
  · have hparse : parse "a(b/*,c/e),a/b/d,*/x" =
        .ok ⟨"a(b/*,c/e),a/b/d,*/x", .cons (.group (.name "a")
          (.cons (.step (.name "b") (.leaf .wildcard))
            (.one (.step (.name "c") (.leaf (.name "e"))))))
          (.cons (.step (.name "a") (.step (.name "b") (.leaf (.name "d"))))
            (.one (.step .wildcard (.leaf (.name "x")))))⟩ := rfl
    obtain ⟨e', he', hrest⟩ := parse_written_paths.2 _ _ hparse
    exact ⟨_, e', hparse, by decide, he', hrest⟩

end Expression

end FieldSelection
