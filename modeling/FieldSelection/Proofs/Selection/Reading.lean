import FieldSelection.Proofs.Selection
import FieldSelection.Proofs.Selection.Grammar
import Mathlib.Data.List.Basic
import Mathlib.Data.List.Forall2

/-!
# The reader accepts the grammar

A derivation is read as the selections of the same shape. Two things are shown of the readers
that call each other. What they give is the reading of a derivation, and they have taken just
its word off the text. And if a word is followed by something that cannot belong to it, they
read the whole of it: then no list stops early and no group is given up.

So a whole text is accepted exactly if it can be derived. As the reading of a word does not
depend on how the word was derived, there is only one way to do that.
-/

namespace FieldSelection

/-! ## Derivations as they are read -/

/-- Segments with `/` between them and perhaps a group at the end. -/
def Selection.chain (group : Option Selections) : Segment → List Segment → Selection
  | s, [] =>
    match group with
    | none => .leaf s
    | some members => .group s members
  | s, next :: rest => .step s (Selection.chain group next rest)

/-- Selections with `,` between them. -/
def Selections.ofList : Selection → List Selection → Selections
  | selection, [] => .one selection
  | selection, next :: rest => .cons selection (Selections.ofList next rest)

mutual

/-- What is read for an expression. -/
def ExpressionDerivation.reading : ExpressionDerivation → Selections
  | ⟨first, others⟩ => .ofList first.reading (othersReading others)

/-- What is read for a selection: a chain of its segments, with what is read for the group. -/
def SelectionDerivation.reading : SelectionDerivation → Selection
  | ⟨first, others, group⟩ =>
    .chain (groupReading group) first.segment
      (others.map SegmentDerivation.segment)

/-- What is read for the selections after the first. -/
def othersReading : List SelectionDerivation → List Selection
  | [] => []
  | next :: rest => next.reading :: othersReading rest

/-- What is read for the expression of a group, if there is one. -/
def groupReading : Option ExpressionDerivation → Option Selections
  | none => none
  | some inner => some inner.reading

end

theorem Selection.paths_chain (group : Option Selections) (s : Segment) (rest : List Segment) :
    (Selection.chain group s rest).paths =
      ((group.map Selections.paths).getD [[]]).map fun below => s :: rest ++ below := by
  induction rest generalizing s with
  | nil => cases group <;> simp [Selection.chain, Selection.paths]
  | cons next rest ih =>
      rw [Selection.chain, Selection.paths, ih, List.map_map]
      rfl

theorem Selections.paths_ofList (selection : Selection) (rest : List Selection) :
    (Selections.ofList selection rest).paths =
      selection.paths ++ rest.flatMap Selection.paths := by
  induction rest generalizing selection with
  | nil => simp [Selections.ofList, Selections.paths]
  | cons next rest ih => rw [Selections.ofList, Selections.paths, ih, List.flatMap_cons]

mutual

/-- What is read means what was derived. -/
theorem ExpressionDerivation.paths_reading : ∀ D : ExpressionDerivation, D.reading.paths = D.paths
  | ⟨first, others⟩ => by
      rw [ExpressionDerivation.reading, Selections.paths_ofList, ExpressionDerivation.paths,
        first.paths_reading, paths_othersReading others]

theorem SelectionDerivation.paths_reading : ∀ D : SelectionDerivation, D.reading.paths = D.paths
  | ⟨first, others, group⟩ => by
      rw [SelectionDerivation.reading, Selection.paths_chain, SelectionDerivation.paths,
        paths_groupReading group]

theorem paths_othersReading : ∀ others : List SelectionDerivation,
    (othersReading others).flatMap Selection.paths = othersPaths others
  | [] => rfl
  | next :: rest => by
      rw [othersReading, List.flatMap_cons, othersPaths, next.paths_reading,
        paths_othersReading rest]

theorem paths_groupReading : ∀ group : Option ExpressionDerivation,
    ((groupReading group).map Selections.paths).getD [[]] = groupPaths group
  | none => rfl
  | some inner => inner.paths_reading

end

/-! ## Derivations that are read alike -/

theorem Selection.chain_inj {group group' : Option Selections} {s s' : Segment}
    {rest rest' : List Segment} (h : chain group s rest = chain group' s' rest') :
    s = s' ∧ rest = rest' ∧ group = group' := by
  induction rest generalizing s s' rest' with
  | nil =>
      cases rest' with
      | nil => cases group <;> cases group' <;> simp_all [chain]
      | cons => cases group <;> exact absurd h (by simp [chain])
  | cons next rest ih =>
      cases rest' with
      | nil => cases group' <;> exact absurd h (by simp [chain])
      | cons next' rest' =>
          obtain ⟨rfl, hrest⟩ := Selection.step.inj h
          obtain ⟨rfl, rfl, rfl⟩ := ih hrest
          exact ⟨rfl, rfl, rfl⟩

theorem Selections.ofList_inj {selection selection' : Selection} {rest rest' : List Selection}
    (h : ofList selection rest = ofList selection' rest') :
    selection = selection' ∧ rest = rest' := by
  induction rest generalizing selection selection' rest' with
  | nil =>
      cases rest' with
      | nil => exact ⟨Selections.one.inj h, rfl⟩
      | cons => exact absurd h (by simp [ofList])
  | cons next rest ih =>
      cases rest' with
      | nil => exact absurd h (by simp [ofList])
      | cons next' rest' =>
          obtain ⟨rfl, hrest⟩ := Selections.cons.inj h
          obtain ⟨rfl, rfl⟩ := ih hrest
          exact ⟨rfl, rfl⟩

mutual

theorem ExpressionDerivation.reading_inj : ∀ {D D' : ExpressionDerivation},
    D.reading = D'.reading → D = D'
  | ⟨first, others⟩, ⟨first', others'⟩, h => by
      obtain ⟨hfirst, hothers⟩ := Selections.ofList_inj h
      rw [SelectionDerivation.reading_inj hfirst, othersReading_inj hothers]

theorem SelectionDerivation.reading_inj : ∀ {D D' : SelectionDerivation},
    D.reading = D'.reading → D = D'
  | ⟨first, others, group⟩, ⟨first', others', group'⟩, h => by
      obtain ⟨hfirst, hothers, hgroup⟩ := Selection.chain_inj h
      have hinj : Function.Injective SegmentDerivation.segment :=
        fun _ _ => SegmentDerivation.segment_inj
      rw [hinj hfirst, List.map_injective_iff.mpr hinj hothers, groupReading_inj hgroup]

theorem othersReading_inj : ∀ {others others' : List SelectionDerivation},
    othersReading others = othersReading others' → others = others'
  | [], [], _ => rfl
  | [], _ :: _, h => absurd h (by simp [othersReading])
  | _ :: _, [], h => absurd h (by simp [othersReading])
  | next :: rest, next' :: rest', h => by
      obtain ⟨hnext, hrest⟩ := List.cons.inj h
      rw [SelectionDerivation.reading_inj hnext, othersReading_inj hrest]

theorem groupReading_inj : ∀ {group group' : Option ExpressionDerivation},
    groupReading group = groupReading group' → group = group'
  | none, none, _ => rfl
  | none, some _, h => absurd h (by simp [groupReading])
  | some _, none, h => absurd h (by simp [groupReading])
  | some inner, some inner', h => by
      rw [ExpressionDerivation.reading_inj (Option.some.inj h)]

end

/-! ## What is read can be derived -/

theorem isNameChar_iff {c : Char} :
    isNameChar c = true ↔ c ∉ [',', '/', '(', ')', '*'] ∧ Text.isBlank c = false := by
  simp [isNameChar, and_assoc]

theorem exists_segmentDerivation {text rest : List Char} {s : Segment}
    (h : segment? text = some (s, rest)) :
    ∃ D : SegmentDerivation, D.segment = s ∧ text = D.word ++ rest := by
  unfold segment? at h
  split at h
  · cases h
    exact ⟨.wildcard, rfl, rfl⟩
  · split at h
    · exact absurd h (by simp)
    · rename_i hne
      cases h
      have hall : ∀ c ∈ text.takeWhile isNameChar,
          c ∉ [',', '/', '(', ')', '*'] ∧ Text.isBlank c = false := by
        intro c hc
        have hname := List.all_eq_true.mp (List.all_takeWhile (p := isNameChar) (l := text))
        exact isNameChar_iff.mp (hname c hc)
      refine ⟨.name (text.takeWhile isNameChar) hne hall, rfl, ?_⟩
      exact List.takeWhile_append_dropWhile.symm

/-- A segment in front of a selection makes a longer one. -/
def SelectionDerivation.under (s : SegmentDerivation) : SelectionDerivation → SelectionDerivation
  | ⟨first, others, group⟩ => ⟨s, first :: others, group⟩

theorem SelectionDerivation.word_under (s : SegmentDerivation) (D : SelectionDerivation) :
    (D.under s).word = s.word ++ '/' :: D.word := by
  obtain ⟨first, others, group⟩ := D
  simp [under, word]

theorem SelectionDerivation.reading_under (s : SegmentDerivation) (D : SelectionDerivation) :
    (D.under s).reading = .step s.segment D.reading := by
  obtain ⟨first, others, group⟩ := D
  rfl

theorem SelectionDerivation.paths_under (s : SegmentDerivation) (D : SelectionDerivation) :
    (D.under s).paths = D.paths.map (s.segment :: ·) := by
  rw [← paths_reading, reading_under, Selection.paths, paths_reading]

/-- A selection in front of an expression makes a longer one. -/
def ExpressionDerivation.after (selection : SelectionDerivation) :
    ExpressionDerivation → ExpressionDerivation
  | ⟨first, others⟩ => ⟨selection, first :: others⟩

theorem ExpressionDerivation.word_after (selection : SelectionDerivation)
    (D : ExpressionDerivation) : (D.after selection).word = selection.word ++ ',' :: D.word := by
  obtain ⟨first, others⟩ := D
  rfl

theorem ExpressionDerivation.reading_after (selection : SelectionDerivation)
    (D : ExpressionDerivation) :
    (D.after selection).reading = .cons selection.reading D.reading := by
  obtain ⟨first, others⟩ := D
  rfl

theorem ExpressionDerivation.paths_after (selection : SelectionDerivation)
    (D : ExpressionDerivation) : (D.after selection).paths = selection.paths ++ D.paths := by
  rw [← paths_reading, reading_after, Selections.paths, selection.paths_reading, paths_reading]

/-- What the readers give with this fuel is the reading of a derivation, and its word is what
they took off the text. -/
structure DerivedReadings (fuel : Nat) : Prop where
  /-- The reader of elements. -/
  selection : ∀ {text rest : List Char} {selection : Selection},
    selection? fuel text = some (selection, rest) →
      ∃ D : SelectionDerivation, D.reading = selection ∧ text = D.word ++ rest
  /-- The reader of lists. -/
  selections : ∀ {text rest : List Char} {selections : Selections},
    selections? fuel text = some (selections, rest) →
      ∃ D : ExpressionDerivation, D.reading = selections ∧ text = D.word ++ rest

theorem DerivedReadings.next_selection {fuel : Nat} (h : DerivedReadings fuel)
    {text rest : List Char} {selection : Selection}
    (hread : selection? (fuel + 1) text = some (selection, rest)) :
    ∃ D : SelectionDerivation, D.reading = selection ∧ text = D.word ++ rest := by
  -- a segment alone is a selection, whatever it is followed by
  have hleaf : ∀ {s : Segment} {rest : List Char}, segment? text = some (s, rest) →
      ∃ D : SelectionDerivation, D.reading = .leaf s ∧ text = D.word ++ rest := by
    intro s rest hs
    obtain ⟨D, rfl, rfl⟩ := exists_segmentDerivation hs
    refine ⟨⟨D, [], none⟩, rfl, ?_⟩
    simp [SelectionDerivation.word, groupWord]
  rw [selection?] at hread
  split at hread
  · exact absurd hread (by simp)
  · rename_i s rest' hs
    split at hread
    · rename_i below rest'' hbelow
      cases hread
      obtain ⟨D, rfl, rfl⟩ := exists_segmentDerivation hs
      obtain ⟨D', rfl, rfl⟩ := h.selection hbelow
      refine ⟨D'.under D, D'.reading_under D, ?_⟩
      rw [SelectionDerivation.word_under, List.append_assoc]
      rfl
    · cases hread
      exact hleaf hs
  · rename_i s rest' hs
    split at hread
    · rename_i members rest'' hmembers
      cases hread
      obtain ⟨D, rfl, rfl⟩ := exists_segmentDerivation hs
      obtain ⟨D', rfl, rfl⟩ := h.selections hmembers
      refine ⟨⟨D, [], some D'⟩, rfl, ?_⟩
      simp [SelectionDerivation.word, groupWord]
    · cases hread
      exact hleaf hs
  · rename_i hs
    cases hread
    exact hleaf hs

theorem DerivedReadings.next_selections {fuel : Nat} (h : DerivedReadings fuel)
    {text rest : List Char} {selections : Selections}
    (hread : selections? (fuel + 1) text = some (selections, rest)) :
    ∃ D : ExpressionDerivation, D.reading = selections ∧ text = D.word ++ rest := by
  have hone : ∀ {selection : Selection} {rest : List Char},
      selection? fuel text = some (selection, rest) →
        ∃ D : ExpressionDerivation, D.reading = .one selection ∧ text = D.word ++ rest := by
    intro selection rest hs
    obtain ⟨D, rfl, rfl⟩ := h.selection hs
    refine ⟨⟨D, []⟩, rfl, ?_⟩
    simp [ExpressionDerivation.word, othersWord]
  rw [selections?] at hread
  split at hread
  · exact absurd hread (by simp)
  · rename_i selection rest' hs
    split at hread
    · rename_i others rest'' hothers
      cases hread
      obtain ⟨D, rfl, rfl⟩ := h.selection hs
      obtain ⟨D', rfl, rfl⟩ := h.selections hothers
      refine ⟨D'.after D, D'.reading_after D, ?_⟩
      rw [ExpressionDerivation.word_after, List.append_assoc]
      rfl
    · cases hread
      exact hone hs
  · rename_i hs
    cases hread
    exact hone hs

theorem derivedReadings (fuel : Nat) : DerivedReadings fuel := by
  -- the two readers call each other, each time with less fuel
  induction fuel with
  | zero =>
      constructor
      · intro text rest selection h
        exact absurd h (by simp [selection?])
      · intro text rest selections h
        exact absurd h (by simp [selections?])
  | succ fuel ih => exact ⟨ih.next_selection, ih.next_selections⟩

/-! ## What can be derived is read -/

/-- Whether a text is empty or begins with one of these characters. -/
def Follows (allowed rest : List Char) : Prop := ∀ c, rest.head? = some c → c ∈ allowed

theorem follows_nil (allowed : List Char) : Follows allowed [] := nofun

theorem follows_cons {allowed rest : List Char} {c : Char} (h : c ∈ allowed) :
    Follows allowed (c :: rest) := by
  intro c' hc'
  cases hc'
  exact h

theorem Follows.mono {allowed more rest : List Char} (h : Follows allowed rest)
    (hsub : allowed ⊆ more) : Follows more rest :=
  fun c hc => hsub (h c hc)

/-- A name is read as far as its characters go, also beyond a run of them. -/
theorem segment?_run {run : List Char} (hne : run ≠ []) (hrun : ∀ c ∈ run, isNameChar c = true)
    (rest : List Char) :
    segment? (run ++ rest) = some (.name (String.ofList (run ++ rest.takeWhile isNameChar)),
      rest.dropWhile isNameChar) := by
  unfold segment?
  split
  · rename_i rest' hstar
    obtain ⟨c, run', rfl⟩ := List.exists_cons_of_ne_nil hne
    obtain ⟨rfl, _⟩ := List.cons.inj hstar
    exact absurd (hrun '*' List.mem_cons_self) (by decide)
  · rw [List.takeWhile_append_of_pos hrun, List.dropWhile_append_of_pos hrun]
    split
    · rename_i hnil
      exact absurd (List.append_eq_nil_iff.mp hnil).1 hne
    · rfl

/-- A segment is read up to a character that it cannot have. -/
theorem segment?_word (D : SegmentDerivation) {rest : List Char}
    (h : Follows [',', '/', '(', ')'] rest) :
    segment? (D.word ++ rest) = some (D.segment, rest) := by
  cases D with
  | wildcard => rfl
  | name run hne hall =>
      have hstop : rest.takeWhile isNameChar = [] ∧ rest.dropWhile isNameChar = rest := by
        cases rest with
        | nil => exact ⟨rfl, rfl⟩
        | cons c rest =>
            have hno : isNameChar c = false := by
              have hc := h c rfl
              simp only [List.mem_cons, List.not_mem_nil, or_false] at hc
              rcases hc with rfl | rfl | rfl | rfl <;> rfl
            simp [hno]
      have hread := segment?_run hne (fun c hc => isNameChar_iff.mpr (hall c hc)) rest
      rw [hstop.1, hstop.2, List.append_nil] at hread
      exact hread

/-- After a segment and `/`, what is read below them is put under the segment. -/
theorem selection?_under (s : SegmentDerivation) {fuel : Nat} {below rest : List Char}
    {selection : Selection} (h : selection? fuel below = some (selection, rest)) :
    selection? (fuel + 1) (s.word ++ '/' :: below) = some (.step s.segment selection, rest) := by
  rw [selection?, segment?_word s (follows_cons (by simp))]
  simp only [h]

/-- After a segment and `(`, what is read up to `)` is its group. -/
theorem selection?_group (s : SegmentDerivation) {fuel : Nat} {below rest : List Char}
    {members : Selections} (h : selections? fuel below = some (members, ')' :: rest)) :
    selection? (fuel + 1) (s.word ++ '(' :: below) = some (.group s.segment members, rest) := by
  rw [selection?, segment?_word s (follows_cons (by simp))]
  simp only [h]

/-- After a selection and `,`, the list goes on with what is read behind them. -/
theorem selections?_after {fuel : Nat} {text below rest : List Char} {selection : Selection}
    {selections : Selections} (hfirst : selection? fuel text = some (selection, ',' :: below))
    (h : selections? fuel below = some (selections, rest)) :
    selections? (fuel + 1) text = some (.cons selection selections, rest) := by
  rw [selections?, hfirst]
  simp only [h]

/-- A selection is read as a whole in front of what can follow it. Every two levels of reading
take a character, so fuel for twice the length of the word is enough. -/
def SelectionDerivation.IsRead (D : SelectionDerivation) : Prop :=
  ∀ {fuel : Nat} {rest : List Char}, 2 * D.word.length ≤ fuel + 1 → Follows [',', ')'] rest →
    selection? fuel (D.word ++ rest) = some (D.reading, rest)

/-- And so is an expression. -/
def ExpressionDerivation.IsRead (D : ExpressionDerivation) : Prop :=
  ∀ {fuel : Nat} {rest : List Char}, 2 * D.word.length ≤ fuel → Follows [')'] rest →
    selections? fuel (D.word ++ rest) = some (D.reading, rest)

theorem SegmentDerivation.length_word_pos (D : SegmentDerivation) : 0 < D.word.length :=
  List.length_pos_of_ne_nil D.word_ne_nil

/-- A segment without more. -/
theorem SelectionDerivation.isRead_segment (s : SegmentDerivation) :
    SelectionDerivation.IsRead ⟨s, [], none⟩ := by
  intro fuel rest hfuel hrest
  have hword : SelectionDerivation.word ⟨s, [], none⟩ = s.word := by simp [word, groupWord]
  rw [hword] at hfuel ⊢
  have hpos := s.length_word_pos
  obtain ⟨n, rfl⟩ := Nat.exists_eq_add_one_of_ne_zero (show fuel ≠ 0 by omega)
  rw [selection?, segment?_word s (hrest.mono (by simp))]
  -- what follows is neither `/` nor `(`, so nothing more is tried
  cases rest with
  | nil => rfl
  | cons c rest =>
      have hc := hrest c rfl
      simp only [List.mem_cons, List.not_mem_nil, or_false] at hc
      rcases hc with rfl | rfl <;> rfl

/-- A segment with a group. -/
theorem SelectionDerivation.isRead_group (s : SegmentDerivation) {inner : ExpressionDerivation}
    (h : inner.IsRead) : SelectionDerivation.IsRead ⟨s, [], some inner⟩ := by
  intro fuel rest hfuel hrest
  have hword : SelectionDerivation.word ⟨s, [], some inner⟩ =
      s.word ++ '(' :: (inner.word ++ [')']) := by simp [word, groupWord]
  rw [hword] at hfuel ⊢
  simp only [List.length_append, List.length_cons, List.length_nil] at hfuel
  have hpos := s.length_word_pos
  obtain ⟨n, rfl⟩ := Nat.exists_eq_add_one_of_ne_zero (show fuel ≠ 0 by omega)
  have hinner : selections? n (inner.word ++ ')' :: rest) = some (inner.reading, ')' :: rest) :=
    h (by omega) (follows_cons List.mem_cons_self)
  have htext : s.word ++ '(' :: (inner.word ++ [')']) ++ rest =
      s.word ++ '(' :: (inner.word ++ ')' :: rest) := by simp
  rw [htext]
  exact selection?_group s hinner

/-- A segment in front of a selection. -/
theorem SelectionDerivation.isRead_under (s : SegmentDerivation) {D : SelectionDerivation}
    (h : D.IsRead) : (D.under s).IsRead := by
  intro fuel rest hfuel hrest
  rw [word_under] at hfuel ⊢
  simp only [List.length_append, List.length_cons] at hfuel
  have hpos := s.length_word_pos
  obtain ⟨n, rfl⟩ := Nat.exists_eq_add_one_of_ne_zero (show fuel ≠ 0 by omega)
  have hbelow : selection? n (D.word ++ rest) = some (D.reading, rest) := h (by omega) hrest
  rw [List.append_assoc, List.cons_append, reading_under]
  exact selection?_under s hbelow

theorem SelectionDerivation.isRead_chain {group : Option ExpressionDerivation}
    (h : ∀ inner, group = some inner → inner.IsRead) (first : SegmentDerivation)
    (others : List SegmentDerivation) : SelectionDerivation.IsRead ⟨first, others, group⟩ := by
  induction others generalizing first with
  | nil =>
      cases group with
      | none => exact isRead_segment first
      | some inner => exact isRead_group first (h inner rfl)
  | cons next others ih => exact isRead_under first (ih next)

theorem SelectionDerivation.length_word_pos (D : SelectionDerivation) : 0 < D.word.length := by
  obtain ⟨first, others, group⟩ := D
  have hpos := first.length_word_pos
  simp only [word, List.length_append]
  omega

theorem ExpressionDerivation.length_word_pos (D : ExpressionDerivation) : 0 < D.word.length := by
  obtain ⟨first, others⟩ := D
  have hpos := first.length_word_pos
  simp only [word, List.length_append]
  omega

/-- A selection alone. -/
theorem ExpressionDerivation.isRead_one {selection : SelectionDerivation}
    (h : selection.IsRead) : ExpressionDerivation.IsRead ⟨selection, []⟩ := by
  intro fuel rest hfuel hrest
  have hword : ExpressionDerivation.word ⟨selection, []⟩ = selection.word := by
    simp [word, othersWord]
  rw [hword] at hfuel ⊢
  have hpos := selection.length_word_pos
  obtain ⟨n, rfl⟩ := Nat.exists_eq_add_one_of_ne_zero (show fuel ≠ 0 by omega)
  have hfirst : selection? n (selection.word ++ rest) = some (selection.reading, rest) :=
    h hfuel (hrest.mono (by simp))
  rw [selections?, hfirst]
  -- what follows is no `,`, so the list ends here
  cases rest with
  | nil => rfl
  | cons c rest =>
      have hc := hrest c rfl
      rw [List.mem_singleton] at hc
      subst hc
      rfl

/-- A selection in front of an expression. -/
theorem ExpressionDerivation.isRead_after {selection : SelectionDerivation}
    {D : ExpressionDerivation} (hfirst : selection.IsRead) (h : D.IsRead) :
    (D.after selection).IsRead := by
  intro fuel rest hfuel hrest
  rw [word_after] at hfuel ⊢
  simp only [List.length_append, List.length_cons] at hfuel
  have hpos := selection.length_word_pos
  obtain ⟨n, rfl⟩ := Nat.exists_eq_add_one_of_ne_zero (show fuel ≠ 0 by omega)
  have hselection : selection? n (selection.word ++ ',' :: (D.word ++ rest)) =
      some (selection.reading, ',' :: (D.word ++ rest)) :=
    hfirst (by omega) (follows_cons List.mem_cons_self)
  have hothers : selections? n (D.word ++ rest) = some (D.reading, rest) := h (by omega) hrest
  rw [List.append_assoc, List.cons_append, reading_after]
  exact selections?_after hselection hothers

theorem ExpressionDerivation.isRead_list (first : SelectionDerivation) (hfirst : first.IsRead)
    (others : List SelectionDerivation) (h : ∀ D ∈ others, D.IsRead) :
    ExpressionDerivation.IsRead ⟨first, others⟩ := by
  induction others generalizing first with
  | nil => exact isRead_one hfirst
  | cons next others ih =>
      obtain ⟨hnext, hothers⟩ := List.forall_mem_cons.mp h
      exact isRead_after hfirst (ih next hnext hothers)

mutual

/-- **What can be derived is read as a whole**, in front of whatever can follow it. -/
theorem ExpressionDerivation.isRead : ∀ D : ExpressionDerivation, D.IsRead
  | ⟨first, others⟩ =>
    ExpressionDerivation.isRead_list first first.isRead others (othersAreRead others)

theorem SelectionDerivation.isRead : ∀ D : SelectionDerivation, D.IsRead
  | ⟨first, others, group⟩ => SelectionDerivation.isRead_chain (groupIsRead group) first others

theorem othersAreRead : ∀ (others : List SelectionDerivation), ∀ D ∈ others, D.IsRead
  | [] => nofun
  | next :: rest => List.forall_mem_cons.mpr ⟨next.isRead, othersAreRead rest⟩

theorem groupIsRead : ∀ (group : Option ExpressionDerivation) (inner : ExpressionDerivation),
    group = some inner → inner.IsRead
  | none, _, h => absurd h (by simp)
  | some inner', inner, h => Option.some.inj h ▸ inner'.isRead

end

/-! ## Whole texts -/

/-- A text is read as a derivation of it is. -/
theorem ExpressionDerivation.parse_eq (D : ExpressionDerivation) {text : String}
    (h : D.word = text.toList) : Selections.parse text = .ok D.reading := by
  have hread : selections? (2 * D.word.length + 2) (D.word ++ []) = some (D.reading, []) :=
    D.isRead (by omega) (follows_nil _)
  rw [List.append_nil, h] at hread
  rw [Selections.parse, Selections.longest?, hread]

/-- A text that is read has a derivation. -/
theorem Selections.exists_derivation_of_parse {text : String} {selections : Selections}
    (h : Selections.parse text = .ok selections) :
    ∃ D : ExpressionDerivation, D.reading = selections ∧ D.word = text.toList := by
  unfold Selections.parse at h
  split at h
  · rename_i hread
    cases h
    obtain ⟨D, hreading, hword⟩ := (derivedReadings _).selections hread
    rw [List.append_nil] at hword
    exact ⟨D, hreading, hword.symm⟩
  · exact absurd h (by simp)
  · exact absurd h (by simp)

theorem Expression.parse_eq_ok_iff {text : String} {e : Expression} :
    Expression.parse text = .ok e ↔
      ∃ D : ExpressionDerivation, D.word = text.toList ∧ e = ⟨text, D.reading⟩ := by
  constructor
  · intro h
    obtain ⟨selections, hs, rfl⟩ := exists_selections_of_parse h
    obtain ⟨D, rfl, hword⟩ := Selections.exists_derivation_of_parse hs
    exact ⟨D, hword, rfl⟩
  · rintro ⟨D, hword, rfl⟩
    rw [Expression.parse, D.parse_eq hword]
    rfl

/-- The paths of an expression are the paths of a derivation, with wildcards taken off their
ends. -/
theorem ExpressionDerivation.strips_allPaths (D : ExpressionDerivation) (text : String) :
    List.Forall₂ Path.Strips D.paths (Expression.allPaths ⟨text, D.reading⟩) := by
  rw [Expression.allPaths, D.paths_reading, List.forall₂_map_right_iff, List.forall₂_same]
  exact fun path _ => .dropTrailingWildcards path

/-- **The reader accepts exactly the grammar and gives exactly its meaning.** A text is read if
it can be derived; there is no more than one way to derive it; and its paths are those that the
derivation means, with wildcards taken off their ends as long as more than one segment
remains. -/
theorem Expression.parse_iff_derivation (text : String) :
    ((∃ e, Expression.parse text = .ok e) ↔ ∃ D : ExpressionDerivation, D.word = text.toList) ∧
      (∀ D D' : ExpressionDerivation, D.word = text.toList → D'.word = text.toList → D = D') ∧
      ∀ paths, (Expression.parse text).map Expression.allPaths = .ok paths ↔
        ∃ D : ExpressionDerivation, D.word = text.toList ∧
          List.Forall₂ Path.Strips D.paths paths := by
  refine ⟨?_, ?_, fun paths => ?_⟩
  · constructor
    · rintro ⟨e, he⟩
      obtain ⟨D, hword, _⟩ := Expression.parse_eq_ok_iff.mp he
      exact ⟨D, hword⟩
    · rintro ⟨D, hword⟩
      exact ⟨_, Expression.parse_eq_ok_iff.mpr ⟨D, hword, rfl⟩⟩
  · intro D D' hword hword'
    have hparse := D.parse_eq hword
    rw [D'.parse_eq hword'] at hparse
    exact ExpressionDerivation.reading_inj (Except.ok.inj hparse).symm
  · constructor
    · intro h
      cases he : Expression.parse text with
      | error why => exact absurd h (by simp [he, Except.map])
      | ok e =>
          rw [he] at h
          cases h
          obtain ⟨D, hword, rfl⟩ := Expression.parse_eq_ok_iff.mp he
          exact ⟨D, hword, D.strips_allPaths text⟩
    · rintro ⟨D, hword, hstrips⟩
      have he := Expression.parse_eq_ok_iff.mpr ⟨D, hword, rfl⟩
      have hunique : Relator.RightUnique Path.Strips := fun _ _ _ h h' => h.unique h'
      have heq : Expression.allPaths ⟨text, D.reading⟩ = paths :=
        hunique.forall₂ (D.strips_allPaths text) hstrips
      rw [he, ← heq]
      rfl

end FieldSelection
