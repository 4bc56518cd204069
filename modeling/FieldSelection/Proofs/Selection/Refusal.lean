import FieldSelection.Proofs.Selection.Reading

/-!
# Where a refused text breaks off

A text that is no expression is refused at the end of the longest expression that it begins with,
or at its start if it begins with none. That the readers never give more than what can be derived
is known. Here it is shown that they never give less: whatever can be derived at the front of a
text, they read on at least to its end. A list that ends in front of a separator and a group that
is given up lose nothing by it, because a longer expression would have let the reader of what
comes after the separator or the bracket go on as well.
-/

namespace FieldSelection

/-- Whether these characters are the longest expression that a text begins with. They are none if
it begins with no expression. -/
structure LongestExpression (text before : List Char) : Prop where
  /-- The text begins with them. -/
  front : before <+: text
  /-- They are an expression, if there are any. -/
  derived : before ≠ [] → ∃ D : ExpressionDerivation, D.word = before
  /-- No expression that the text begins with is longer. -/
  longest : ∀ D : ExpressionDerivation, D.word <+: text → D.word.length ≤ before.length

/-! ## The readers never stop too early -/

theorem segment?_reaches (D : SegmentDerivation) (rest : List Char) :
    ∃ s rest', segment? (D.word ++ rest) = some (s, rest') ∧ rest'.length ≤ rest.length := by
  cases D with
  | wildcard => exact ⟨.wildcard, rest, rfl, Nat.le_refl _⟩
  | name run hne hall =>
      refine ⟨_, _, segment?_run hne (fun c hc => isNameChar_iff.mpr (hall c hc)) rest, ?_⟩
      exact (List.dropWhile_sublist _).length_le

theorem length_le_of_selection? {fuel : Nat} {text rest : List Char} {selection : Selection}
    (h : selection? fuel text = some (selection, rest)) : rest.length ≤ text.length := by
  obtain ⟨D, -, rfl⟩ := (derivedReadings fuel).selection h
  simp

theorem length_le_of_selections? {fuel : Nat} {text rest : List Char} {selections : Selections}
    (h : selections? fuel text = some (selections, rest)) : rest.length ≤ text.length := by
  obtain ⟨D, -, rfl⟩ := (derivedReadings fuel).selections h
  simp

/-- A selection is read at least to the end of its first segment. -/
theorem selection?_of_segment? (fuel : Nat) {text rest : List Char} {s : Segment}
    (h : segment? text = some (s, rest)) :
    ∃ selection rest', selection? (fuel + 1) text = some (selection, rest') ∧
      rest'.length ≤ rest.length := by
  rw [selection?, h]
  split
  · rename_i hnone
    exact absurd hnone (by simp)
  · rename_i below hsome
    cases hsome
    split
    · rename_i hread
      exact ⟨_, _, rfl, Nat.le_succ_of_le (length_le_of_selection? hread)⟩
    · exact ⟨_, _, rfl, Nat.le_refl _⟩
  · rename_i below hsome
    cases hsome
    split
    · rename_i hread
      have hle := length_le_of_selections? hread
      rw [List.length_cons] at hle
      exact ⟨_, _, rfl, Nat.le_succ_of_le (Nat.le_of_succ_le hle)⟩
    · exact ⟨_, _, rfl, Nat.le_refl _⟩
  · rename_i hsome
    cases hsome
    exact ⟨_, _, rfl, Nat.le_refl _⟩

/-- An expression is read at least to the end of its first selection. -/
theorem selections?_of_selection? {fuel : Nat} {text rest : List Char} {selection : Selection}
    (h : selection? fuel text = some (selection, rest)) :
    ∃ selections rest', selections? (fuel + 1) text = some (selections, rest') ∧
      rest'.length ≤ rest.length := by
  rw [selections?, h]
  split
  · rename_i hnone
    exact absurd hnone (by simp)
  · rename_i hsome
    cases hsome
    split
    · rename_i hread
      exact ⟨_, _, rfl, Nat.le_succ_of_le (length_le_of_selections? hread)⟩
    · exact ⟨_, _, rfl, Nat.le_refl _⟩
  · rename_i hsome
    cases hsome
    exact ⟨_, _, rfl, Nat.le_refl _⟩

/-- What can be derived at the front of a text is read at least to its end, with fuel for twice the
length of the text. -/
structure ReachingReadings (fuel : Nat) : Prop where
  /-- The reader of elements. -/
  selection : ∀ (D : SelectionDerivation) {rest : List Char},
    2 * (D.word ++ rest).length ≤ fuel + 1 →
      ∃ selection rest', selection? fuel (D.word ++ rest) = some (selection, rest') ∧
        rest'.length ≤ rest.length
  /-- The reader of lists. -/
  selections : ∀ (D : ExpressionDerivation) {rest : List Char},
    2 * (D.word ++ rest).length ≤ fuel →
      ∃ selections rest', selections? fuel (D.word ++ rest) = some (selections, rest') ∧
        rest'.length ≤ rest.length

theorem ReachingReadings.next_selection {fuel : Nat} (h : ReachingReadings fuel)
    (D : SelectionDerivation) {rest : List Char}
    (hfuel : 2 * (D.word ++ rest).length ≤ fuel + 1 + 1) :
    ∃ selection rest', selection? (fuel + 1) (D.word ++ rest) = some (selection, rest') ∧
      rest'.length ≤ rest.length := by
  obtain ⟨first, others, group⟩ := D
  have hpos := first.length_word_pos
  cases others with
  | nil =>
      cases group with
      | none =>
          obtain ⟨s, rest', hs, hle⟩ := segment?_reaches first rest
          have hword : SelectionDerivation.word ⟨first, [], none⟩ = first.word := by
            simp [SelectionDerivation.word, groupWord]
          rw [hword]
          obtain ⟨selection, rest'', hread, hle'⟩ := selection?_of_segment? fuel hs
          exact ⟨selection, rest'', hread, Nat.le_trans hle' hle⟩
      | some inner =>
          have hword : SelectionDerivation.word ⟨first, [], some inner⟩ ++ rest =
              first.word ++ '(' :: (inner.word ++ ')' :: rest) := by
            simp [SelectionDerivation.word, groupWord]
          rw [hword] at hfuel ⊢
          simp only [List.length_append, List.length_cons] at hfuel
          -- what is derived between brackets is read as a whole, whatever comes after them
          have hinner : selections? fuel (inner.word ++ ')' :: rest) =
              some (inner.reading, ')' :: rest) :=
            inner.isRead (by omega) (follows_cons List.mem_cons_self)
          exact ⟨_, rest, selection?_group first hinner, Nat.le_refl _⟩
  | cons next others =>
      have hword : SelectionDerivation.word ⟨first, next :: others, group⟩ ++ rest =
          first.word ++ '/' :: (SelectionDerivation.word ⟨next, others, group⟩ ++ rest) := by
        simp [SelectionDerivation.word]
      rw [hword] at hfuel ⊢
      simp only [List.length_append, List.length_cons] at hfuel
      have hbelow : 2 * (SelectionDerivation.word ⟨next, others, group⟩ ++ rest).length ≤
          fuel + 1 := by
        rw [List.length_append]
        omega
      obtain ⟨selection, rest', hread, hle⟩ := h.selection _ hbelow
      exact ⟨_, rest', selection?_under first hread, hle⟩

theorem ReachingReadings.next_selections {fuel : Nat} (h : ReachingReadings fuel)
    (D : ExpressionDerivation) {rest : List Char}
    (hfuel : 2 * (D.word ++ rest).length ≤ fuel + 1) :
    ∃ selections rest', selections? (fuel + 1) (D.word ++ rest) = some (selections, rest') ∧
      rest'.length ≤ rest.length := by
  obtain ⟨first, others⟩ := D
  cases others with
  | nil =>
      have hword : ExpressionDerivation.word ⟨first, []⟩ = first.word := by
        simp [ExpressionDerivation.word, othersWord]
      rw [hword] at hfuel ⊢
      obtain ⟨selection, rest', hread, hle⟩ := h.selection first hfuel
      obtain ⟨selections, rest'', hread', hle'⟩ := selections?_of_selection? hread
      exact ⟨selections, rest'', hread', Nat.le_trans hle' hle⟩
  | cons next others =>
      have hword : ExpressionDerivation.word ⟨first, next :: others⟩ ++ rest =
          first.word ++ ',' :: (ExpressionDerivation.word ⟨next, others⟩ ++ rest) := by
        simp [ExpressionDerivation.word, othersWord]
      have hpos := first.length_word_pos
      rw [hword] at hfuel ⊢
      simp only [List.length_append, List.length_cons] at hfuel
      have hfirst : selection? fuel
          (first.word ++ ',' :: (ExpressionDerivation.word ⟨next, others⟩ ++ rest)) =
            some (first.reading, ',' :: (ExpressionDerivation.word ⟨next, others⟩ ++ rest)) :=
        first.isRead (by omega) (follows_cons List.mem_cons_self)
      have hothers : 2 * (ExpressionDerivation.word ⟨next, others⟩ ++ rest).length ≤ fuel := by
        rw [List.length_append]
        omega
      obtain ⟨selections, rest', hread, hle⟩ := h.selections _ hothers
      exact ⟨_, rest', selections?_after hfirst hread, hle⟩

theorem reachingReadings (fuel : Nat) : ReachingReadings fuel := by
  -- the two readers call each other, each time with less fuel
  induction fuel with
  | zero =>
      constructor
      · intro D rest hfuel
        have hpos := D.length_word_pos
        rw [List.length_append] at hfuel
        omega
      · intro D rest hfuel
        have hpos := D.length_word_pos
        rw [List.length_append] at hfuel
        omega
  | succ fuel ih => exact ⟨ih.next_selection, ih.next_selections⟩

/-! ## The longest expression at the front -/

namespace Selections

/-- If a text begins with an expression, at least that is read off it. -/
theorem longest?_reaches (D : ExpressionDerivation) {text : List Char} (h : D.word <+: text) :
    ∃ selections rest, longest? text = some (selections, rest) ∧
      D.word.length + rest.length ≤ text.length := by
  obtain ⟨behind, rfl⟩ := h
  have hfuel : 2 * (D.word ++ behind).length ≤ 2 * (D.word ++ behind).length + 2 :=
    Nat.le_add_right _ 2
  obtain ⟨selections, rest, hread, hle⟩ := (reachingReadings _).selections D hfuel
  refine ⟨selections, rest, hread, ?_⟩
  rw [List.length_append]
  exact Nat.add_le_add_left hle _

/-- **What is read off a text is the longest expression that it begins with.** -/
theorem longestExpression_of_longest? {text rest : List Char} {selections : Selections}
    (h : longest? text = some (selections, rest)) :
    ∃ before, text = before ++ rest ∧ LongestExpression text before := by
  obtain ⟨D, -, hword⟩ := (derivedReadings _).selections h
  refine ⟨D.word, hword, ⟨rest, hword.symm⟩, fun _ => ⟨D, rfl⟩, fun D' hfront => ?_⟩
  obtain ⟨_, _, hread, hle⟩ := longest?_reaches D' hfront
  rw [h] at hread
  cases hread
  rw [hword, List.length_append] at hle
  exact Nat.le_of_add_le_add_right hle

/-- If nothing is read off a text, it begins with no expression. -/
theorem longestExpression_of_longest?_eq_none {text : List Char} (h : longest? text = none) :
    LongestExpression text [] := by
  refine ⟨List.nil_prefix, fun hne => absurd rfl hne, fun D hfront => ?_⟩
  obtain ⟨_, _, hread, -⟩ := longest?_reaches D hfront
  rw [h] at hread
  exact absurd hread (by simp)

end Selections

/-! ## Where the error points -/

theorem utf8Length_eq_utf8ByteSize (text : List Char) :
    utf8Length text = (String.ofList text).utf8ByteSize := by
  induction text with
  | nil => rfl
  | cons c text ih =>
      have hsplit : String.ofList (c :: text) = String.singleton c ++ String.ofList text := by
        rw [String.singleton_eq_ofList, ← String.ofList_append]
        rfl
      rw [hsplit, String.utf8ByteSize_append, String.utf8ByteSize_singleton, ← ih]
      rfl

/-- The bytes in front of what is left are those of the text without those of the rest. -/
theorem utf8Length_append_sub (before rest : List Char) :
    utf8Length (before ++ rest) - utf8Length rest = (String.ofList before).utf8ByteSize := by
  rw [utf8Length_eq_utf8ByteSize, utf8Length_eq_utf8ByteSize, String.ofList_append,
    String.utf8ByteSize_append, Nat.add_sub_cancel]

/-- A refused text is left at the end of its longest expression. -/
theorem Selections.exists_longestExpression_of_parse {text : String} {why : SyntaxError}
    (h : Selections.parse text = .error why) :
    ∃ before rest : List Char, text.toList = before ++ rest ∧
      LongestExpression text.toList before ∧
      why = ⟨text, (String.ofList before).utf8ByteSize, rest.head?⟩ ∧
      (rest = [] → text = "") := by
  unfold Selections.parse at h
  split at h
  · exact absurd h (by simp)
  · rename_i c rest hread
    cases h
    obtain ⟨before, hsplit, hlongest⟩ := longestExpression_of_longest? hread
    refine ⟨before, c :: rest, hsplit, hlongest, ?_, fun hnil => absurd hnil (by simp)⟩
    rw [hsplit, utf8Length_append_sub]
    rfl
  · rename_i hnone
    cases h
    exact ⟨[], text.toList, rfl, longestExpression_of_longest?_eq_none hnone, rfl,
      fun hnil => String.toList_eq_nil_iff.mp hnil⟩

/-- **Where a refusal points.** The error of a refused text has the whole text. It gives as offset
how many bytes the longest expression takes that the text begins with, none if there is no such
expression, and names the character that comes after it; only if the text is empty, there is
none. -/
theorem Expression.refused_at_longest {text : String} {why : SyntaxError}
    (h : Expression.parse text = .error why) :
    why.expression = text ∧
      ∃ (before rest : List Char) (found : String), text.toList = before ++ rest ∧
        LongestExpression text.toList before ∧
        why.reason = "unexpected " ++ found ++ " at offset " ++
          toString (String.ofList before).utf8ByteSize ∧
        ((text = "" ∧ found = "end of input") ∨
          (text ≠ "" ∧ ∃ c more, rest = c :: more ∧ found = "'" ++ c.toString ++ "'")) := by
  obtain ⟨before, rest, hsplit, hlongest, rfl, hend⟩ :=
    Selections.exists_longestExpression_of_parse (parse_eq_error_iff.mp h)
  refine ⟨rfl, before, rest, ?_⟩
  cases rest with
  | nil => exact ⟨"end of input", hsplit, hlongest, rfl, Or.inl ⟨hend rfl, rfl⟩⟩
  | cons c more =>
      refine ⟨"'" ++ c.toString ++ "'", hsplit, hlongest, rfl, Or.inr ⟨?_, c, more, rfl, rfl⟩⟩
      rintro rfl
      exact absurd hsplit (by simp)

/-- The first group is part of the longest expression, the second is not: after its `,` comes no
selection, so it is given up from its bracket on. The first character takes two bytes. -/
theorem Expression.refused_at_longest_group :
    let text := "é(b,c/d),e(f,/"
    let why : SyntaxError := ⟨text, 11, some '('⟩
    Expression.parse text = .error why ∧ why.reason = "unexpected '(' at offset 11" ∧
      why.expression = text ∧
      ∃ (before rest : List Char) (found : String), text.toList = before ++ rest ∧
        LongestExpression text.toList before ∧
        why.reason = "unexpected " ++ found ++ " at offset " ++
          toString (String.ofList before).utf8ByteSize ∧
        ((text = "" ∧ found = "end of input") ∨
          (text ≠ "" ∧ ∃ c more, rest = c :: more ∧ found = "'" ++ c.toString ++ "'")) := by
  intro text why
  have h : Expression.parse "é(b,c/d),e(f,/" = .error ⟨"é(b,c/d),e(f,/", 11, some '('⟩ := rfl
  exact ⟨h, by decide, Expression.refused_at_longest h⟩

end FieldSelection
