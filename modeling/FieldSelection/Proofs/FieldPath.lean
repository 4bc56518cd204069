import FieldSelection.Checker
import Mathlib.Data.List.Basic

/-!
# Joined field paths

A field path is cut at its separators, and where two paths are joined by one more separator, there
it is cut as well. So the names of the joined path are those of the one and then those of the
other. What is wrong with a path is wrong with one of its parts or with where they meet, so a
joined path is refused only if one of the two is.

A checker that starts from a place puts the names of the place in front of those of a path. It
looks at the path alone to see if it takes it. So to start from one place after the other and to
ask for a path is to ask for all of them joined.
-/

namespace FieldSelection

namespace FieldPath

/-! ## Splitting -/

theorem split_ne_nil (text : List Char) : split text ≠ [] := by
  cases text with
  | nil => simp [split]
  | cons c rest =>
      rw [split.eq_def]
      split
      · simp
      · simp
      · split <;> simp

/-- A character that is no separator stands at the beginning of the first part. -/
theorem split_cons {c : Char} (hc : c ≠ '/') {rest part : List Char} {parts : List (List Char)}
    (h : split rest = part :: parts) : split (c :: rest) = (c :: part) :: parts := by
  rw [split.eq_3 _ _ (fun heq => hc heq), h]

/-- Texts that a separator joins are split on their own. -/
theorem split_append (text more : List Char) :
    split (text ++ '/' :: more) = split text ++ split more := by
  induction text with
  | nil => rfl
  | cons c text ih =>
      by_cases hc : c = '/'
      · subst hc
        rw [List.cons_append, split, split, ih]
        rfl
      · obtain ⟨part, parts, hsplit⟩ := List.exists_cons_of_ne_nil (split_ne_nil text)
        rw [hsplit] at ih
        rw [List.cons_append, split_cons hc hsplit, split_cons hc ih]
        rfl

/-! ## Names -/

variable {path other : String} {names more : List String}

/-- A text is a field path if it can be seen, has no wildcard, and has something between any two
separators. -/
theorem names_eq_ok_iff : FieldPath.names path = .ok names ↔
    Text.isBlankText path = false ∧ '*' ∉ path.toList ∧ [] ∉ split path.toList ∧
      (split path.toList).map String.ofList = names := by
  simp only [FieldPath.names]
  split
  · simp_all
  · split
    · simp_all
    · split <;> simp_all

theorem names_ne_nil (h : FieldPath.names path = .ok names) : names ≠ [] := by
  obtain ⟨-, -, -, rfl⟩ := names_eq_ok_iff.mp h
  exact mt List.map_eq_nil_iff.mp (split_ne_nil _)

/-- Two field paths with a separator between are a field path again. -/
theorem names_append (h : FieldPath.names path = .ok names)
    (h' : FieldPath.names other = .ok more) :
    FieldPath.names (path ++ "/" ++ other) = .ok (names ++ more) := by
  obtain ⟨-, hstar, hparts, rfl⟩ := names_eq_ok_iff.mp h
  obtain ⟨-, hstar', hparts', rfl⟩ := names_eq_ok_iff.mp h'
  have hchars : (path ++ "/" ++ other).toList = path.toList ++ '/' :: other.toList := by simp
  refine names_eq_ok_iff.mpr ⟨?_, ?_, ?_, ?_⟩
  · -- the separator itself can be seen
    have hslash : Text.isBlank '/' = false := by decide
    rw [Text.isBlankText, hchars, List.all_append, List.all_cons, hslash]
    simp
  · rw [hchars]
    simp [hstar, hstar']
  · rw [hchars, split_append, List.mem_append, not_or]
    exact ⟨hparts, hparts'⟩
  · rw [hchars, split_append, List.map_append]

/-- **Joined field paths have all the names, in order.** -/
theorem names_intercalate {parts : List String} {located : List (List String)}
    (hne : parts ≠ []) (h : parts.mapM FieldPath.names = .ok located) :
    FieldPath.names ("/".intercalate parts) = .ok located.flatten := by
  induction parts generalizing located with
  | nil => exact absurd rfl hne
  | cons part rest ih =>
      rw [List.mapM_cons] at h
      cases hpart : FieldPath.names part with
      | error why => rw [hpart] at h; exact absurd h (by simp [bind, Except.bind])
      | ok names =>
          cases hrest : rest.mapM FieldPath.names with
          | error why => rw [hpart, hrest] at h; exact absurd h (by simp [bind, Except.bind])
          | ok below =>
              rw [hpart, hrest] at h
              cases h
              cases rest with
              | nil =>
                  cases hrest
                  rw [String.intercalate_singleton, hpart]
                  simp
              | cons next rest =>
                  have hjoined := names_append hpart (ih (List.cons_ne_nil _ _) hrest)
                  rw [String.intercalate_cons_cons, hjoined, List.flatten_cons]

/-! ## Lists of texts -/

variable {parts before after : List String} {part : String} {why : FieldPathError}

/-- Field paths one by one are field paths together. -/
theorem exists_mapM_names (h : ∀ part ∈ parts, ∃ names, FieldPath.names part = .ok names) :
    ∃ located, parts.mapM FieldPath.names = .ok located := by
  induction parts with
  | nil => exact ⟨[], rfl⟩
  | cons part rest ih =>
      obtain ⟨names, hnames⟩ := h part List.mem_cons_self
      obtain ⟨located, hlocated⟩ := ih fun part hpart => h part (List.mem_cons_of_mem _ hpart)
      refine ⟨names :: located, ?_⟩
      rw [List.mapM_cons, hnames, hlocated]
      rfl

/-- The first text that is none says what is wrong. -/
theorem mapM_names_of_refused (h : ∀ part ∈ before, ∃ names, FieldPath.names part = .ok names)
    (hpart : FieldPath.names part = .error why) :
    (before ++ part :: after).mapM FieldPath.names = .error why := by
  obtain ⟨located, hlocated⟩ := exists_mapM_names h
  rw [List.mapM_append, hlocated, List.mapM_cons, hpart]
  rfl

end FieldPath

/-! ## Checkers that start from one place after the other -/

namespace Checker

/-- The checker that starts from the last of some places, each given from the one before. -/
def startingFromAll (c : Checker) (places : List String) : Except FieldPathError Checker :=
  places.foldlM startingFrom c

variable {path : String}

/-- **A checker collects the names of all places that it was started from.** -/
theorem startingFromAll_eq (c : Checker) (places : List String) :
    startingFromAll c places = (places.mapM FieldPath.names).map fun located =>
      { c with start := c.start ++ located.flatten } := by
  induction places generalizing c with
  | nil =>
      have hstart : c = { c with start := c.start ++ [].flatten } := by simp
      exact congrArg Except.ok hstart
  | cons place places ih =>
      have hcons : startingFromAll c (place :: places) =
          (c.startingFrom place).bind fun c => startingFromAll c places := rfl
      rw [hcons, startingFrom, locate, List.mapM_cons]
      cases FieldPath.names place with
      | error why => rfl
      | ok names =>
          have hrest := ih { c with start := c.start ++ names }
          refine hrest.trans ?_
          cases places.mapM FieldPath.names with
          | error why => rfl
          | ok located => exact congrArg Except.ok (by simp)

/-- What a checker answers if it takes a path. -/
theorem isOk_map_locate_iff {α : Type} (c : Checker) (f : List String → α) :
    ((c.locate path).map f).isOk = true ↔ ∃ names, FieldPath.names path = .ok names := by
  rw [locate]
  cases FieldPath.names path <;> simp [Except.map, Except.isOk, Except.toBool]

/-- A path is refused for what is wrong with it, wherever the checker starts from. -/
theorem map_locate_eq_error_iff {α : Type} (c : Checker) (f : List String → α)
    {why : FieldPathError} :
    (c.locate path).map f = .error why ↔ FieldPath.names path = .error why := by
  rw [locate]
  cases FieldPath.names path <;> simp [Except.map]

/-- Both questions are answered from the expression and the names that lead to the field. -/
theorem exists_answer {ask : Checker → String → Except FieldPathError Bool}
    (hask : ask = isRetained ∨ ask = isRequested) :
    ∃ answer : Expression → List String → Bool,
      ∀ c path, ask c path = (c.locate path).map (answer c.expression) := by
  rcases hask with rfl | rfl
  · exact ⟨retains, fun _ _ => rfl⟩
  · exact ⟨requests, fun _ _ => rfl⟩

/-- **To start from places one after the other is to join the paths.** If a checker takes each of
some places and a path, the checker that was started from all of the places takes the path, and
answers as the one that was not started from anywhere answers for all of them joined. What a checker
refuses, it refuses for the same reason wherever it was started from, and no checker can be started
from a place that is refused, whatever comes before and after. -/
theorem asks_joined (e : Expression) {ask : Checker → String → Except FieldPathError Bool}
    (hask : ask = isRetained ∨ ask = isRequested) :
    (∀ (places : List String) (path : String),
      (∀ place ∈ places, (startingFrom { expression := e } place).isOk = true) →
      (ask { expression := e } path).isOk = true →
      ∃ c answer, startingFromAll { expression := e } places = .ok c ∧ ask c path = .ok answer ∧
        ask { expression := e } ("/".intercalate (places ++ [path])) = .ok answer) ∧
    (∀ (c : Checker) (path : String) (why : FieldPathError),
      (c.startingFrom path = .error why ↔ startingFrom { expression := e } path = .error why) ∧
      (ask c path = .error why ↔ ask { expression := e } path = .error why)) ∧
    (∀ (before : List String) (place : String) (after : List String) (why : FieldPathError),
      (∀ r ∈ before, (startingFrom { expression := e } r).isOk = true) →
      startingFrom { expression := e } place = .error why →
      startingFromAll { expression := e } (before ++ place :: after) = .error why) := by
  obtain ⟨answer, hanswer⟩ := exists_answer hask
  refine ⟨fun places path hplaces hpath => ?_, fun c path why => ⟨?_, ?_⟩,
    fun before place after why hbefore hplace => ?_⟩
  · have hnames := fun place hplace => (isOk_map_locate_iff _ _).mp (hplaces place hplace)
    rw [hanswer, isOk_map_locate_iff] at hpath
    obtain ⟨names, hpath⟩ := hpath
    obtain ⟨located, hlocated⟩ := FieldPath.exists_mapM_names hnames
    have hall : (places ++ [path]).mapM FieldPath.names = .ok (located ++ [names]) := by
      rw [List.mapM_append, hlocated, List.mapM_cons, hpath]
      rfl
    have hjoined := FieldPath.names_intercalate (by simp) hall
    refine ⟨{ expression := e, start := located.flatten }, answer e (located.flatten ++ names),
      ?_, ?_, ?_⟩
    · rw [startingFromAll_eq, hlocated]
      rfl
    · rw [hanswer, locate, hpath]
      rfl
    · rw [hanswer, locate, hjoined, List.flatten_append, List.flatten_singleton]
      rfl
  · exact (map_locate_eq_error_iff _ _).trans (map_locate_eq_error_iff _ _).symm
  · rw [hanswer, hanswer]
    exact (map_locate_eq_error_iff _ _).trans (map_locate_eq_error_iff _ _).symm
  · have hnames := fun r hr => (isOk_map_locate_iff _ _).mp (hbefore r hr)
    have hrefused := (map_locate_eq_error_iff _ _).mp hplace
    rw [startingFromAll_eq, FieldPath.mapM_names_of_refused hnames hrefused]
    rfl

/-- One name of the second place is blank, and the path has two names, both below the wildcard. -/
theorem asks_joined_blank :
    ∃ e c, Expression.parse "a/b/*/d" = .ok e ∧
      (∀ place ∈ ["a", "b/ "], (startingFrom { expression := e } place).isOk = true) ∧
      startingFromAll { expression := e } ["a", "b/ "] = .ok c ∧
      c.isRetained "ü/x" = .ok true ∧
      isRetained { expression := e } "a/b/ /ü/x" = .ok true ∧
      (startingFrom c "x/" = .error (.separators "x/") ∧
        startingFromAll { expression := e } ["a", "x/", "b/*"] = .error (.separators "x/")) := by
  let e : Expression := ⟨"a/b/*/d", .one (.step (.name "a") (.step (.name "b")
    (.step .wildcard (.leaf (.name "d")))))⟩
  obtain ⟨hjoined, hsame, hrefused⟩ := asks_joined e (.inl rfl)
  have hplaces : ∀ place ∈ ["a", "b/ "], (startingFrom { expression := e } place).isOk = true := by
    decide +kernel
  obtain ⟨c, answer, hc, hanswer, hanswer'⟩ :=
    hjoined ["a", "b/ "] "ü/x" hplaces (by decide +kernel)
  have hjoin : "/".intercalate (["a", "b/ "] ++ ["ü/x"]) = "a/b/ /ü/x" := by decide +kernel
  have htrue : isRetained { expression := e } "a/b/ /ü/x" = .ok true := by decide +kernel
  rw [hjoin, htrue] at hanswer'
  cases hanswer'
  refine ⟨e, c, rfl, hplaces, hc, hanswer, htrue, ?_, ?_⟩
  · exact (hsame c "x/" _).1.mpr ((map_locate_eq_error_iff _ _).mpr (by decide +kernel))
  · exact hrefused ["a"] "x/" ["b/*"] _ (by decide +kernel)
      ((map_locate_eq_error_iff _ _).mpr (by decide +kernel))

end Checker

end FieldSelection
