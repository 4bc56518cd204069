import FieldSelection.Path
import Mathlib.Data.List.DropRight

/-!
# Paths and the names along them

A path is compared with the names that lead to a place of a document, segment by segment. It
covers the place if it ends there or before, and it passes the place if it goes on below it.

Collapsing a list of paths loses no place: each path of the list has a prefix that stays.
-/

namespace FieldSelection.Path

/-- Whether a path can be read along these names, as far as both of them go. -/
def agrees : Path → List String → Bool
  | s :: path, name :: names => s.matchesName name && agrees path names
  | _, _ => true

/-- Whether a path covers the place that these names lead to: it is the wildcard alone, or it
is no longer than the names and each of its segments is the wildcard or the name there. -/
def covers (path : Path) (names : List String) : Bool :=
  path == [.wildcard] || (decide (path.length ≤ names.length) && path.agrees names)

/-- Whether a path goes on below the place that these names lead to, and takes the last step
to the place by a wildcard. -/
def passesByWildcard (path : Path) (names : List String) : Bool :=
  decide (names.length < path.length) && path.agrees names &&
    (!names.isEmpty && path[names.length - 1]? == some .wildcard)

variable {path p q : Path} {names more : List String}

/-! ## Reading along names -/

@[simp] theorem agrees_nil (path : Path) : path.agrees [] = true := by
  cases path <;> rfl

theorem agrees_of_prefix (h : q <+: p) (hp : p.agrees names = true) : q.agrees names = true := by
  induction q generalizing p names with
  | nil => rfl
  | cons s q ih =>
      cases names with
      | nil => rfl
      | cons name names =>
          obtain ⟨t, ht, hq⟩ := List.cons_prefix_iff.mp h
          subst ht
          rw [agrees, Bool.and_eq_true] at hp ⊢
          exact ⟨hp.1, ih hq hp.2⟩

/-- Names beyond the end of a path play no part. -/
theorem agrees_append_names (h : p.length ≤ names.length) :
    p.agrees (names ++ more) = p.agrees names := by
  induction p generalizing names with
  | nil => rfl
  | cons s p ih =>
      cases names with
      | nil => exact absurd h (by simp)
      | cons name names =>
          rw [List.cons_append, agrees, agrees, ih (Nat.le_of_succ_le_succ h)]

/-- Segments beyond the last name play no part. -/
theorem agrees_append (h : names.length ≤ p.length) :
    (p ++ q).agrees names = p.agrees names := by
  induction p generalizing names with
  | nil =>
      rw [List.eq_nil_of_length_eq_zero (Nat.le_zero.mp h), agrees_nil, agrees_nil]
  | cons s p ih =>
      cases names with
      | nil => rfl
      | cons name names =>
          rw [List.cons_append, agrees, agrees, ih (Nat.le_of_succ_le_succ h)]

theorem agrees_concat {s : Segment} {name : String} (h : p.length = names.length) :
    (p ++ [s]).agrees (names ++ [name]) = (p.agrees names && s.matchesName name) := by
  induction p generalizing names with
  | nil =>
      rw [List.eq_nil_of_length_eq_zero h.symm]
      simp [agrees]
  | cons s' p ih =>
      cases names with
      | nil => exact absurd h (by simp)
      | cons name' names =>
          have hlength : p.length = names.length := by simpa using h
          rw [List.cons_append, List.cons_append, agrees, agrees, ih hlength, Bool.and_assoc]

/-! ## Covering and passing -/

theorem covers_iff :
    path.covers names = true ↔
      path = [.wildcard] ∨ (path.length ≤ names.length ∧ path.agrees names = true) := by
  simp [covers]

theorem passesByWildcard_iff :
    path.passesByWildcard names = true ↔
      names.length < path.length ∧ path.agrees names = true ∧ names ≠ [] ∧
        path[names.length - 1]? = some .wildcard := by
  simp [passesByWildcard, and_assoc]

/-- What lies below a covered place is covered. -/
theorem covers_append (h : path.covers names = true) (more : List String) :
    path.covers (names ++ more) = true := by
  rw [covers_iff] at h ⊢
  rcases h with h | ⟨hle, hagrees⟩
  · exact Or.inl h
  · refine Or.inr ⟨?_, by rw [agrees_append_names hle]; exact hagrees⟩
    rw [List.length_append]
    exact Nat.le_add_right_of_le hle

/-! ## Trailing wildcards and collapsing -/

theorem mem_of_mem_dropTrailingWildcards {s : Segment} (h : s ∈ path.dropTrailingWildcards) :
    s ∈ path := by
  cases path with
  | nil => exact h
  | cons s' rest =>
      rw [dropTrailingWildcards, List.mem_cons, List.mem_reverse] at h
      rw [List.mem_cons]
      refine h.imp_right fun hrest => ?_
      exact List.mem_reverse.mp ((List.dropWhile_sublist _).subset hrest)

/-- A path that still ends in a wildcard is the wildcard alone. -/
theorem eq_nil_of_dropTrailingWildcards (h : path.dropTrailingWildcards = q ++ [.wildcard]) :
    q = [] := by
  cases path with
  | nil => exact absurd h (by simp)
  | cons s rest =>
      rw [dropTrailingWildcards] at h
      cases q with
      | nil => rfl
      | cons s' q =>
          rw [List.cons_append] at h
          have hrest := congrArg List.reverse (List.cons.inj h).2
          rw [List.reverse_reverse, List.reverse_append] at hrest
          have hhead := List.head?_dropWhile_not Segment.isWildcard rest.reverse
          rw [hrest] at hhead
          exact absurd hhead (by simp [Segment.isWildcard])

/-- Each path of a list has a prefix that collapsing keeps. -/
theorem exists_mem_collapse {paths : List Path} (h : path ∈ paths) :
    ∃ p ∈ collapse paths, p <+: path := by
  -- a path that lies below another is longer, so going up from path to path ends
  induction hn : path.length using Nat.strongRecOn generalizing path with
  | ind n ih =>
      by_cases hall : ∀ other ∈ paths, path.isBelow other = false
      · exact ⟨path, mem_collapse.mpr ⟨h, hall⟩, List.prefix_refl path⟩
      · obtain ⟨other, hother, hbelow⟩ : ∃ other ∈ paths, path.isBelow other = true := by
          simpa using hall
        obtain ⟨hlt, hpfx⟩ := isBelow_iff.mp hbelow
        obtain ⟨p, hp, hpre⟩ := ih other.length (hn ▸ hlt) hother rfl
        exact ⟨p, hp, hpre.trans hpfx⟩

theorem mem_of_mem_collapse {paths : List Path} (h : path ∈ collapse paths) : path ∈ paths :=
  (mem_collapse.mp h).1

/-- No path that collapsing keeps lies below another one. -/
theorem eq_of_prefix_of_mem_collapse {paths : List Path} (hp : p ∈ collapse paths)
    (hq : q ∈ collapse paths) (h : q <+: p) : q = p := by
  have hnot := (mem_collapse.mp hp).2 q (mem_of_mem_collapse hq)
  refine h.eq_of_length_le ?_
  rcases Nat.lt_or_ge q.length p.length with hlt | hge
  · rw [isBelow_iff.mpr ⟨hlt, h⟩] at hnot
    exact absurd hnot (by simp)
  · exact hge

/-- Collapsing once is enough. -/
theorem collapse_collapse (paths : List Path) : collapse (collapse paths) = collapse paths := by
  refine List.filter_eq_self.mpr fun p hp => ?_
  have hnone : (collapse paths).any p.isBelow = false := by
    rw [List.any_eq_false]
    intro q hq
    simp [(mem_collapse.mp hp).2 q (mem_of_mem_collapse hq)]
  rw [hnone]
  rfl

/-- What is left of a list depends only on what is in it. -/
theorem mem_collapse_congr {paths others : List Path} (h : ∀ p, p ∈ paths ↔ p ∈ others)
    (p : Path) : p ∈ collapse paths ↔ p ∈ collapse others := by
  simp only [mem_collapse, h]

/-- A path with a shorter prefix in the list is gone. -/
theorem count_collapse_of_prefix {paths : List Path} (hq : q ∈ paths) (h : q <+: p)
    (hlt : q.length < p.length) : (collapse paths).count p = 0 := by
  refine List.count_eq_zero.mpr fun hp => ?_
  have hnot := (mem_collapse.mp hp).2 q hq
  rw [isBelow_iff.mpr ⟨hlt, h⟩] at hnot
  exact absurd hnot (by simp)

/-- A path without one stays as often as it was there. -/
theorem count_collapse_of_minimal {paths : List Path}
    (h : ∀ q ∈ paths, q <+: p → p.length ≤ q.length) :
    (collapse paths).count p = paths.count p := by
  refine List.count_filter ?_
  have hnone : paths.any p.isBelow = false := by
    rw [List.any_eq_false]
    intro q hq hbelow
    obtain ⟨hlt, hpfx⟩ := isBelow_iff.mp hbelow
    exact absurd (h q hq hpfx) (Nat.not_le_of_lt hlt)
  rw [hnone]
  rfl

/-- **Collapsing keeps exactly the minimal paths**, in their order and with their repetitions:
those that have no shorter prefix in the list. They are prefixes of all others and not of each
other, nothing more can be collapsed, and which they are depends only on which paths there
were. -/
theorem collapse_minimal (paths : List Path) :
    (collapse paths).Sublist paths ∧
    (∀ p, (collapse paths).count p =
      if ∃ q ∈ paths, q <+: p ∧ q.length < p.length then 0 else paths.count p) ∧
    (∀ p ∈ paths, ∃ q ∈ collapse paths, q <+: p) ∧
    (∀ p ∈ collapse paths, ∀ q ∈ collapse paths, q <+: p → q = p) ∧
    collapse (collapse paths) = collapse paths ∧
    ∀ others : List Path, (∀ p, p ∈ paths ↔ p ∈ others) →
      ∀ p, p ∈ collapse paths ↔ p ∈ collapse others := by
  refine ⟨List.filter_sublist, fun p => ?_, fun p hp => exists_mem_collapse hp,
    fun p hp q hq => eq_of_prefix_of_mem_collapse hp hq, collapse_collapse paths,
    fun others h => mem_collapse_congr h⟩
  split
  · rename_i hshorter
    obtain ⟨q, hq, hpfx, hlt⟩ := hshorter
    exact count_collapse_of_prefix hq hpfx hlt
  · rename_i hnone
    refine count_collapse_of_minimal fun q hq hpfx => ?_
    exact Nat.le_of_not_lt fun hlt => hnone ⟨q, hq, hpfx, hlt⟩

/-- The path `a` is left twice. What lies below it is gone, also where the path in between is
gone itself; the wildcard is no prefix of a name. -/
example :
    collapse [[.name "a", .wildcard, .name "b"], [.name "a"], [.wildcard], [.name "a", .wildcard],
      [.name "a"]] = [[.name "a"], [.wildcard], [.name "a"]] := by
  decide

/-- A path whose wildcards at the end were removed has none to remove. -/
theorem dropTrailingWildcards_idem (path : Path) :
    path.dropTrailingWildcards.dropTrailingWildcards = path.dropTrailingWildcards := by
  cases path with
  | nil => rfl
  | cons s rest => simp [dropTrailingWildcards, List.dropWhile_idempotent]

end FieldSelection.Path
