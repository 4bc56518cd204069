import FieldSelection.Proofs.Context.Place
import FieldSelection.Proofs.Path
import FieldSelection.Proofs.Tree.Trie

/-!
# What the trie of a list of paths keeps

In a trie, names lead to the nodes whose places can be read along them. If none of the paths
lies below another, the leaves are the ends of the paths, and so a node admits everything if
some path goes on from it by wildcards only, or not at all. With this it is said in terms of
the paths alone where everything is kept and where there is a wildcard.
-/

namespace FieldSelection

variable {paths : List Path} {names : List String} {name : String} {t : Tree}
  {place : NodeId → Path} {n c : NodeId}

namespace Path

/-- Whether paths keep everything at a place: but for wildcards at its end, one of them can be
read along the names and is no longer than these. -/
def KeptWhole (paths : List Path) (names : List String) : Prop :=
  ∃ (q : Path) (k : Nat), q ++ List.replicate k .wildcard ∈ paths ∧
    q.length ≤ names.length ∧ q.agrees names = true

/-- Whether one of the paths takes the last step to a place by a wildcard. -/
def ReachedByWildcard (paths : List Path) (names : List String) : Prop :=
  ∃ q : Path, q.length = names.length ∧ q.agrees names = true ∧ q.getLast? = some .wildcard ∧
    ∃ p ∈ paths, q <+: p

end Path

/-! ## Names along a trie -/

namespace IsTrie

theorem selects_eq (h : IsTrie t.graph t.root place) (hc : c < t.graph.size) {q : Path}
    {s : Segment} (hplace : place c = q ++ [s]) :
    t.graph.selects c name = s.matchesName name := by
  rw [Graph.selects, h.label c hc, hplace, List.getLast?_concat]

/-- The names lead to the nodes whose place can be read along all of them. -/
theorem leadsTo_iff (h : IsTrie t.graph t.root place) :
    t.LeadsTo names n ↔
      n < t.graph.size ∧ (place n).length = names.length ∧ (place n).agrees names = true := by
  constructor
  · intro hn
    induction hn with
    | root => exact ⟨h.root_lt, by rw [h.place_root]; rfl, Path.agrees_nil _⟩
    | @child names name n c _ hc hsel ih =>
        obtain ⟨_, hlength, hagrees⟩ := ih
        obtain ⟨_, hlt, s, hplace⟩ := (h.child n c).mp hc
        rw [h.selects_eq hlt hplace] at hsel
        refine ⟨hlt, ?_, ?_⟩
        · simp [hplace, hlength]
        · rw [hplace, Path.agrees_concat hlength, hagrees, hsel]
          rfl
  · rintro ⟨hn, hlength, hagrees⟩
    induction names using List.reverseRecOn generalizing n with
    | nil =>
        have hroot : n = t.root := by
          refine h.inj n t.root hn h.root_lt ?_
          rw [h.place_root]
          exact List.eq_nil_of_length_eq_zero hlength
        rw [hroot]
        exact Tree.LeadsTo.root
    | append_singleton names name ih =>
        have hne : place n ≠ [] := by
          intro hnil
          rw [hnil] at hlength
          exact absurd hlength (by simp)
        have hsplit := (List.dropLast_concat_getLast hne).symm
        generalize (place n).dropLast = q at hsplit
        generalize (place n).getLast hne = s at hsplit
        obtain ⟨m, hm, rfl⟩ := h.closed n hn q s hsplit
        have hbefore : (place m).length = names.length := by
          rw [hsplit] at hlength
          simpa using hlength
        rw [hsplit, Path.agrees_concat hbefore, Bool.and_eq_true] at hagrees
        refine Tree.LeadsTo.child (ih hm hbefore hagrees.1)
          ((h.child m n).mpr ⟨hm, hn, s, hsplit⟩) ?_
        rw [h.selects_eq hn hsplit]
        exact hagrees.2

end IsTrie

/-! ## Paths of which none lies below another -/

/-- The trie of some paths of which none lies below another. -/
structure PathTrie (paths : List Path) (t : Tree) (place : NodeId → Path) : Prop where
  /-- There is a path. -/
  nonempty : paths ≠ []
  /-- No path begins with another one. -/
  apart : ∀ p ∈ paths, ∀ q ∈ paths, q <+: p → q = p
  /-- No path has the catch-all. -/
  noCatchAll : ∀ p ∈ paths, Segment.catchAll ∉ p
  /-- The tree is a trie. -/
  trie : IsTrie t.graph t.root place
  /-- The nodes stand for the prefixes of the paths. -/
  reaches : ∀ q, t.graph.Reaches place q ↔ q = [] ∨ ∃ p ∈ paths, q <+: p

namespace PathTrie

/-- The place of a node is a prefix of a path. -/
theorem exists_prefix (h : PathTrie paths t place) (hn : n < t.graph.size) :
    ∃ p ∈ paths, place n <+: p := by
  rcases (h.reaches (place n)).mp ⟨n, hn, rfl⟩ with hnil | hex
  · obtain ⟨p, hp⟩ := List.exists_mem_of_ne_nil paths h.nonempty
    exact ⟨p, hp, by rw [hnil]; exact List.nil_prefix⟩
  · exact hex

/-- Each prefix of a path has its node. -/
theorem exists_node (h : PathTrie paths t place) {p q : Path} (hp : p ∈ paths) (hq : q <+: p) :
    ∃ n, n < t.graph.size ∧ place n = q :=
  (h.reaches q).mpr (Or.inr ⟨p, hp, hq⟩)

/-- A leaf is a node at the end of a path. -/
theorem isLeaf_iff (h : PathTrie paths t place) (hn : n < t.graph.size) :
    t.graph.isLeaf n = true ↔ place n ∈ paths := by
  rw [Graph.isLeaf_iff]
  constructor
  · intro hleaf
    obtain ⟨p, hp, rest, hrest⟩ := h.exists_prefix hn
    cases rest with
    | nil =>
        rw [List.append_nil] at hrest
        rw [hrest]
        exact hp
    | cons s rest =>
        have hnext : place n ++ [s] <+: p := ⟨rest, by rw [← hrest]; simp⟩
        obtain ⟨c, hc, hplace⟩ := h.exists_node hp hnext
        have hmem := (h.trie.child n c).mpr ⟨hn, hc, s, hplace⟩
        rw [hleaf] at hmem
        exact absurd hmem List.not_mem_nil
  · intro hmem
    rw [List.eq_nil_iff_forall_not_mem]
    intro c hc
    obtain ⟨_, hclt, s, hplace⟩ := (h.trie.child n c).mp hc
    obtain ⟨p, hp, hpfx⟩ := h.exists_prefix hclt
    rw [hplace] at hpfx
    have heq := h.apart p hp _ hmem ((List.prefix_append _ _).trans hpfx)
    have hle := hpfx.length_le
    rw [← heq, List.length_append] at hle
    exact Nat.not_succ_le_self _ hle

theorem label_ne_catchAll (h : PathTrie paths t place) (c : NodeId) :
    t.graph.label c ≠ some .catchAll := by
  intro hlabel
  have hlt := Graph.lt_size_of_label hlabel
  obtain ⟨p, hp, hpfx⟩ := h.exists_prefix hlt
  rw [h.trie.label c hlt] at hlabel
  exact h.noCatchAll p hp (hpfx.subset (List.mem_of_getLast? hlabel))

/-- From a node, wildcards lead to a leaf if a path goes on from it by wildcards only. -/
theorem leadsToLeaf_iff (h : PathTrie paths t place) (hn : n < t.graph.size) :
    t.graph.LeadsToLeaf n ↔ ∃ k, place n ++ List.replicate k .wildcard ∈ paths := by
  constructor
  · intro hlead
    induction hlead with
    | leaf hleaf => exact ⟨0, by simpa using (h.isLeaf_iff hn).mp hleaf⟩
    | @step n c hc _ ih =>
        obtain ⟨hmem, hlabel⟩ := Graph.mem_wildcardChildren.mp hc
        obtain ⟨_, hclt, s, hplace⟩ := (h.trie.child n c).mp hmem
        rw [h.trie.label c hclt, hplace, List.getLast?_concat] at hlabel
        obtain ⟨k, hk⟩ := ih hclt
        rw [hplace, Option.some.inj hlabel, List.append_assoc] at hk
        exact ⟨k + 1, hk⟩
  · rintro ⟨k, hk⟩
    induction k generalizing n with
    | zero =>
        rw [List.replicate_zero, List.append_nil] at hk
        exact Graph.LeadsToLeaf.leaf ((h.isLeaf_iff hn).mpr hk)
    | succ k ih =>
        -- the first of the wildcards has a node, a child of this one
        rw [List.replicate_succ, List.append_cons] at hk
        obtain ⟨c, hc, hplace⟩ := h.exists_node hk (List.prefix_append _ _)
        rw [← hplace] at hk
        refine Graph.LeadsToLeaf.step (Graph.mem_wildcardChildren.mpr ⟨?_, ?_⟩) (ih hc hk)
        · exact (h.trie.child n c).mpr ⟨hn, hc, .wildcard, hplace⟩
        · rw [h.trie.label c hc, hplace, List.getLast?_concat]

theorem admitsAll_iff (h : PathTrie paths t place) (hn : n < t.graph.size) :
    t.graph.admitsAll n = true ↔ ∃ k, place n ++ List.replicate k .wildcard ∈ paths := by
  rw [← h.leadsToLeaf_iff hn, ← Graph.isOpenLeaf_iff_leadsToLeaf, Graph.admitsAll,
    Bool.or_eq_true, List.any_eq_true]
  constructor
  · rintro (hopen | ⟨c, _, hcatch⟩)
    · exact hopen
    · exact absurd (by simpa [Graph.isCatchAll] using hcatch) (h.label_ne_catchAll c)
  · exact Or.inl

/-- **Everything is kept at the places that the paths cover.** -/
theorem keepsAll_iff (h : PathTrie paths t place) :
    t.KeepsAll names ↔ Path.KeptWhole paths names := by
  constructor
  · rintro ⟨before, ⟨after, rfl⟩, n, hn, hadm⟩
    obtain ⟨hlt, hlength, hagrees⟩ := h.trie.leadsTo_iff.mp hn
    obtain ⟨k, hk⟩ := (h.admitsAll_iff hlt).mp hadm
    refine ⟨place n, k, hk, ?_, ?_⟩
    · rw [hlength, List.length_append]
      exact Nat.le_add_right _ _
    · rw [Path.agrees_append_names (Nat.le_of_eq hlength)]
      exact hagrees
  · rintro ⟨q, k, hk, hle, hagrees⟩
    obtain ⟨n, hn, rfl⟩ := h.exists_node hk (List.prefix_append _ _)
    have htake : (names.take (place n).length).length = (place n).length := by
      rw [List.length_take, Nat.min_eq_left hle]
    refine ⟨_, List.take_prefix (place n).length names, n, h.trie.leadsTo_iff.mpr
      ⟨hn, htake.symm, ?_⟩, (h.admitsAll_iff hn).mpr ⟨k, hk⟩⟩
    rw [← List.take_append_drop (place n).length names,
      Path.agrees_append_names (Nat.le_of_eq htake.symm)] at hagrees
    exact hagrees

/-- **The names lead to a wildcard where a path comes to the place by one.** -/
theorem exists_wildcard_iff (h : PathTrie paths t place) :
    (∃ n, t.LeadsTo names n ∧ t.graph.label n = some .wildcard) ↔
      Path.ReachedByWildcard paths names := by
  constructor
  · rintro ⟨n, hn, hlabel⟩
    obtain ⟨hlt, hlength, hagrees⟩ := h.trie.leadsTo_iff.mp hn
    rw [h.trie.label n hlt] at hlabel
    exact ⟨place n, hlength, hagrees, hlabel, h.exists_prefix hlt⟩
  · rintro ⟨q, hlength, hagrees, hlast, p, hp, hpfx⟩
    obtain ⟨n, hn, rfl⟩ := h.exists_node hp hpfx
    refine ⟨n, h.trie.leadsTo_iff.mpr ⟨hn, hlength, hagrees⟩, ?_⟩
    rw [h.trie.label n hn]
    exact hlast

/-- Paths that are collapsed do not lie below each other. -/
theorem collapse (hne : paths ≠ []) (hcatch : ∀ p ∈ paths, Segment.catchAll ∉ p)
    (htrie : IsTrie t.graph t.root place)
    (hreaches : ∀ q, t.graph.Reaches place q ↔ q = [] ∨ ∃ p ∈ Path.collapse paths, q <+: p) :
    PathTrie (Path.collapse paths) t place where
  nonempty := by
    obtain ⟨p, hp⟩ := List.exists_mem_of_ne_nil paths hne
    obtain ⟨q, hq, _⟩ := Path.exists_mem_collapse hp
    exact List.ne_nil_of_mem hq
  apart := fun _ hp _ hq hpfx => Path.eq_of_prefix_of_mem_collapse hp hq hpfx
  noCatchAll := fun p hp => hcatch p (Path.mem_of_mem_collapse hp)
  trie := htrie
  reaches := hreaches

theorem ofPaths_collapse (hne : paths ≠ []) (hcatch : ∀ p ∈ paths, Segment.catchAll ∉ p) :
    ∃ place, PathTrie (Path.collapse paths) (Tree.ofPaths (Path.collapse paths)) place := by
  obtain ⟨place, htrie, hreaches⟩ := IsTrie.ofPaths (Path.collapse paths)
  exact ⟨place, collapse hne hcatch htrie hreaches⟩

end PathTrie

end FieldSelection
