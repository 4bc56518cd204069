import FieldSelection.Proofs.Tree.Simulation
import FieldSelection.Proofs.Tree.Trie

/-!
# Containing a single path

The tree of one path is a chain: each node but the last has one child. To contain it is to
find a way down along the segments of the path, one child at a time, until the path ends or
a catch-all takes all that is left of it.
-/

namespace FieldSelection

namespace Graph

/-- Whether a path can be walked down from a node. -/
def Accepts (g : Graph) : Path → NodeId → Prop
  | [], _ => True
  | s :: rest, n => ∃ c ∈ g.children n, g.label c = some .catchAll ∨
      ((g.label c = some s ∨ g.label c = some .wildcard ∨ s = .wildcard) ∧ g.Accepts rest c)

end Graph

/-- The trie of one path. -/
structure Chain (path : Path) (h : Graph) (root : NodeId) (place : NodeId → Path) : Prop where
  /-- The tree is a trie. -/
  trie : IsTrie h root place
  /-- The nodes stand for the prefixes of the path. -/
  reaches : ∀ q, h.Reaches place q ↔ q <+: path

namespace Chain

variable {path rest : Path} {s : Segment} {g h : Graph} {root : NodeId} {place : NodeId → Path}
  {a b c : NodeId}

theorem ofPath (path : Path) :
    ∃ place, Chain path (Tree.ofPath path).graph (Tree.ofPath path).root place := by
  obtain ⟨place, htrie, hreaches⟩ := IsTrie.ofPaths [path]
  refine ⟨place, htrie, fun q => (hreaches q).trans ?_⟩
  simp only [List.mem_singleton, exists_eq_left]
  constructor
  · rintro (rfl | hq)
    · exact List.nil_prefix
    · exact hq
  · exact Or.inr

/-- At the end of the path there are no children. -/
theorem children_of_end (hch : Chain path h root place) (hpath : path = place b) :
    h.children b = [] := by
  rw [List.eq_nil_iff_forall_not_mem]
  intro c hc
  obtain ⟨_, hlt, s, hplace⟩ := (hch.trie.child b c).mp hc
  have hle := ((hch.reaches _).mp ⟨c, hlt, hplace⟩).length_le
  rw [hpath, List.length_append] at hle
  exact Nat.not_succ_le_self _ hle

/-- Before that, there is the one that the next segment leads to. -/
theorem mem_children_iff (hch : Chain path h root place) (hb : b < h.size)
    (hpath : path = place b ++ s :: rest) :
    c ∈ h.children b ↔ c < h.size ∧ place c = place b ++ [s] := by
  rw [hch.trie.child b c]
  constructor
  · rintro ⟨_, hc, s', hplace⟩
    refine ⟨hc, ?_⟩
    have hpfx := (hch.reaches _).mp ⟨c, hc, hplace⟩
    rw [hpath, List.prefix_append_right_inj, List.cons_prefix_cons] at hpfx
    rw [hplace, hpfx.1]
  · rintro ⟨hc, hplace⟩
    exact ⟨hb, hc, s, hplace⟩

theorem exists_child (hch : Chain path h root place) (hpath : path = place b ++ s :: rest) :
    ∃ c, c < h.size ∧ place c = place b ++ [s] := by
  refine (hch.reaches _).mpr ⟨rest, ?_⟩
  rw [hpath, List.append_assoc]
  rfl

theorem label_child (hch : Chain path h root place) (hc : c < h.size)
    (hplace : place c = place b ++ [s]) : h.label c = some s := by
  rw [hch.trie.label c hc, hplace, List.getLast?_concat]

theorem labelsAgree_iff (hlabel : h.label b = some s) :
    Graph.LabelsAgree g h a b ↔
      g.label a = some s ∨ g.label a = some .wildcard ∨ s = .wildcard := by
  rw [Graph.LabelsAgree, hlabel, Option.some.injEq]

/-- What a node has in common with one of the path lies along the rest of the path. -/
theorem accepts_of_similar (hch : Chain path h root place) :
    ∀ {rest : Path} {a b : NodeId}, b < h.size → path = place b ++ rest →
      g.label a ≠ some .catchAll → Graph.SimilarGiven g h [] a b → g.Accepts rest a
  | [], _, _, _, _, _, _ => trivial
  | s :: rest, a, b, hb, hpath, hcatch, hs => by
      rcases hs.simulated with hno | hcat | ⟨_, hbelow⟩
      · exact absurd hno List.not_mem_nil
      · exact absurd hcat hcatch
      · obtain ⟨b', hb', hplace⟩ := hch.exists_child hpath
        obtain ⟨a', ha', hs'⟩ := hbelow b' ((hch.mem_children_iff hb hpath).mpr ⟨hb', hplace⟩)
        refine ⟨a', ha', ?_⟩
        by_cases hcat' : g.label a' = some .catchAll
        · exact Or.inl hcat'
        · have hpath' : path = place b' ++ rest := by rw [hpath, hplace, List.append_assoc]; rfl
          refine Or.inr ⟨?_, hch.accepts_of_similar hb' hpath' hcat' hs'⟩
          rcases hs'.simulated with hno | hcat'' | ⟨hagree, _⟩
          · exact absurd hno List.not_mem_nil
          · exact absurd hcat'' hcat'
          · exact (labelsAgree_iff (hch.label_child hb' hplace)).mp hagree

/-- The nodes from which the rest of the path can be walked make a simulation. -/
theorem isSimulation (hch : Chain path h root place) :
    Graph.IsSimulation g h fun a b => g.label a = some .catchAll ∨
      (Graph.LabelsAgree g h a b ∧ b < h.size ∧ ∃ rest, path = place b ++ rest ∧
        g.Accepts rest a) := by
  rintro a b (hcat | ⟨hagree, hb, rest, hpath, haccepts⟩)
  · exact Or.inl hcat
  · refine Or.inr ⟨hagree, fun b' hb' => ?_⟩
    cases rest with
    | nil =>
        -- the path ends here, so there is nothing more to match
        rw [List.append_nil] at hpath
        rw [hch.children_of_end hpath] at hb'
        exact absurd hb' List.not_mem_nil
    | cons s rest =>
        obtain ⟨hlt, hplace⟩ := (hch.mem_children_iff hb hpath).mp hb'
        obtain ⟨a', ha', hstep⟩ := haccepts
        refine ⟨a', ha', hstep.imp_right fun ⟨hlabel, hrest⟩ => ?_⟩
        refine ⟨(labelsAgree_iff (hch.label_child hlt hplace)).mpr hlabel, hlt, rest, ?_, hrest⟩
        rw [hpath, hplace, List.append_assoc]
        rfl

end Chain

/-- **A tree contains a path exactly if the path can be walked down from its root.** -/
theorem Tree.contains_ofPath_iff {t : Tree} (hroot : t.graph.isRoot t.root = true) (path : Path) :
    t.contains (.ofPath path) = true ↔ t.graph.Accepts path t.root := by
  obtain ⟨place, hch⟩ := Chain.ofPath path
  have hnone : t.graph.label t.root = none := Option.isNone_iff_eq_none.mp hroot
  have hpath : path = place (Tree.ofPath path).root ++ path := by rw [hch.trie.place_root]; rfl
  rw [Tree.contains_iff_similarGiven]
  constructor
  · refine hch.accepts_of_similar hch.trie.root_lt hpath ?_
    rw [hnone]
    simp
  · intro haccepts
    refine Graph.similarGiven_nil_iff.mpr ⟨_, hch.isSimulation, Or.inr ⟨Or.inl ?_,
      hch.trie.root_lt, path, hpath, haccepts⟩⟩
    rw [hnone, hch.trie.label _ hch.trie.root_lt, hch.trie.place_root]
    rfl

end FieldSelection
