import FieldSelection.Proofs.Path
import FieldSelection.Proofs.Tree.Walk

/-!
# Paths that contain each other

The tree of a path is a chain, so to ask whether it contains another path is to walk the two
side by side. For a list of names and a path without the catch-all the two questions, which of
them contains the other, differ only in which may end first: in both cases the path has to
agree with the names as far as both go.
-/

namespace FieldSelection

namespace Path

/-- Whether a path can be walked down the chain of another one: it is no longer, up to a
catch-all, and its segments go with those of the other one. -/
def WalksDown : Path → Path → Prop
  | [], _ => True
  | _ :: _, [] => False
  | s :: path, t :: other =>
    t = .catchAll ∨ ((t = s ∨ t = .wildcard ∨ s = .wildcard) ∧ WalksDown path other)

theorem matchesName_iff {s : Segment} {name : String} :
    s.matchesName name = true ↔ s = .name name ∨ s = .wildcard := by
  cases s <;> simp [Segment.matchesName]

/-- Names walk down a path that is at least as long and agrees with them. -/
theorem names_walksDown_iff {path : Path} (hno : Segment.catchAll ∉ path) {names : List String} :
    WalksDown (names.map Segment.name) path ↔
      names.length ≤ path.length ∧ path.agrees names = true := by
  induction names generalizing path with
  | nil => simp [WalksDown]
  | cons name names ih =>
      cases path with
      | nil => simp [WalksDown]
      | cons s path =>
          have hs : s ≠ .catchAll := fun h => hno (h ▸ List.mem_cons_self)
          have hpath : Segment.catchAll ∉ path := fun h => hno (List.mem_cons_of_mem _ h)
          rw [List.map_cons, WalksDown, ih hpath, agrees, Bool.and_eq_true, matchesName_iff]
          simp [hs, and_left_comm]

/-- A path walks down names that are at least as many and that it agrees with. -/
theorem walksDown_names_iff {path : Path} {names : List String} :
    WalksDown path (names.map Segment.name) ↔
      path.length ≤ names.length ∧ path.agrees names = true := by
  induction path generalizing names with
  | nil => simp [WalksDown, agrees]
  | cons s path ih =>
      cases names with
      | nil => simp [WalksDown]
      | cons name names =>
          rw [List.map_cons, WalksDown, ih, agrees, Bool.and_eq_true, matchesName_iff]
          simp [@eq_comm _ (Segment.name name) s, and_left_comm]

end Path

namespace Chain

variable {path q rest : Path} {h : Graph} {root b : NodeId} {place : NodeId → Path}

/-- What can be walked from a node of a chain walks down the rest of its path. -/
theorem accepts_iff (hch : Chain path h root place) (hb : b < h.size)
    (hpath : path = place b ++ rest) : h.Accepts q b ↔ q.WalksDown rest := by
  induction rest generalizing q b with
  | nil =>
      cases q with
      | nil => exact Iff.rfl
      | cons s q =>
          rw [List.append_nil] at hpath
          rw [Graph.Accepts, hch.children_of_end hpath]
          simp [Path.WalksDown]
  | cons t rest ih =>
      cases q with
      | nil => exact Iff.rfl
      | cons s q =>
          obtain ⟨c, hc, hplace⟩ := hch.exists_child hpath
          have hlabel : h.label c = some t := hch.label_child hc hplace
          have hbelow : path = place c ++ rest := by
            rw [hpath, hplace, List.append_assoc]
            rfl
          have hstep : (h.label c = some .catchAll ∨
              ((h.label c = some s ∨ h.label c = some .wildcard ∨ s = .wildcard) ∧
                h.Accepts q c)) ↔ Path.WalksDown (s :: q) (t :: rest) := by
            rw [Path.WalksDown, hlabel, ih hc hbelow]
            simp
          rw [Graph.Accepts, ← hstep]
          constructor
          · -- the chain has one child here, whichever was taken
            rintro ⟨c', hc', haccepts⟩
            obtain ⟨hlt', hplace'⟩ := (hch.mem_children_iff hb hpath).mp hc'
            have heq : c' = c := hch.trie.inj c' c hlt' hc (hplace'.trans hplace.symm)
            rwa [heq] at haccepts
          · intro haccepts
            exact ⟨c, (hch.mem_children_iff hb hpath).mpr ⟨hc, hplace⟩, haccepts⟩

end Chain

/-- **The tree of one path contains that of another exactly if the other walks down it.** -/
theorem Tree.ofPath_contains_iff (path other : Path) :
    (Tree.ofPath path).contains (.ofPath other) = true ↔ other.WalksDown path := by
  obtain ⟨place, hch⟩ := Chain.ofPath path
  have hlabel : (Tree.ofPath path).graph.label (Tree.ofPath path).root = none := by
    rw [hch.trie.label _ hch.trie.root_lt, hch.trie.place_root]
    rfl
  have hroot : (Tree.ofPath path).graph.isRoot (Tree.ofPath path).root = true := by
    rw [Graph.isRoot, hlabel]
    rfl
  have hpath : path = place (Tree.ofPath path).root ++ path := by
    rw [hch.trie.place_root]
    rfl
  rw [Tree.contains_ofPath_iff hroot, hch.accepts_iff hch.trie.root_lt hpath]

/-- **Names overlap with a path exactly if the path agrees with them**, as far as both go. -/
theorem Tree.overlap_names_iff {path : Path} (hno : Segment.catchAll ∉ path)
    (names : List String) :
    ((Tree.ofPath path).contains (.ofPath (names.map Segment.name)) = true ∨
        (Tree.ofPath (names.map Segment.name)).contains (.ofPath path) = true) ↔
      path.agrees names = true := by
  rw [Tree.ofPath_contains_iff, Tree.ofPath_contains_iff, Path.names_walksDown_iff hno,
    Path.walksDown_names_iff, ← or_and_right]
  exact and_iff_right (Nat.le_total _ _)

end FieldSelection
