import FieldSelection.Proofs.Graph.Growth
import FieldSelection.Proofs.Graph.Splices
import FieldSelection.Tree

/-!
# Operations on a graph

A graph is built by operations, one after the other. Each of them is about one node: this gets
other links, and there may be new nodes, but the links of all others stay as they are. As splices
are looked up whenever children are read, the change does not show at that node only. It shows at
the nodes that see it, and nowhere else.
-/

namespace FieldSelection.Graph

/-- What can be done to a graph that is being built. -/
inductive Operation where
  /-- A root is added. -/
  | addRoot
  /-- A child is looked for, and made if it is not there. -/
  | child (parent : NodeId) (label : Segment)
  /-- So are the nodes of a path. -/
  | branch (parent : NodeId) (path : Path)
  /-- The children are replaced by the catch-all. -/
  | catchAll (n : NodeId)
  /-- The children of a root are spliced in. -/
  | merge (n source : NodeId)
  deriving DecidableEq, Repr

/-- The graph after an operation. A merge that is refused changes nothing. -/
def apply (g : Graph) : Operation → Graph
  | .addRoot => g.addRoot.1
  | .child parent label => (g.ensureChild parent label).1
  | .branch parent path => (g.ensureBranch parent path).1
  | .catchAll n => (g.setCatchAll n).1
  | .merge n source =>
    match g.merge n source with
    | .ok g => g
    | .error _ => g

/-- The graph that operations build, starting from one root. -/
def build (operations : List Operation) : Graph := operations.foldl apply Tree.empty.graph

variable {g g' g'' : Graph} {n m p k c source : NodeId} {s : Segment} {links : List Link}

/-- A merge is refused, or adds a splice of a root whose children have other labels. -/
theorem apply_merge_cases (g : Graph) (n source : NodeId) :
    g.apply (.merge n source) = g ∨
      (g.isRoot source = true ∧ g.sharedLabels n source = [] ∧
        g.apply (.merge n source) = g.addLink n (.spliced source)) := by
  rw [apply, merge]
  by_cases hroot : g.isRoot source = true
  · rw [if_pos hroot]
    cases hshared : g.sharedLabels n source with
    | nil => exact Or.inr ⟨hroot, rfl, rfl⟩
    | cons label rest => exact Or.inl rfl
  · rw [if_neg hroot]
    exact Or.inl rfl

theorem apply_merge_of_shares_nothing (hroot : g.isRoot source = true)
    (hshared : g.sharedLabels n source = []) :
    g.apply (.merge n source) = g.addLink n (.spliced source) := by
  rw [apply, merge, if_pos hroot, hshared]

theorem mem_childLabels : s ∈ g.childLabels n ↔ ∃ c ∈ g.children n, g.label c = some s :=
  List.mem_filterMap

theorem child?_eq_none_iff : g.child? n s = none ↔ s ∉ g.childLabels n := by
  rw [child?, List.find?_eq_none, mem_childLabels]
  simp

/-! ## Other links at one node -/

/-- Whether a graph has grown, with other links at no node but one. -/
structure ChangesAt (g g' : Graph) (p : NodeId) : Prop where
  size_le : g.size ≤ g'.size
  label : ∀ k, k < g.size → g'.label k = g.label k
  links : ∀ k, k ≠ p → g'.links k = g.links k

theorem changesAt_addNode (g : Graph) (label : Option Segment) (p : NodeId) :
    ChangesAt g (g.addNode label).1 p where
  size_le := by
    rw [size_addNode]
    exact Nat.le_succ _
  label := fun _ hk => label_addNode_of_lt label hk
  links := fun k _ => links_addNode label k

theorem changesAt_setLinks (g : Graph) (p : NodeId) (links : List Link) :
    ChangesAt g (g.setLinks p links) p where
  size_le := Nat.le_of_eq (size_setLinks g p links).symm
  label := fun k _ => label_setLinks p links k
  links := fun _ hk => links_setLinks_of_ne links hk

namespace ChangesAt

theorem trans (h : ChangesAt g g' p) (h' : ChangesAt g' g'' p) : ChangesAt g g'' p where
  size_le := Nat.le_trans h.size_le h'.size_le
  label := by
    intro k hk
    rw [h'.label k (Nat.lt_of_lt_of_le hk h.size_le), h.label k hk]
  links := by
    intro k hk
    rw [h'.links k hk, h.links k hk]

/-- A node that saw the changed node sees it still. -/
theorem sees_changed (h : ChangesAt g g' p) (hm : g.Sees m p) : g'.Sees m p := by
  -- up to the changed node, the splices on the way are the old ones
  have hway : ∀ k, g.Sees m k → g'.Sees m k ∨ g'.Sees m p := by
    intro k hk
    induction hk with
    | self => exact Or.inl .self
    | @splice k r _ hr hlt ih =>
        rcases ih with hk | hp
        · by_cases hkp : k = p
          · rw [hkp] at hk
            exact Or.inr hk
          · rw [← h.links k hkp] at hr
            exact Or.inl (.splice hk hr (Nat.lt_of_lt_of_le hlt h.size_le))
        · exact Or.inr hp
  rcases hway p hm with hp | hp
  · exact hp
  · exact hp

/-- A node that did not see it sees what it saw. -/
theorem sees_iff (h : ChangesAt g g' p) (hm : ¬ g.Sees m p)
    (hinside : ∀ n r, .spliced r ∈ g.links n → r < g.size) : g'.Sees m k ↔ g.Sees m k := by
  have hne : ∀ k, g.Sees m k → k ≠ p := by
    intro k hk heq
    rw [heq] at hk
    exact hm hk
  constructor
  · intro hk
    induction hk with
    | self => exact .self
    | @splice k r _ hr _ ih =>
        rw [h.links k (hne k ih)] at hr
        exact .splice ih hr (hinside k r hr)
  · intro hk
    induction hk with
    | self => exact .self
    | @splice k r hk hr hlt ih =>
        rw [← h.links k (hne k hk)] at hr
        exact .splice ih hr (Nat.lt_of_lt_of_le hlt h.size_le)

end ChangesAt

/-! ## More links -/

/-- Whether a graph has grown, with all nodes, labels and links that it had. -/
structure Extends (g g' : Graph) : Prop where
  size_le : g.size ≤ g'.size
  label : ∀ k, k < g.size → g'.label k = g.label k
  links : ∀ k, g.links k ⊆ g'.links k

theorem ChangesAt.extends (h : ChangesAt g g' p) (hp : g.links p ⊆ g'.links p) :
    Extends g g' where
  size_le := h.size_le
  label := h.label
  links := by
    intro k
    by_cases hk : k = p
    · rw [hk]
      exact hp
    · rw [h.links k hk]
      exact List.Subset.refl _

namespace Extends

theorem refl (g : Graph) : Extends g g :=
  ⟨Nat.le_refl _, fun _ _ => rfl, fun _ => List.Subset.refl _⟩

theorem trans (h : Extends g g') (h' : Extends g' g'') : Extends g g'' where
  size_le := Nat.le_trans h.size_le h'.size_le
  label := by
    intro k hk
    rw [h'.label k (Nat.lt_of_lt_of_le hk h.size_le), h.label k hk]
  links := fun k => List.Subset.trans (h.links k) (h'.links k)

theorem sees (h : Extends g g') (hm : g.Sees n m) : g'.Sees n m := by
  induction hm with
  | self => exact .self
  | splice _ hr hlt ih => exact .splice ih (h.links _ hr) (Nat.lt_of_lt_of_le hlt h.size_le)

/-- No child is lost. -/
theorem children_subset (h : Extends g g') (n : NodeId) : g.children n ⊆ g'.children n := by
  intro c hc
  obtain ⟨m, hm, hc⟩ := mem_children_iff_owned.mp hc
  exact mem_children_iff_owned.mpr ⟨m, h.sees hm, h.links m hc⟩

end Extends

/-- Where no links are added but one, the children are the old ones, or come from this link. -/
theorem mem_children_of_links {new : Link}
    (hlinks : ∀ k link, link ∈ g'.links k → link ∈ g.links k ∨ link = new)
    (hinside : ∀ k r, .spliced r ∈ g.links k → r < g.size) (hc : c ∈ g'.children n) :
    c ∈ g.children n ∨ .owned c = new ∨ ∃ r, .spliced r = new ∧ c ∈ g.children r := by
  have hsees : ∀ m, g'.Sees n m → g.Sees n m ∨ ∃ r, .spliced r = new ∧ g.Sees r m := by
    intro m hm
    induction hm with
    | self => exact Or.inl .self
    | @splice k r _ hr _ ih =>
        rcases hlinks k _ hr with hr | hnew
        · have hlt := hinside k r hr
          rcases ih with hk | ⟨r', hnew, hk⟩
          · exact Or.inl (.splice hk hr hlt)
          · exact Or.inr ⟨r', hnew, .splice hk hr hlt⟩
        · exact Or.inr ⟨r, hnew, .self⟩
  obtain ⟨m, hm, hc⟩ := mem_children_iff_owned.mp hc
  rcases hlinks m _ hc with hc | hnew
  · rcases hsees m hm with hm | ⟨r, hnew, hm⟩
    · exact Or.inl (mem_children_iff_owned.mpr ⟨m, hm, hc⟩)
    · exact Or.inr (Or.inr ⟨r, hnew, mem_children_iff_owned.mpr ⟨m, hm, hc⟩⟩)
  · exact Or.inr (Or.inl hnew)

/-! ## What the operations change -/

theorem changesAt_withChild (g : Graph) (p : NodeId) (s : Segment) :
    ChangesAt g (g.withChild p s) p :=
  (g.changesAt_addNode (some s) p).trans (changesAt_setLinks _ p _)

theorem changesAt_setCatchAll (g : Graph) (p : NodeId) : ChangesAt g (g.setCatchAll p).1 p :=
  (g.changesAt_addNode (some .catchAll) p).trans (changesAt_setLinks _ p _)

theorem changesAt_addLink (g : Graph) (p : NodeId) (link : Link) :
    ChangesAt g (g.addLink p link) p :=
  g.changesAt_setLinks p _

theorem extends_addLink (g : Graph) (p : NodeId) (link : Link) : Extends g (g.addLink p link) := by
  refine (g.changesAt_addLink p link).extends ?_
  rcases links_setLinks_cases g p (g.links p ++ [link]) p with hsame | ⟨_, hset⟩
  · rw [addLink, hsame]
    exact List.Subset.refl _
  · rw [addLink, hset]
    exact List.subset_append_left _ _

theorem extends_withChild (g : Graph) (p : NodeId) (s : Segment) :
    Extends g (g.withChild p s) := by
  refine ((g.changesAt_addNode (some s) p).extends ?_).trans (extends_addLink _ p _)
  rw [links_addNode]
  exact List.Subset.refl _

/-- The child that is looked for has the label, and nothing is lost. -/
theorem extends_ensureChild (g : Graph) (p : NodeId) (s : Segment) :
    Extends g (g.ensureChild p s).1 ∧
      (g.ensureChild p s).1.label (g.ensureChild p s).2 = some s := by
  cases hchild : g.child? p s with
  | some c =>
      have hlabel := List.find?_some hchild
      rw [ensureChild_of_some hchild]
      exact ⟨.refl g, by simpa using hlabel⟩
  | none =>
      rw [ensureChild_of_none hchild]
      exact ⟨g.extends_withChild p s, label_withChild_size⟩

theorem extends_ensureBranch (path : Path) (g : Graph) (p : NodeId) :
    Extends g (g.ensureBranch p path).1 := by
  induction path generalizing g p with
  | nil => exact .refl g
  | cons s rest ih => exact (g.extends_ensureChild p s).1.trans (ih _ _)

/-- To make a node own nothing but the catch-all is to take its links away first. -/
theorem extends_setCatchAll (hp : p < g.size) :
    Extends (g.setLinks p []) (g.setCatchAll p).1 where
  size_le := by
    rw [size_setLinks, size_setCatchAll]
    exact Nat.le_succ _
  label := by
    intro k hk
    rw [size_setLinks] at hk
    rw [label_setLinks, label_setCatchAll_of_lt hk]
  links := by
    intro k
    by_cases hk : k = p
    · rw [hk, links_setLinks_self _ hp]
      exact List.nil_subset _
    · rw [links_setLinks_of_ne _ hk, links_setCatchAll_of_ne hk]
      exact List.Subset.refl _

/-- A graph has all that it has without the links of a node. -/
theorem extends_of_setLinks_nil (hp : p < g.size) : Extends (g.setLinks p []) g where
  size_le := Nat.le_of_eq (size_setLinks g p [])
  label := fun k _ => (label_setLinks p [] k).symm
  links := by
    intro k
    by_cases hk : k = p
    · rw [hk, links_setLinks_self _ hp]
      exact List.nil_subset _
    · rw [links_setLinks_of_ne _ hk]
      exact List.Subset.refl _

end FieldSelection.Graph
