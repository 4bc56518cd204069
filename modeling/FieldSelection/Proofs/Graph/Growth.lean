import FieldSelection.Graph.Growth
import FieldSelection.Proofs.Graph.Children

/-!
# What growth changes

Adding a node changes neither labels nor links of the others, and new links of one node are
all that `setLinks` changes. So each operation has a label lemma and a links lemma, and what
is said of older nodes by their labels and links stays true.
-/

namespace FieldSelection.Graph

variable {g : Graph} {n m : NodeId}

/-! ## Adding a node -/

@[simp] theorem label_addNode_size (label : Option Segment) :
    (g.addNode label).1.label g.size = label := by
  simp [addNode, Graph.label, size]

theorem label_addNode_of_ne (label : Option Segment) (h : n ≠ g.size) :
    (g.addNode label).1.label n = g.label n := by
  have hne : n ≠ g.nodes.size := h
  simp [addNode, Graph.label, Array.getElem?_push, hne]

theorem label_addNode_of_lt (label : Option Segment) (h : n < g.size) :
    (g.addNode label).1.label n = g.label n :=
  label_addNode_of_ne label (Nat.ne_of_lt h)

@[simp] theorem links_addNode (label : Option Segment) (n : NodeId) :
    (g.addNode label).1.links n = g.links n := by
  by_cases h : n = g.nodes.size
  · subst h
    simp [addNode, links]
  · simp [addNode, links, Array.getElem?_push, h]

/-- A node is its label and its links. -/
theorem getElem?_nodes (h : n < g.size) : g.nodes[n]? = some ⟨g.label n, g.links n⟩ := by
  have hn : g.nodes[n]? = some g.nodes[n] := Array.getElem?_eq_getElem h
  rw [Graph.label, Graph.links, hn]
  rfl

/-! ## Changing links -/

theorem getElem?_setLinks (n : NodeId) (links : List Link) (m : NodeId) :
    (g.setLinks n links).nodes[m]? =
      if n = m then g.nodes[m]?.map fun node => { node with links } else g.nodes[m]? := by
  rw [setLinks, Array.getElem?_modify]

@[simp] theorem label_setLinks (n : NodeId) (links : List Link) (m : NodeId) :
    (g.setLinks n links).label m = g.label m := by
  rw [label, label, getElem?_setLinks]
  split <;> cases g.nodes[m]? <;> rfl

theorem links_setLinks_self (links : List Link) (h : n < g.size) :
    (g.setLinks n links).links n = links := by
  have hn : g.nodes[n]? = some g.nodes[n] := Array.getElem?_eq_getElem h
  rw [Graph.links, getElem?_setLinks, if_pos rfl, hn]
  rfl

theorem links_setLinks_of_ne (links : List Link) (h : m ≠ n) :
    (g.setLinks n links).links m = g.links m := by
  rw [Graph.links, getElem?_setLinks, if_neg (Ne.symm h)]
  rfl

theorem links_setLinks_cases (g : Graph) (n : NodeId) (links : List Link) (m : NodeId) :
    (g.setLinks n links).links m = g.links m ∨ (m = n ∧ (g.setLinks n links).links m = links) := by
  by_cases hm : m = n
  · subst hm
    rcases Nat.lt_or_ge m g.size with hlt | hge
    · exact Or.inr ⟨rfl, links_setLinks_self links hlt⟩
    · refine Or.inl ?_
      have hge' : (g.setLinks m links).size ≤ m := by rwa [size_setLinks]
      rw [links_eq_nil_of_size_le hge, links_eq_nil_of_size_le hge']
  · exact Or.inl (links_setLinks_of_ne links hm)

@[simp] theorem label_addLink (n : NodeId) (link : Link) (m : NodeId) :
    (g.addLink n link).label m = g.label m := label_setLinks n _ m

theorem links_addLink_self (link : Link) (h : n < g.size) :
    (g.addLink n link).links n = g.links n ++ [link] := links_setLinks_self _ h

theorem links_addLink_of_ne (link : Link) (h : m ≠ n) :
    (g.addLink n link).links m = g.links m := links_setLinks_of_ne _ h

theorem mem_links_addLink {link new : Link} (h : link ∈ (g.addLink n new).links m) :
    link ∈ g.links m ∨ link = new := by
  rcases links_setLinks_cases g n (g.links n ++ [new]) m with hsame | ⟨rfl, hset⟩
  · rw [addLink, hsame] at h
    exact Or.inl h
  · rw [addLink, hset, List.mem_append, List.mem_singleton] at h
    exact h

/-! ## Setting the catch-all -/

@[simp] theorem size_setCatchAll : (g.setCatchAll n).1.size = g.size + 1 := by
  rw [setCatchAll, size_setLinks, size_addNode]

@[simp] theorem label_setCatchAll_size :
    (g.setCatchAll n).1.label g.size = some .catchAll := by
  rw [setCatchAll, label_setLinks, label_addNode_size]

theorem label_setCatchAll_of_lt (h : m < g.size) : (g.setCatchAll n).1.label m = g.label m := by
  rw [setCatchAll, label_setLinks, label_addNode_of_lt _ h]

theorem links_setCatchAll_self (h : n < g.size) :
    (g.setCatchAll n).1.links n = [.owned g.size] := by
  have hn : n < (g.addNode (some .catchAll)).1.size := by
    rw [size_addNode]
    exact Nat.lt_succ_of_lt h
  exact links_setLinks_self _ hn

theorem links_setCatchAll_of_ne (h : m ≠ n) : (g.setCatchAll n).1.links m = g.links m := by
  rw [setCatchAll, links_setLinks_of_ne _ h, links_addNode]

/-! ## Adding a child -/

/-- The graph in which a node has one more child of its own. -/
def withChild (g : Graph) (parent : NodeId) (s : Segment) : Graph :=
  (g.addNode (some s)).1.addLink parent (.owned g.size)

variable {parent : NodeId} {s : Segment}

theorem ensureChild_of_some {c : NodeId} (h : g.child? parent s = some c) :
    g.ensureChild parent s = (g, c) := by
  rw [ensureChild, h]

theorem ensureChild_of_none (h : g.child? parent s = none) :
    g.ensureChild parent s = (g.withChild parent s, g.size) := by
  rw [ensureChild, h]
  rfl

@[simp] theorem size_withChild : (g.withChild parent s).size = g.size + 1 := by
  rw [withChild, size_addLink, size_addNode]

@[simp] theorem label_withChild_size : (g.withChild parent s).label g.size = some s := by
  rw [withChild, label_addLink, label_addNode_size]

theorem label_withChild_of_lt (h : n < g.size) :
    (g.withChild parent s).label n = g.label n := by
  rw [withChild, label_addLink, label_addNode_of_lt _ h]

theorem links_withChild_self (h : parent < g.size) :
    (g.withChild parent s).links parent = g.links parent ++ [.owned g.size] := by
  have hlt : parent < (g.addNode (some s)).1.size := by
    rw [size_addNode]
    exact Nat.lt_succ_of_lt h
  rw [withChild, links_addLink_self _ hlt, links_addNode]

theorem links_withChild_of_ne (h : n ≠ parent) :
    (g.withChild parent s).links n = g.links n := by
  rw [withChild, links_addLink_of_ne _ h, links_addNode]

theorem mem_links_withChild {link : Link} (h : link ∈ (g.withChild parent s).links n) :
    link ∈ g.links n ∨ link = .owned g.size := by
  have h := mem_links_addLink h
  rwa [links_addNode] at h

/-- Among children of its own, a node has none with a label that none of them has. -/
theorem child?_eq_none_of_owning {cs : List NodeId} (h : g.links parent = Link.owning cs)
    (hno : ∀ n ∈ cs, g.label n ≠ some s) : g.child? parent s = none := by
  rw [child?, children_of_owning h, List.find?_eq_none]
  intro n hn
  simpa using hno n hn

/-- A child with a new label is the one that is found by it. -/
theorem child?_withChild {cs : List NodeId} (h : g.links parent = Link.owning cs)
    (hp : parent < g.size) (hno : ∀ n ∈ cs, n < g.size ∧ g.label n ≠ some s) :
    (g.withChild parent s).child? parent s = some g.size := by
  have hlinks : (g.withChild parent s).links parent = Link.owning (cs ++ [g.size]) := by
    rw [links_withChild_self hp, h, Link.owning_append]
    rfl
  have hskip : cs.find? (fun n => (g.withChild parent s).label n == some s) = none := by
    rw [List.find?_eq_none]
    intro n hn
    rw [label_withChild_of_lt (hno n hn).1]
    simpa using (hno n hn).2
  rw [child?, children_of_owning hlinks, List.find?_append, hskip]
  simp

end FieldSelection.Graph
