import FieldSelection.Graph

/-!
# Children of a node

`children` reads the links of a node and follows splices. Most nodes are simpler than that:
they own all their children, or splice in the children of one root and have none of their
own. A number that belongs to no node has neither label nor children.
-/

namespace FieldSelection

/-- Links that own these children, in order. -/
def Link.owning (cs : List NodeId) : List Link := cs.map .owned

@[simp] theorem Link.owning_cons (c : NodeId) (cs : List NodeId) :
    Link.owning (c :: cs) = .owned c :: Link.owning cs := rfl

@[simp] theorem Link.owning_append (cs ds : List NodeId) :
    Link.owning (cs ++ ds) = Link.owning cs ++ Link.owning ds := List.map_append

namespace Graph

variable {g : Graph} {n r : NodeId} {cs : List NodeId}

/-! ## Numbers without a node -/

theorem label_eq_none_of_size_le (h : g.size ≤ n) : g.label n = none := by
  unfold label
  rw [Array.getElem?_eq_none h]
  rfl

theorem links_eq_nil_of_size_le (h : g.size ≤ n) : g.links n = [] := by
  unfold links
  rw [Array.getElem?_eq_none h]

/-- Only nodes have links. -/
theorem lt_size_of_mem_links {link : Link} (h : link ∈ g.links n) : n < g.size := by
  rcases Nat.lt_or_ge n g.size with hlt | hge
  · exact hlt
  · rw [links_eq_nil_of_size_le hge] at h
    exact absurd h List.not_mem_nil

theorem lt_size_of_label {s : Segment} (h : g.label n = some s) : n < g.size := by
  rcases Nat.lt_or_ge n g.size with hlt | hge
  · exact hlt
  · rw [label_eq_none_of_size_le hge] at h
    exact absurd h (by simp)

/-! ## Nodes that own their children -/

theorem nextSplice_owning (followed : List NodeId) :
    ∀ cs : List NodeId, g.nextSplice followed (Link.owning cs) = (cs, none)
  | [] => rfl
  | c :: cs => by rw [Link.owning_cons, nextSplice, nextSplice_owning followed cs]

theorem resolve?_owning (budget : Nat) (followed : List NodeId) :
    g.resolve? budget followed (Link.owning cs) = some cs := by
  rw [resolve?, nextSplice_owning]

/-- A node that owns all its children has these and no others. -/
theorem children_of_owning (h : g.links n = Link.owning cs) : g.children n = cs := by
  rw [children, h, resolve?_owning]
  rfl

theorem children_eq_nil_of_size_le (h : g.size ≤ n) : g.children n = [] :=
  children_of_owning (links_eq_nil_of_size_le h)

/-- Only nodes have children. -/
theorem lt_size_of_mem_children {c : NodeId} (h : c ∈ g.children n) : n < g.size := by
  rcases Nat.lt_or_ge n g.size with hlt | hge
  · exact hlt
  · rw [children_eq_nil_of_size_le hge] at h
    exact absurd h List.not_mem_nil

/-! ## Nodes that splice in the children of one root -/

/-- A node whose only link splices in another one has the children of that one. -/
theorem children_of_spliced (h : g.links n = [.spliced r]) (hne : r ≠ n) (hlt : r < g.size)
    (hr : g.links r = Link.owning cs) : g.children n = cs := by
  have hsplice : g.nextSplice [n] [.spliced r] = ([], some (r, [])) := by
    rw [nextSplice, if_neg]
    simpa [hne] using hlt
  obtain ⟨budget, hbudget⟩ := Nat.exists_eq_add_one_of_ne_zero (Nat.ne_zero_of_lt hlt)
  rw [children, h, resolve?, hsplice, hbudget]
  dsimp only
  rw [List.append_nil, hr, resolve?_owning]
  rfl

end Graph

end FieldSelection
