import FieldSelection.Proofs.Graph.Growth
import Mathlib.Data.List.Nodup

/-!
# Every child has one owner

Nodes are made as children of one node, and only splices lead to them from elsewhere. So a
child has one owner, and it can be told from the other children of that by its label. A graph
keeps this while it grows as compiling makes it grow.
-/

namespace FieldSelection

/-- The links of an owner say which children it owns. -/
theorem Link.owning_inj {cs ds : List NodeId} (h : Link.owning cs = Link.owning ds) : cs = ds :=
  List.map_injective_iff.mpr (fun _ _ => Link.owned.inj) h

theorem Link.owned_mem_owning {cs : List NodeId} {k : NodeId} :
    Link.owned k ∈ Link.owning cs ↔ k ∈ cs := by
  simp [Link.owning]

namespace Graph

/-- Whether every child has one owner and a label of its own there. -/
structure WellOwned (g : Graph) : Prop where
  /-- A child has a label. -/
  label : ∀ {n k}, Link.owned k ∈ g.links n → g.label k ≠ none
  /-- It has one owner. -/
  owner : ∀ {n n' k}, Link.owned k ∈ g.links n → Link.owned k ∈ g.links n' → n = n'
  /-- Children of one owner have different labels. -/
  siblings : ∀ {n cs}, g.links n = Link.owning cs → (cs.map g.label).Nodup

namespace WellOwned

variable {g : Graph} {n : NodeId}

theorem lt_size (h : g.WellOwned) {k : NodeId} (hk : Link.owned k ∈ g.links n) : k < g.size := by
  obtain ⟨s, hs⟩ := Option.ne_none_iff_exists'.mp (h.label hk)
  exact lt_size_of_label hs

theorem empty : Graph.WellOwned .empty where
  label := fun h => absurd h List.not_mem_nil
  owner := fun h => absurd h List.not_mem_nil
  siblings := by
    intro n cs h
    have hnil : Link.owning [] = Link.owning cs := h
    rw [← Link.owning_inj hnil]
    exact List.nodup_nil

/-- A new node is nobody's child. -/
theorem addNode (h : g.WellOwned) (label : Option Segment) : (g.addNode label).1.WellOwned where
  label := by
    intro n k hk
    rw [links_addNode] at hk
    rw [label_addNode_of_lt label (h.lt_size hk)]
    exact h.label hk
  owner := by
    intro n n' k hk hk'
    rw [links_addNode] at hk hk'
    exact h.owner hk hk'
  siblings := by
    intro n cs hlinks
    rw [links_addNode] at hlinks
    have hsame : cs.map (g.addNode label).1.label = cs.map g.label := by
      refine List.map_congr_left fun k hk => label_addNode_of_lt label (h.lt_size (n := n) ?_)
      rw [hlinks]
      exact Link.owned_mem_owning.mpr hk
    rw [hsame]
    exact h.siblings hlinks

/-- A splice is not a child. -/
theorem addSplice (h : g.WellOwned) (hn : n < g.size) (r : NodeId) :
    (g.addLink n (.spliced r)).WellOwned := by
  have howned : ∀ {m k}, Link.owned k ∈ (g.addLink n (.spliced r)).links m →
      Link.owned k ∈ g.links m := by
    intro m k hk
    by_cases hm : m = n
    · subst hm
      rw [links_addLink_self _ hn] at hk
      simpa using hk
    · rwa [links_addLink_of_ne _ hm] at hk
  refine ⟨fun hk => ?_, fun hk hk' => h.owner (howned hk) (howned hk'), fun {m cs} hlinks => ?_⟩
  · rw [label_addLink]
    exact h.label (howned hk)
  · have hsame : cs.map (g.addLink n (.spliced r)).label = cs.map g.label :=
      List.map_congr_left fun k _ => label_addLink n _ k
    rw [hsame]
    by_cases hm : m = n
    · -- with a splice among its links, a node does not own all its children
      subst hm
      rw [links_addLink_self _ hn] at hlinks
      have hmem : Link.spliced r ∈ Link.owning cs := by simp [← hlinks]
      simp [Link.owning] at hmem
    · rw [links_addLink_of_ne _ hm] at hlinks
      exact h.siblings hlinks

/-- A node gets other links: beside children that it has, they own only a node that is new. -/
theorem addChild (h : g.WellOwned) {s : Segment} {links : List Link} (hn : n < g.size)
    (hlinks : ∀ k, Link.owned k ∈ links → k = g.size ∨ Link.owned k ∈ g.links n)
    (hsiblings : ∀ cs, links = Link.owning cs →
      (cs.map (g.addNode (some s)).1.label).Nodup) :
    ((g.addNode (some s)).1.setLinks n links).WellOwned := by
  have hn' : n < (g.addNode (some s)).1.size := by
    rw [size_addNode]
    exact Nat.lt_succ_of_lt hn
  have howned : ∀ {m k}, Link.owned k ∈ ((g.addNode (some s)).1.setLinks n links).links m →
      (m = n ∧ k = g.size) ∨ Link.owned k ∈ g.links m := by
    intro m k hk
    by_cases hm : m = n
    · subst hm
      rw [links_setLinks_self _ hn'] at hk
      exact (hlinks k hk).imp_left fun hnew => ⟨rfl, hnew⟩
    · rw [links_setLinks_of_ne _ hm, links_addNode] at hk
      exact Or.inr hk
  refine ⟨fun {m k} hk => ?_, fun {m m' k} hk hk' => ?_, fun {m cs} heq => ?_⟩
  · rw [label_setLinks]
    rcases howned hk with ⟨rfl, rfl⟩ | hold
    · rw [label_addNode_size]
      exact Option.some_ne_none s
    · rw [label_addNode_of_lt _ (h.lt_size hold)]
      exact h.label hold
  · -- the new node was nobody's child
    rcases howned hk with ⟨hm, hk⟩ | hold
    · rcases howned hk' with ⟨hm', _⟩ | hold'
      · rw [hm, hm']
      · rw [hk] at hold'
        exact absurd (h.lt_size hold') (Nat.lt_irrefl _)
    · rcases howned hk' with ⟨_, hk'⟩ | hold'
      · rw [hk'] at hold
        exact absurd (h.lt_size hold) (Nat.lt_irrefl _)
      · exact h.owner hold hold'
  · have hsame : cs.map ((g.addNode (some s)).1.setLinks n links).label =
        cs.map (g.addNode (some s)).1.label :=
      List.map_congr_left fun k _ => label_setLinks n links k
    rw [hsame]
    by_cases hm : m = n
    · subst hm
      rw [links_setLinks_self _ hn'] at heq
      exact hsiblings cs heq
    · rw [links_setLinks_of_ne _ hm] at heq
      exact (h.addNode (some s)).siblings heq

/-- A child whose label the others do not have. -/
theorem withChild (h : g.WellOwned) {s : Segment} {cs : List NodeId} (hn : n < g.size)
    (hlinks : g.links n = Link.owning cs) (hno : ∀ k ∈ cs, g.label k ≠ some s) :
    (g.withChild n s).WellOwned := by
  have howned : ∀ {k}, Link.owned k ∈ g.links n ↔ k ∈ cs := by
    intro k
    rw [hlinks]
    exact Link.owned_mem_owning
  have hlinks' : (g.addNode (some s)).1.links n ++ [.owned g.size] =
      Link.owning (cs ++ [g.size]) := by
    rw [links_addNode, hlinks, Link.owning_append]
    rfl
  refine h.addChild hn (fun k hk => ?_) fun ds hds => ?_
  · rw [hlinks', Link.owned_mem_owning, List.mem_append, List.mem_singleton] at hk
    exact hk.symm.imp_right howned.mpr
  · rw [hlinks'] at hds
    have hold : cs.map (g.addNode (some s)).1.label = cs.map g.label :=
      List.map_congr_left fun k hk => label_addNode_of_lt _ (h.lt_size (howned.mpr hk))
    rw [← Link.owning_inj hds, List.map_append, List.map_singleton, label_addNode_size, hold]
    refine List.Nodup.append (h.siblings hlinks) (List.nodup_singleton _) ?_
    rw [List.disjoint_singleton]
    intro hmem
    obtain ⟨k, hk, hlabel⟩ := List.mem_map.mp hmem
    exact hno k hk hlabel

/-- The catch-all as the only child. -/
theorem setCatchAll (h : g.WellOwned) (hn : n < g.size) : (g.setCatchAll n).1.WellOwned := by
  refine h.addChild hn (fun k hk => ?_) fun cs hcs => ?_
  · exact Or.inl (Link.owned.inj (List.mem_singleton.mp hk))
  · have heq : [g.size] = cs := Link.owning_inj hcs
    rw [← heq]
    exact List.nodup_singleton _

end WellOwned

end Graph

end FieldSelection
