import FieldSelection.Graph.OpenLeaf
import FieldSelection.Proofs.Graph.Children
import FieldSelection.Proofs.Search

/-!
# Open leaves are the nodes that wildcards lead to a leaf from

The search goes down wildcard children and opens no node twice. A node that was opened is no
leaf, and its wildcard children were opened or wait to be visited. So if nothing waits any
more, no way leads from an opened node to a leaf.

This is why what was opened may be shared by all branches of the search. A node that is passed over
was opened where the search failed, or where it is still going on, and in both cases all that it
leads to is looked at in its place.
-/

namespace FieldSelection.Graph

/-- A chain of wildcard children leads from a node to a leaf. -/
inductive LeadsToLeaf (g : Graph) : NodeId → Prop where
  /-- The node is a leaf. -/
  | leaf {n : NodeId} : g.isLeaf n = true → LeadsToLeaf g n
  /-- The chain goes on from a wildcard child. -/
  | step {n c : NodeId} : c ∈ g.wildcardChildren n → LeadsToLeaf g c → LeadsToLeaf g n

variable {g : Graph} {opened pending : List NodeId}

theorem mem_wildcardChildren {n c : NodeId} :
    c ∈ g.wildcardChildren n ↔ c ∈ g.children n ∧ g.label c = some .wildcard := by
  simp [wildcardChildren, isWildcard]

theorem isLeaf_iff {n : NodeId} : g.isLeaf n = true ↔ g.children n = [] := List.isEmpty_iff

/-- What is true of the search: there is budget for every node that is not opened yet, and
the opened nodes lead nowhere but to nodes that are opened or wait. -/
structure Visiting (g : Graph) (budget : Nat) (opened pending : List NodeId) : Prop where
  /-- A node can be opened for each that is not. -/
  enough : g.size ≤ budget + opened.length
  /-- No node was opened twice. -/
  nodup : opened.Nodup
  /-- No leaf was opened. -/
  noLeaf : ∀ n ∈ opened, g.isLeaf n = false
  /-- The wildcard children of an opened node are opened or wait. -/
  next : ∀ n ∈ opened, ∀ c ∈ g.wildcardChildren n, c ∈ opened ∨ c ∈ pending

theorem lt_size_of_isLeaf_eq_false {n : NodeId} (h : g.isLeaf n = false) : n < g.size := by
  rcases Nat.lt_or_ge n g.size with hlt | hge
  · exact hlt
  · rw [isLeaf_iff.mpr (children_eq_nil_of_size_le hge)] at h
    exact absurd h (by simp)

/-- From an opened node, the way to a leaf passes a node that waits and is not opened. -/
theorem Visiting.waits {budget : Nat} (hv : Visiting g budget opened pending) {n : NodeId}
    (hn : LeadsToLeaf g n) (hmem : n ∈ opened) :
    ∃ m ∈ pending, m ∉ opened ∧ LeadsToLeaf g m := by
  induction hn with
  | leaf hleaf =>
      rw [hv.noLeaf _ hmem] at hleaf
      exact absurd hleaf (by simp)
  | @step n c hc hlead ih =>
      by_cases hopened : c ∈ opened
      · exact ih hopened
      · exact ⟨c, (hv.next n hmem c hc).resolve_left hopened, hopened, hlead⟩

/-- Opening a node that is no leaf puts its wildcard children in its place. -/
theorem Visiting.open {budget : Nat} {passed rest : List NodeId} {n : NodeId}
    (hv : Visiting g (budget + 1) opened (passed ++ n :: rest)) (hpassed : ∀ m ∈ passed, m ∈ opened)
    (hnew : n ∉ opened) (hleaf : g.isLeaf n = false) :
    Visiting g budget (n :: opened) (g.wildcardChildren n ++ rest) where
  enough := by
    have henough := hv.enough
    rw [List.length_cons]
    omega
  nodup := List.nodup_cons.mpr ⟨hnew, hv.nodup⟩
  noLeaf := by
    intro m hm
    rcases List.mem_cons.mp hm with rfl | hm
    · exact hleaf
    · exact hv.noLeaf m hm
  next := by
    intro m hm c hc
    rcases List.mem_cons.mp hm with rfl | hm
    · exact Or.inr (List.mem_append_left _ hc)
    · rcases hv.next m hm c hc with hopened | hpending
      · exact Or.inl (List.mem_cons_of_mem _ hopened)
      · rcases List.mem_append.mp hpending with hpass | hrest
        · exact Or.inl (List.mem_cons_of_mem _ (hpassed c hpass))
        · rcases List.mem_cons.mp hrest with rfl | hrest
          · exact Or.inl List.mem_cons_self
          · exact Or.inr (List.mem_append_right _ hrest)

/-- There is budget left to open a node that is no leaf. -/
theorem Visiting.budget_pos {budget : Nat} (hv : Visiting g budget opened pending)
    {n : NodeId} (hnew : n ∉ opened) (hleaf : g.isLeaf n = false) : 0 < budget := by
  have hlt : ∀ m ∈ opened, m < g.size := by
    intro m hm
    exact lt_size_of_isLeaf_eq_false (hv.noLeaf m hm)
  exact budget_pos_of_not_mem hv.enough hv.nodup hlt hnew (lt_size_of_isLeaf_eq_false hleaf)

/-- A node that waits leads to a leaf as before when one that is no leaf is opened. -/
theorem Visiting.open_iff {budget : Nat} {passed rest : List NodeId} {n : NodeId}
    (hv : Visiting g (budget + 1) opened (passed ++ n :: rest)) (hpassed : ∀ m ∈ passed, m ∈ opened)
    (hnew : n ∉ opened) (hleaf : g.isLeaf n = false) :
    (∃ m ∈ g.wildcardChildren n ++ rest, LeadsToLeaf g m) ↔
      ∃ m ∈ passed ++ n :: rest, LeadsToLeaf g m := by
  have hv' := hv.open hpassed hnew hleaf
  constructor
  · rintro ⟨m, hm, hlead⟩
    rcases List.mem_append.mp hm with hchild | hrest
    · exact ⟨n, by simp, LeadsToLeaf.step hchild hlead⟩
    · exact ⟨m, by simp [hrest], hlead⟩
  · rintro ⟨m, hm, hlead⟩
    rcases List.mem_append.mp hm with hpass | hrest
    · obtain ⟨k, hk, _, hleadk⟩ := hv'.waits hlead (List.mem_cons_of_mem n (hpassed m hpass))
      exact ⟨k, hk, hleadk⟩
    · rcases List.mem_cons.mp hrest with rfl | hrest
      · obtain ⟨k, hk, _, hleadk⟩ := hv'.waits hlead List.mem_cons_self
        exact ⟨k, hk, hleadk⟩
      · exact ⟨m, List.mem_append_right _ hrest, hlead⟩

/-- **The search answers whether a leaf can be reached from a node that waits.** -/
theorem reachesLeaf?_answers : ∀ (budget : Nat) {opened pending : List NodeId},
    Visiting g budget opened pending →
    Answers (g.reachesLeaf? budget opened pending) (∃ n ∈ pending, LeadsToLeaf g n)
  | budget, opened, pending, hv => by
      obtain ⟨passed, hpending, hpassed⟩ := exists_passed opened pending
      rw [reachesLeaf?]
      split
      · -- all that waits was opened, so no way leads out of the opened nodes
        rename_i hnone
        rw [hnone, List.append_nil] at hpending
        refine Answers.of_false (fun ⟨n, hn, hlead⟩ => ?_)
        have hopened : ∀ m ∈ pending, m ∈ opened := by
          rw [hpending]
          exact hpassed
        obtain ⟨m, hm, hnew, _⟩ := hv.waits hlead (hopened n hn)
        exact hnew (hopened m hm)
      · rename_i n rest hrest
        have hnew := not_mem_opened hrest
        rw [hrest] at hpending
        split
        · rename_i hleaf
          exact Answers.of_true ⟨n, by simp [hpending], LeadsToLeaf.leaf hleaf⟩
        · rename_i hleaf
          have hleaf : g.isLeaf n = false := by simpa using hleaf
          cases budget with
          | zero => exact absurd (hv.budget_pos hnew hleaf) (Nat.lt_irrefl 0)
          | succ budget =>
              rw [hpending] at hv ⊢
              exact (reachesLeaf?_answers budget (hv.open hpassed hnew hleaf)).congr
                (hv.open_iff hpassed hnew hleaf)

/-- The search starts with nothing opened. -/
theorem visiting_nil (g : Graph) (pending : List NodeId) : Visiting g g.size [] pending :=
  ⟨by simp, List.nodup_nil, by simp, by simp⟩

/-- **A node is an open leaf exactly if a chain of wildcard children leads to a leaf.** -/
theorem isOpenLeaf_iff_leadsToLeaf {n : NodeId} : g.isOpenLeaf n = true ↔ LeadsToLeaf g n := by
  rw [isOpenLeaf, (reachesLeaf?_answers g.size (g.visiting_nil [n])).getD_eq_true]
  simp

/-! ## Chains -/

/-- Whether a node is a wildcard child of another one. -/
def IsWildcardChild (g : Graph) (n c : NodeId) : Prop :=
  c ∈ g.children n ∧ g.label c = some .wildcard

theorem leadsToLeaf_of_isChain {n : NodeId} {chain : List NodeId}
    (h : (n :: chain).IsChain g.IsWildcardChild)
    (hend : g.children ((n :: chain).getLast (List.cons_ne_nil n chain)) = []) :
    LeadsToLeaf g n := by
  induction chain generalizing n with
  | nil => exact .leaf (isLeaf_iff.mpr hend)
  | cons c chain ih =>
      obtain ⟨hc, hchain⟩ := List.isChain_cons_cons.mp h
      rw [List.getLast_cons (List.cons_ne_nil c chain)] at hend
      exact .step (mem_wildcardChildren.mpr hc) (ih hchain hend)

theorem LeadsToLeaf.exists_isChain {n : NodeId} (h : LeadsToLeaf g n) :
    ∃ chain : List NodeId, (n :: chain).IsChain g.IsWildcardChild ∧
      g.children ((n :: chain).getLast (List.cons_ne_nil n chain)) = [] := by
  induction h with
  | leaf hleaf => exact ⟨[], .singleton _, isLeaf_iff.mp hleaf⟩
  | @step n c hc _ ih =>
      obtain ⟨chain, hchain, hend⟩ := ih
      refine ⟨c :: chain, .cons_cons (mem_wildcardChildren.mp hc) hchain, ?_⟩
      rwa [List.getLast_cons (List.cons_ne_nil c chain)]

/-- **Open leaves are the nodes at which a chain to a leaf starts**: a finite list of nodes, each of
them a wildcard child of the one before, with a node without children at its end. -/
theorem isOpenLeaf_iff_exists_chain (g : Graph) (n : NodeId) :
    g.isOpenLeaf n = true ↔ ∃ chain : List NodeId,
      (n :: chain).IsChain g.IsWildcardChild ∧
      g.children ((n :: chain).getLast (List.cons_ne_nil n chain)) = [] := by
  rw [isOpenLeaf_iff_leadsToLeaf]
  constructor
  · intro h
    exact h.exists_isChain
  · rintro ⟨chain, hchain, hend⟩
    exact leadsToLeaf_of_isChain hchain hend

/-- A wildcard that leads back to its parent does not hide another one that is a leaf. -/
example :
    let g : Graph := ⟨#[⟨none, [.owned 1, .owned 2]⟩, ⟨some .wildcard, [.spliced 0]⟩,
      ⟨some .wildcard, []⟩]⟩
    g.isOpenLeaf 0 = true ∧ g.isOpenLeaf 1 = true := by
  decide +kernel

end FieldSelection.Graph
