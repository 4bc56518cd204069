import FieldSelection.Proofs.Tree.Simulation
import FieldSelection.Tree.Equality
import FieldSelection.Tree.Outline
import Mathlib.Data.List.Forall2
import Mathlib.Data.List.Nodup

/-!
# Graphs that differ in their numbers only

Two graphs can be paired if each node of one, as far as it counts, has a partner in the other:
with the same label, and with children that are partners in the same order. The trees of two
partners are the same then, and so are their outlines. For the first, it is enough that the
comparison goes from partners to partners. For the second, no node may have two partners: where
the outline of one graph comes back to a node, that of the other has to come back to one, too.
-/

namespace FieldSelection

namespace Graph

variable {g h : Graph} {R : NodeId → NodeId → Prop}

/-! ## Comparing partners -/

/-- Whether the comparison of two nodes that are related goes on with nodes that are. -/
structure IsMatching (g h : Graph) (R : NodeId → NodeId → Prop) : Prop where
  /-- Both nodes are there. -/
  lt : ∀ {a b}, R a b → a < g.size ∧ b < h.size
  /-- They have the same label. -/
  label : ∀ {a b}, R a b → g.label a = h.label b
  /-- Their children can be paired. -/
  children : ∀ {a b}, R a b → ∃ pairs, pairChildren? g h a b = some pairs ∧
    ∀ pair ∈ pairs, R pair.1 pair.2

/-- **Nodes that are matched are the same.** -/
theorem IsMatching.sameBelow? (hR : IsMatching g h R) (budget : Nat) :
    ∀ {opened pending : List (NodeId × NodeId)}, Comparing g h (budget + 1) opened →
      (∀ pair ∈ pending, R pair.1 pair.2) →
      Graph.sameBelow? g h budget opened pending = some true := by
  induction budget with
  | zero =>
      intro opened pending hcmp hpending
      rw [Graph.sameBelow?]
      split
      · rfl
      · rename_i a b rest hrest
        have hsub : (a, b) :: rest ⊆ pending := hrest ▸ (List.dropWhile_sublist _).subset
        obtain ⟨ha, hb⟩ := hR.lt (hpending (a, b) (hsub List.mem_cons_self))
        -- no pair is left to be opened
        have hfull := hcmp.push (not_mem_opened hrest) ha hb
        exact absurd hfull.depth_pos (Nat.lt_irrefl 0)
  | succ budget ih =>
      intro opened pending hcmp hpending
      rw [Graph.sameBelow?]
      split
      · rfl
      · rename_i a b rest hrest
        have hsub : (a, b) :: rest ⊆ pending := hrest ▸ (List.dropWhile_sublist _).subset
        have hab : R a b := hpending (a, b) (hsub List.mem_cons_self)
        obtain ⟨ha, hb⟩ := hR.lt hab
        obtain ⟨pairs, hpairs, hchildren⟩ := hR.children hab
        rw [if_pos (by simpa using hR.label hab)]
        simp only [hpairs]
        refine ih (hcmp.push (not_mem_opened hrest) ha hb) fun pair hpair => ?_
        rcases List.mem_append.mp hpair with hpair | hpair
        · exact hchildren pair hpair
        · exact hpending pair (hsub (List.mem_cons_of_mem _ hpair))

/-! ## Partners -/

/-- Whether two graphs are the same up to the numbers of their nodes, as far as these are
related. -/
structure IsPairing (g h : Graph) (R : NodeId → NodeId → Prop) : Prop where
  /-- Both nodes are there. -/
  lt : ∀ {a b}, R a b → a < g.size ∧ b < h.size
  /-- They have the same label. -/
  label : ∀ {a b}, R a b → g.label a = h.label b
  /-- Their children are related in order. -/
  children : ∀ {a b}, R a b → List.Forall₂ R (g.children a) (h.children b)
  /-- The children can be told from each other by their labels. -/
  siblings : ∀ {a b}, R a b → ((h.children b).map h.label).Nodup
  /-- No node has two partners. -/
  unique : Relator.BiUnique R

/-- Among nodes with different labels, each is the one that is found by its label. -/
theorem find?_label_eq {nodes : List NodeId} (hnodup : (nodes.map h.label).Nodup) {b : NodeId}
    (hb : b ∈ nodes) {label : Option Segment} (hlabel : label = h.label b) :
    nodes.find? (fun n => h.label n == label) = some b := by
  induction nodes with
  | nil => exact absurd hb List.not_mem_nil
  | cons n nodes ih =>
      rw [List.map_cons, List.nodup_cons] at hnodup
      rw [List.find?_cons]
      rcases List.mem_cons.mp hb with rfl | hb
      · simp [hlabel]
      · have hne : h.label n ≠ h.label b := by
          intro heq
          exact hnodup.1 (heq ▸ List.mem_map_of_mem hb)
        have hskip : (h.label n == label) = false := by
          rw [hlabel]
          simpa using hne
        rw [hskip]
        exact ih hnodup.2 hb

/-- Partners are paired with each other by the comparison. -/
theorem IsPairing.mapM_find? (hR : IsPairing g h R) {nodes xs ys : List NodeId}
    (hnodup : (nodes.map h.label).Nodup) (hpartners : List.Forall₂ R xs ys) (hys : ys ⊆ nodes) :
    (xs.mapM fun a =>
      (nodes.find? fun b => h.label b == g.label a).map fun b => (a, b)) = some (xs.zip ys) := by
  induction hpartners with
  | nil => rfl
  | @cons a b xs ys hab _ ih =>
      have hfind := find?_label_eq hnodup (hys List.mem_cons_self) (hR.label hab)
      have hrest := ih fun y hy => hys (List.mem_cons_of_mem b hy)
      rw [List.mapM_cons, hfind, hrest]
      rfl

theorem IsPairing.isMatching (hR : IsPairing g h R) : IsMatching g h R where
  lt := hR.lt
  label := hR.label
  children := by
    intro a b hab
    have hpartners := hR.children hab
    refine ⟨(g.children a).zip (h.children b), ?_, ?_⟩
    · rw [pairChildren?, if_pos (by simpa using hpartners.length_eq)]
      exact hR.mapM_find? (hR.siblings hab) hpartners (List.Subset.refl _)
    · rintro ⟨x, y⟩ hpair
      exact (List.forall₂_iff_zip.mp hpartners).2 hpair

/-! ## Outlines of partners -/

/-- What is the same for partners, one by one, is so for lists of them. -/
theorem mapM_eq_of_forall₂ {α β γ : Type} {R : α → β → Prop} {f : α → Option γ}
    {f' : β → Option γ} {xs : List α} {ys : List β} (h : List.Forall₂ R xs ys)
    (hf : ∀ x y, R x y → ∃ z, f x = some z ∧ f' y = some z) :
    ∃ zs, xs.mapM f = some zs ∧ ys.mapM f' = some zs := by
  induction h with
  | nil => exact ⟨[], rfl, rfl⟩
  | cons hxy _ ih =>
      obtain ⟨z, hz, hz'⟩ := hf _ _ hxy
      obtain ⟨zs, hzs, hzs'⟩ := ih
      refine ⟨z :: zs, ?_, ?_⟩
      · rw [List.mapM_cons, hz, hzs]
        rfl
      · rw [List.mapM_cons, hz', hzs']
        rfl

/-- What is true of the nodes above one that is to be outlined: they are nodes, none is there
twice, and a level is left for each other node. -/
structure Descending (g : Graph) (depth : Nat) (branch : List NodeId) : Prop where
  /-- There is a level for each node that is not above, and one more. -/
  enough : g.size + 2 ≤ depth + branch.length
  /-- No node is there twice. -/
  nodup : branch.Nodup
  /-- All are there. -/
  inside : ∀ n ∈ branch, n < g.size

theorem Descending.depth_pos {depth : Nat} {branch : List NodeId} (hd : Descending g depth branch) :
    0 < depth := by
  have hle := length_le_of_nodup hd.nodup hd.inside
  have henough := hd.enough
  omega

theorem Descending.push {depth n : Nat} {branch : List NodeId}
    (hd : Descending g (depth + 1) branch) (hnew : n ∉ branch) (hn : n < g.size) :
    Descending g depth (n :: branch) where
  enough := by
    have henough := hd.enough
    rw [List.length_cons]
    omega
  nodup := List.nodup_cons.mpr ⟨hnew, hd.nodup⟩
  inside := by
    intro m hm
    rcases List.mem_cons.mp hm with rfl | hm
    · exact hn
    · exact hd.inside m hm

/-- **Partners have the same outline.** -/
theorem IsPairing.outline? (hR : IsPairing g h R) :
    ∀ {depth depth' : Nat} {branch branch' : List NodeId} {a b : NodeId} (indent : Nat),
      Descending g depth branch → Descending h depth' branch' →
      List.Forall₂ R branch branch' → R a b →
      ∃ lines, g.outline? depth branch indent a = some lines ∧
        h.outline? depth' branch' indent b = some lines := by
  intro depth
  induction depth with
  | zero => exact fun _ hd => absurd hd.depth_pos (Nat.lt_irrefl 0)
  | succ depth ih =>
      intro depth' branch branch' a b indent hd hd' hbranch hab
      obtain ⟨depth', rfl⟩ := Nat.exists_eq_add_one_of_ne_zero (Nat.ne_of_gt hd'.depth_pos)
      -- both nodes lie below themselves, or none of them does
      have hcycle : a ∈ branch ↔ b ∈ branch' := List.rel_mem hR.unique hab hbranch
      rw [Graph.outline?, Graph.outline?, hR.label hab]
      by_cases hmem : a ∈ branch
      · rw [if_pos hmem, if_pos (hcycle.mp hmem)]
        exact ⟨_, rfl, rfl⟩
      · have hmem' : b ∉ branch' := mt hcycle.mpr hmem
        rw [if_neg hmem, if_neg hmem']
        obtain ⟨below, hbelow, hbelow'⟩ := mapM_eq_of_forall₂ (hR.children hab) fun x y hxy =>
          ih (indent + 1) (hd.push hmem (hR.lt hab).1) (hd'.push hmem' (hR.lt hab).2)
            (.cons hab hbranch) hxy
        rw [hbelow, hbelow']
        exact ⟨_, rfl, rfl⟩

end Graph

namespace Tree

variable {t u : Tree} {R : NodeId → NodeId → Prop}

/-- The trees of partners are the same. -/
theorem same_of_isPairing (hR : Graph.IsPairing t.graph u.graph R) (hroot : R t.root u.root) :
    t.same u = true := by
  have hroots : ∀ pair ∈ [(t.root, u.root)], R pair.1 pair.2 := by simpa using hroot
  have hsame := hR.isMatching.sameBelow? (t.size * u.size) (comparing_nil t u) hroots
  rw [same, hsame]
  rfl

/-- The outlines of partners are the same. -/
theorem outline_eq_of_isPairing (hR : Graph.IsPairing t.graph u.graph R)
    (hroot : R t.root u.root) : t.outline = u.outline := by
  have hdescending : ∀ v : Tree, v.root < v.graph.size →
      Graph.Descending v.graph (v.size + 1) [v.root] := by
    intro v hv
    exact ⟨Nat.le_refl _, List.nodup_singleton _, by simpa using hv⟩
  obtain ⟨lines, hlines, hlines'⟩ :=
    Graph.mapM_eq_of_forall₂ (hR.children hroot) fun a b hab =>
      hR.outline? 0 (hdescending t (hR.lt hroot).1) (hdescending u (hR.lt hroot).2)
        (.cons hroot .nil) hab
  rw [outline, outline, outlineLines, outlineLines, hlines, hlines']

end Tree

end FieldSelection
