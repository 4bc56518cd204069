import FieldSelection.Proofs.Graph.Children
import FieldSelection.Proofs.Search
import FieldSelection.Tree.Containment

/-!
# Containment is the largest simulation

A simulation relates nodes of one graph to nodes of another so that each child of the second
has a counterpart among the children of the first. Graphs may go round in circles, so being
related cannot be said by recursion: one tree contains another if *some* simulation relates
their roots, and the union of all simulations is the largest one.

The comparison does not build that relation. It walks down both trees and takes a pair that
it is comparing already to fit, which is an assumption that was not proved. What makes it
safe is that it is used only below the pair itself: `similar_below_iff` says that a pair is
related, under given assumptions, exactly if its children are when the pair is assumed as
well. Each call then answers for the relation under the assumptions of that call, and the
outermost call makes none.
-/

namespace FieldSelection

namespace Graph

/-- The labels of two nodes agree: they are equal, or one of them is the wildcard. -/
def LabelsAgree (g h : Graph) (a b : NodeId) : Prop :=
  g.label a = h.label b ∨ g.label a = some .wildcard ∨ h.label b = some .wildcard

/-- What a relation owes to a pair that it holds: the node of the first graph is a catch-all,
or the labels agree and each child of the second node has a related one of the first. -/
def Simulated (g h : Graph) (S : NodeId → NodeId → Prop) (a b : NodeId) : Prop :=
  g.label a = some .catchAll ∨
    (LabelsAgree g h a b ∧ ∀ b' ∈ h.children b, ∃ a' ∈ g.children a, S a' b')

/-- A simulation gives every pair that it holds what it owes to it. -/
def IsSimulation (g h : Graph) (S : NodeId → NodeId → Prop) : Prop :=
  ∀ a b, S a b → Simulated g h S a b

/-- Two nodes are related by a relation that is a simulation but for the assumed pairs. -/
def SimilarGiven (g h : Graph) (assumed : List (NodeId × NodeId)) (a b : NodeId) : Prop :=
  ∃ S : NodeId → NodeId → Prop, S a b ∧
    ∀ x y, S x y → (x, y) ∈ assumed ∨ Simulated g h S x y

variable {g h : Graph} {assumed : List (NodeId × NodeId)} {a b : NodeId}

theorem labelsFit_iff : g.labelsFit h a b = true ↔ LabelsAgree g h a b := by
  simp [labelsFit, isWildcard, LabelsAgree, or_assoc]

theorem isCatchAll_iff {n : NodeId} : g.isCatchAll n = true ↔ g.label n = some .catchAll := by
  simp [isCatchAll]

theorem Simulated.mono {S T : NodeId → NodeId → Prop} (hST : ∀ x y, S x y → T x y)
    (hS : Simulated g h S a b) : Simulated g h T a b := by
  rcases hS with hc | ⟨hl, hb⟩
  · exact Or.inl hc
  · refine Or.inr ⟨hl, fun b' hb' => ?_⟩
    obtain ⟨a', ha', hS'⟩ := hb b' hb'
    exact ⟨a', ha', hST a' b' hS'⟩

/-! ## Relations under assumptions -/

theorem similarGiven_of_mem (hmem : (a, b) ∈ assumed) : SimilarGiven g h assumed a b := by
  refine ⟨fun x y => (x, y) = (a, b), rfl, fun x y hxy => Or.inl ?_⟩
  rw [hxy]
  exact hmem

theorem similarGiven_of_catchAll (hc : g.label a = some .catchAll) :
    SimilarGiven g h assumed a b := by
  refine ⟨fun x y => (x, y) = (a, b), rfl, fun x y hxy => Or.inr (Or.inl ?_)⟩
  rw [(Prod.mk.inj hxy).1]
  exact hc

/-- What is related under assumptions is assumed, or has related children. -/
theorem SimilarGiven.simulated (hs : SimilarGiven g h assumed a b) :
    (a, b) ∈ assumed ∨ Simulated g h (SimilarGiven g h assumed) a b := by
  obtain ⟨S, hab, hS⟩ := hs
  exact (hS a b hab).imp_right (Simulated.mono fun x y hxy => ⟨S, hxy, hS⟩)

theorem SimilarGiven.weaken (hs : SimilarGiven g h assumed a b) (p : NodeId × NodeId) :
    SimilarGiven g h (p :: assumed) a b := by
  obtain ⟨S, hab, hS⟩ := hs
  exact ⟨S, hab, fun x y hxy => (hS x y hxy).imp_left (List.mem_cons_of_mem p)⟩

/-- **An assumption is discharged by the pair it is about.** To relate a pair whose labels
agree, it is enough to relate the children with the pair itself taken for granted. -/
theorem similar_below_iff (hnew : (a, b) ∉ assumed) (hc : g.label a ≠ some .catchAll)
    (hl : LabelsAgree g h a b) :
    SimilarGiven g h assumed a b ↔
      ∀ b' ∈ h.children b, ∃ a' ∈ g.children a, SimilarGiven g h ((a, b) :: assumed) a' b' := by
  constructor
  · intro hs b' hb'
    rcases hs.simulated with hmem | hcat | ⟨_, hbelow⟩
    · exact absurd hmem hnew
    · exact absurd hcat hc
    · obtain ⟨a', ha', hs'⟩ := hbelow b' hb'
      exact ⟨a', ha', hs'.weaken (a, b)⟩
  · intro hbelow
    -- add the pair to all that is related when it is assumed
    let T : NodeId → NodeId → Prop := fun x y =>
      (x, y) = (a, b) ∨ SimilarGiven g h ((a, b) :: assumed) x y
    have hpair : Simulated g h T a b := by
      refine Or.inr ⟨hl, fun b' hb' => ?_⟩
      obtain ⟨a', ha', hs'⟩ := hbelow b' hb'
      exact ⟨a', ha', Or.inr hs'⟩
    refine ⟨T, Or.inl rfl, fun x y hxy => ?_⟩
    have hself : (x, y) = (a, b) → Simulated g h T x y := by
      intro he
      obtain ⟨rfl, rfl⟩ := Prod.mk.inj he
      exact hpair
    rcases hxy with he | hs
    · exact Or.inr (hself he)
    · rcases hs.simulated with hmem | hsim
      · rcases List.mem_cons.mp hmem with he | hmem
        · exact Or.inr (hself he)
        · exact Or.inl hmem
      · exact Or.inr (hsim.mono fun x y hs => Or.inr hs)

/-! ## The comparison -/

/-- What is true of the pairs being compared: there are no more of them than levels were
used up, each is there once, and each was found to need a look at its children. -/
structure Comparing (g h : Graph) (depth : Nat) (assumed : List (NodeId × NodeId)) : Prop where
  /-- A level is left for each pair that is not being compared, and one more. -/
  enough : g.size * h.size + 1 ≤ depth + assumed.length
  /-- No pair is being compared twice. -/
  nodup : assumed.Nodup
  /-- Both nodes are there. -/
  inside : ∀ p ∈ assumed, p.1 < g.size ∧ p.2 < h.size

theorem Comparing.depth_pos {depth : Nat} (hc : Comparing g h depth assumed) : 0 < depth := by
  have hle := length_le_of_nodup_pairs hc.nodup hc.inside
  have henough := hc.enough
  omega

theorem Comparing.push {depth : Nat} (hc : Comparing g h (depth + 1) assumed)
    (hnew : (a, b) ∉ assumed) (ha : a < g.size) (hb : b < h.size) :
    Comparing g h depth ((a, b) :: assumed) where
  enough := by
    have henough := hc.enough
    rw [List.length_cons]
    omega
  nodup := List.nodup_cons.mpr ⟨hnew, hc.nodup⟩
  inside := by
    intro p hp
    rcases List.mem_cons.mp hp with rfl | hp
    · exact ⟨ha, hb⟩
    · exact hc.inside p hp

/-- **The comparison answers for the relation under its assumptions.** -/
theorem contains?_answers : ∀ {depth : Nat} {assumed : List (NodeId × NodeId)} {a b : NodeId},
    Comparing g h depth assumed →
    (∀ p ∈ assumed, LabelsAgree g h p.1 p.2) →
    Answers (contains? g h depth assumed a b) (SimilarGiven g h assumed a b) := by
  intro depth
  induction depth with
  | zero => intro assumed a b hcmp _; exact absurd hcmp.depth_pos (Nat.lt_irrefl 0)
  | succ depth ih =>
    intro assumed a b hcmp hagree
    rw [contains?]
    split
    · rename_i hcat
      exact Answers.of_true (similarGiven_of_catchAll (isCatchAll_iff.mp hcat))
    · rename_i hcat
      have hc : g.label a ≠ some .catchAll := fun hl => hcat (isCatchAll_iff.mpr hl)
      split
      · rename_i hfit
        have hl : ¬ LabelsAgree g h a b := by
          intro hl
          rw [labelsFit_iff.mpr hl] at hfit
          exact absurd hfit (by simp)
        refine Answers.of_false (fun hs => ?_)
        rcases hs.simulated with hmem | hcat' | ⟨hl', _⟩
        · exact hl (hagree (a, b) hmem)
        · exact hc hcat'
        · exact hl hl'
      · rename_i hfit
        have hl : LabelsAgree g h a b := labelsFit_iff.mp (by simpa using hfit)
        split
        · rename_i hmem
          exact Answers.of_true (similarGiven_of_mem hmem)
        · rename_i hnew
          refine (answers_allM fun b' hb' => answers_anyM fun a' ha' => ?_).congr
            (similar_below_iff hnew hc hl).symm
          -- both nodes have children, so both are there
          refine ih (hcmp.push hnew (lt_size_of_mem_children ha') (lt_size_of_mem_children hb')) ?_
          intro p hp
          rcases List.mem_cons.mp hp with rfl | hp
          · exact hl
          · exact hagree p hp

/-- Without assumptions, being related is being related by a simulation. -/
theorem similarGiven_nil_iff :
    SimilarGiven g h [] a b ↔ ∃ S, IsSimulation g h S ∧ S a b := by
  constructor
  · rintro ⟨S, hab, hS⟩
    exact ⟨S, fun x y hxy => (hS x y hxy).resolve_left List.not_mem_nil, hab⟩
  · rintro ⟨S, hS, hab⟩
    exact ⟨S, hab, fun x y hxy => Or.inr (hS x y hxy)⟩

end Graph

namespace Tree

theorem comparing_nil (t u : Tree) :
    Graph.Comparing t.graph u.graph (t.size * u.size + 1) [] :=
  ⟨Nat.le_refl _, List.nodup_nil, by simp⟩

/-- Containment relates the roots with nothing taken for granted. -/
theorem contains_iff_similarGiven (t u : Tree) :
    t.contains u = true ↔ Graph.SimilarGiven t.graph u.graph [] t.root u.root :=
  (Graph.contains?_answers (comparing_nil t u) (by simp)).getD_eq_true

/-- **Containment is the largest simulation.** One tree contains another exactly if some
simulation between their nodes holds the pair of the roots. -/
theorem contains_iff_exists_simulation (t u : Tree) :
    t.contains u = true ↔ ∃ S, Graph.IsSimulation t.graph u.graph S ∧ S t.root u.root := by
  rw [contains_iff_similarGiven, Graph.similarGiven_nil_iff]

end Tree

end FieldSelection
