import FieldSelection.Proofs.Graph.Collecting
import FieldSelection.Proofs.Graph.OpenLeaf
import FieldSelection.Proofs.Tree.Comparing

/-!
# Every walk over a tree ends

Nodes can lie below themselves and be spliced into themselves, so each walk over a tree carries a
guard. Two of them know only what they are in the middle of: containment the pairs of nodes that are
being compared, and the outline the nodes above. These guards are taken back on the way up, and what
they bound is how deep a walk nests: all that it is in the middle of is there once. The other three
remember all that they met: the comparison of trees its pairs, the children of a node what was
followed for them, the search for an open leaf the nodes that were opened. These guards only grow,
so nothing is opened twice.
-/

namespace FieldSelection

namespace Graph

variable {g : Graph} {n : NodeId} {nodes rest passed : List NodeId} {answer : Bool}
  {opened opened' : List NodeId}

/-! ## Open leaves -/

/-- Asking some nodes, one after the other, whether one of them is an open leaf, when these nodes
were opened already, gives this answer, and then these nodes were opened. -/
inductive Seeks (g : Graph) : List NodeId → List NodeId → Bool → List NodeId → Prop where
  /-- There are no nodes left. -/
  | done {opened : List NodeId} : Seeks g opened [] false opened
  /-- The next node is a leaf. -/
  | leaf {opened : List NodeId} {n : NodeId} {rest : List NodeId} :
      g.isLeaf n = true → Seeks g opened (n :: rest) true opened
  /-- It was opened before. -/
  | passed {opened opened' : List NodeId} {n : NodeId} {rest : List NodeId} {answer : Bool} :
      g.isLeaf n = false → n ∈ opened → Seeks g opened rest answer opened' →
      Seeks g opened (n :: rest) answer opened'
  /-- It has a wildcard child that is an open leaf. -/
  | found {opened opened' : List NodeId} {n : NodeId} {rest : List NodeId} :
      g.isLeaf n = false → n ∉ opened →
      Seeks g (n :: opened) (g.wildcardChildren n) true opened' →
      Seeks g opened (n :: rest) true opened'
  /-- It has none, and the next node is asked. -/
  | next {opened opened₁ opened₂ : List NodeId} {n : NodeId} {rest : List NodeId} {answer : Bool} :
      g.isLeaf n = false → n ∉ opened →
      Seeks g (n :: opened) (g.wildcardChildren n) false opened₁ →
      Seeks g opened₁ rest answer opened₂ → Seeks g opened (n :: rest) answer opened₂

/-- **No node is opened twice.** -/
theorem Seeks.nodup (h : g.Seeks opened nodes answer opened') (hnodup : opened.Nodup) :
    opened'.Nodup := by
  induction h with
  | done | leaf => exact hnodup
  | passed _ _ _ ih => exact ih hnodup
  | found _ hnew _ ih => exact ih (List.nodup_cons.mpr ⟨hnew, hnodup⟩)
  | next _ hnew _ _ ihchildren ihrest =>
      exact ihrest (ihchildren (List.nodup_cons.mpr ⟨hnew, hnodup⟩))

/-- To ask two lists of nodes is to find an open leaf in the first, or to go on to the second. -/
theorem Seeks.cases_append (h : g.Seeks opened (nodes ++ rest) answer opened') :
    (answer = true ∧ g.Seeks opened nodes true opened') ∨
      ∃ opened₁, g.Seeks opened nodes false opened₁ ∧ g.Seeks opened₁ rest answer opened' := by
  induction nodes generalizing opened with
  | nil => exact Or.inr ⟨opened, .done, h⟩
  | cons n nodes ih =>
      cases h with
      | leaf hleaf => exact Or.inl ⟨rfl, .leaf hleaf⟩
      | passed hleaf hmem hrest =>
          rcases ih hrest with ⟨htrue, hfirst⟩ | ⟨opened₁, hfirst, hsecond⟩
          · exact Or.inl ⟨htrue, .passed hleaf hmem hfirst⟩
          · exact Or.inr ⟨opened₁, .passed hleaf hmem hfirst, hsecond⟩
      | found hleaf hnew hbelow => exact Or.inl ⟨rfl, .found hleaf hnew hbelow⟩
      | next hleaf hnew hbelow hrest =>
          rcases ih hrest with ⟨htrue, hfirst⟩ | ⟨opened₁, hfirst, hsecond⟩
          · exact Or.inl ⟨htrue, .next hleaf hnew hbelow hfirst⟩
          · exact Or.inr ⟨opened₁, .next hleaf hnew hbelow hfirst, hsecond⟩

/-- Asking nodes that were opened before leads nowhere. -/
theorem seeks_passed (hnoLeaf : ∀ m ∈ opened, g.isLeaf m = false)
    (hpassed : ∀ m ∈ passed, m ∈ opened) (h : g.Seeks opened rest answer opened') :
    g.Seeks opened (passed ++ rest) answer opened' := by
  induction passed with
  | nil => exact h
  | cons n passed ih =>
      obtain ⟨hn, hpassed⟩ := List.forall_mem_cons.mp hpassed
      exact .passed (hnoLeaf n hn) hn (ih hpassed)

/-- **The search asks its nodes in this way.** -/
theorem seeks_of_reachesLeaf? (budget : Nat) : ∀ {opened pending : List NodeId} {answer : Bool},
    g.reachesLeaf? budget opened pending = some answer → (∀ m ∈ opened, g.isLeaf m = false) →
    ∃ opened', g.Seeks opened pending answer opened' := by
  induction budget using Nat.strongRecOn with
  | ind budget ih =>
      intro opened pending answer h hnoLeaf
      obtain ⟨passed, hpending, hpassed⟩ := exists_passed opened pending
      rw [reachesLeaf?] at h
      split at h
      · rename_i hnone
        cases h
        rw [hpending, hnone]
        exact ⟨opened, seeks_passed hnoLeaf hpassed .done⟩
      · rename_i n rest hrest
        rw [hpending, hrest]
        split at h
        · rename_i hleaf
          cases h
          exact ⟨opened, seeks_passed hnoLeaf hpassed (.leaf hleaf)⟩
        · rename_i hleaf
          have hleaf : g.isLeaf n = false := by simpa using hleaf
          have hnew := not_mem_opened hrest
          split at h
          · exact absurd h (by simp)
          · rename_i fewer
            -- the wildcard children come first, and then what waited behind the node
            obtain ⟨opened', hall⟩ :=
              ih fewer (Nat.lt_succ_self fewer) h (List.forall_mem_cons.mpr ⟨hleaf, hnoLeaf⟩)
            refine ⟨opened', seeks_passed hnoLeaf hpassed ?_⟩
            rcases hall.cases_append with ⟨rfl, hbelow⟩ | ⟨opened₁, hbelow, hbehind⟩
            · exact .found hleaf hnew hbelow
            · exact .next hleaf hnew hbelow hbehind

/-- Whether a node is an open leaf is found in this way. -/
theorem seeks_isOpenLeaf (g : Graph) (n : NodeId) :
    ∃ opened, g.Seeks [] [n] (g.isOpenLeaf n) opened := by
  obtain ⟨answer, hanswer, -⟩ := reachesLeaf?_answers g.size (g.visiting_nil [n])
  rw [isOpenLeaf, hanswer]
  exact seeks_of_reachesLeaf? g.size hanswer (by simp)

/-! ## Outlines -/

/-- If each of some nodes has an outline, they have one together. -/
theorem exists_mapM_outline? {depth indent : Nat} {branch : List NodeId}
    (h : ∀ n ∈ nodes, ∃ lines, g.outline? depth branch indent n = some lines) :
    ∃ below, nodes.mapM (g.outline? depth branch indent) = some below := by
  obtain ⟨below, hbelow, -⟩ := exists_mapM_eq_some (P := fun _ => True) fun n hn =>
    (h n hn).imp fun _ hlines => ⟨hlines, trivial⟩
  exact ⟨below, hbelow⟩

/-- Where a level is left for each node that is not above, the outline of a node ends. -/
theorem exists_outline? {depth : Nat} : ∀ {branch : List NodeId} {indent : Nat} {n : NodeId},
    Descending g (depth + 1) branch → ∃ lines, g.outline? depth branch indent n = some lines := by
  induction depth with
  | zero =>
      intro branch indent n hd
      have hle := length_le_of_nodup hd.nodup hd.inside
      have henough := hd.enough
      omega
  | succ depth ih =>
      intro branch indent n hd
      rw [outline?]
      by_cases hmem : n ∈ branch
      · exact ⟨_, if_pos hmem⟩
      · -- only a node that is there has children to go on with
        obtain ⟨below, hbelow⟩ := exists_mapM_outline? fun c (hc : c ∈ g.children n) =>
          ih (hd.push hmem (lt_size_of_mem_children hc))
        rw [if_neg hmem, hbelow]
        exact ⟨_, rfl⟩

theorem mapM_eq_some_of_imp {α β : Type} {f f' : α → Option β} {xs : List α} {ys : List β}
    (hf : ∀ x y, f x = some y → f' x = some y) (h : xs.mapM f = some ys) :
    xs.mapM f' = some ys := by
  induction xs generalizing ys with
  | nil => exact h
  | cons x xs ih =>
      rw [List.mapM_cons, Option.bind_eq_bind, Option.bind_eq_some_iff] at h
      obtain ⟨y, hy, h⟩ := h
      rw [Option.bind_eq_bind, Option.bind_eq_some_iff] at h
      obtain ⟨zs, hzs, h⟩ := h
      rw [List.mapM_cons, hf x y hy, ih hzs]
      exact h

/-- With more levels than are needed, the outline is the same. -/
theorem outline?_succ {depth : Nat} : ∀ {branch : List NodeId} {indent : Nat} {n : NodeId}
    {lines : List String}, g.outline? depth branch indent n = some lines →
    g.outline? (depth + 1) branch indent n = some lines := by
  induction depth with
  | zero => exact fun h => absurd h (by simp [outline?])
  | succ depth ih =>
      intro branch indent n lines h
      rw [outline?] at h ⊢
      by_cases hmem : n ∈ branch
      · rw [if_pos hmem] at h ⊢
        exact h
      · rw [if_neg hmem, Option.bind_eq_bind, Option.bind_eq_some_iff] at h
        obtain ⟨below, hbelow, hlines⟩ := h
        rw [if_neg hmem, mapM_eq_some_of_imp (fun _ _ => ih) hbelow]
        exact hlines

/-! ## Graphs that are built -/

/-- No operation takes a node away. -/
theorem size_le_apply (g : Graph) (operation : Operation) : g.size ≤ (g.apply operation).size := by
  cases operation with
  | addRoot => exact (g.changesAt_addNode none 0).size_le
  | child n s => exact (g.extends_ensureChild n s).1.size_le
  | branch n path => exact (extends_ensureBranch path g n).size_le
  | catchAll n => exact (g.changesAt_setCatchAll n).size_le
  | merge n source =>
      rcases g.apply_merge_cases n source with hsame | ⟨_, _, hadd⟩
      · exact Nat.le_of_eq (by rw [hsame])
      · rw [hadd]
        exact (g.extends_addLink n _).size_le

theorem size_le_foldl_apply (operations : List Operation) (g : Graph) :
    g.size ≤ (operations.foldl apply g).size := by
  induction operations generalizing g with
  | nil => exact Nat.le_refl _
  | cons operation rest ih => exact Nat.le_trans (g.size_le_apply operation) (ih _)

end Graph

namespace Tree

/-- The tree of what operations build, from the root that it starts with. -/
def built (operations : List Graph.Operation) : Tree :=
  ⟨Graph.build operations, Tree.empty.root⟩

theorem root_lt_built (operations : List Graph.Operation) :
    (built operations).root < (built operations).graph.size := by
  have hone : Tree.empty.root < Tree.empty.graph.size := by decide
  exact Nat.lt_of_lt_of_le hone (Graph.size_le_foldl_apply operations _)

variable {t u : Tree}

/-- The comparison of trees that have their nodes inside ends and opens no pair twice. -/
theorem compares_same (ht : t.graph.HasChildrenInside) (hu : u.graph.HasChildrenInside)
    (htroot : t.root < t.graph.size) (huroot : u.root < u.graph.size) :
    ∃ opened, Graph.Compares t.graph u.graph [] [t.root] [u.root] (t.same u) opened ∧
      opened.Nodup ∧ ∀ pair ∈ opened, pair.1 < t.size ∧ pair.2 < u.size := by
  have hmine : ∀ a ∈ [t.root], a < t.graph.size := by simpa using htroot
  have htheirs : ∀ b ∈ [u.root], b < u.graph.size := by simpa using huroot
  obtain ⟨answer, opened, hwalk, depth, -, hcmp⟩ :=
    Graph.exists_compares ht hu _ (comparing_nil t u) hmine htheirs
  refine ⟨opened, ?_, hcmp.nodup, hcmp.inside⟩
  rw [same_eq_of_compares hwalk hcmp]
  exact hwalk

/-- The outline of a tree ends with a level for each node. -/
theorem exists_outlineLines (hroot : t.root < t.graph.size) :
    ∃ below, (t.graph.children t.root).mapM (t.graph.outline? t.size [t.root] 0) = some below ∧
      t.outlineLines = below.flatten := by
  have hd : Graph.Descending t.graph (t.size + 1) [t.root] :=
    ⟨Nat.le_refl _, List.nodup_singleton _, by simpa using hroot⟩
  obtain ⟨below, hbelow⟩ : ∃ below, (t.graph.children t.root).mapM
      (t.graph.outline? t.size [t.root] 0) = some below :=
    Graph.exists_mapM_outline? fun _ _ => Graph.exists_outline? hd
  refine ⟨below, hbelow, ?_⟩
  rw [outlineLines, Graph.mapM_eq_some_of_imp (fun _ _ => Graph.outline?_succ) hbelow]
  rfl

/-- **Every walk over a tree ends**, whatever was built, with nodes below themselves and spliced
into themselves. Containment nests no deeper than there are pairs of nodes, and once more. The
comparison of two trees opens each pair of nodes at most once. To find the children of a node, each
node is followed at most once, and to find whether it is an open leaf, each node is opened at most
once. Below the root, the outline has no more levels than there are nodes. -/
theorem walks_end (operations operations' : List Graph.Operation) (n : NodeId) :
    let t := built operations
    let u := built operations'
    Graph.contains? t.graph u.graph (t.size * u.size + 1) [] t.root u.root = some (t.contains u) ∧
    (∃ opened, Graph.Compares t.graph u.graph [] [t.root] [u.root] (t.same u) opened ∧
      opened.Nodup ∧ ∀ pair ∈ opened, pair.1 < t.size ∧ pair.2 < u.size) ∧
    (∃ followed, t.graph.Collects [n] (t.graph.links n) (t.graph.children n) followed ∧
      followed.Nodup) ∧
    (∃ opened, t.graph.Seeks [] [n] (t.graph.isOpenLeaf n) opened ∧ opened.Nodup) ∧
    (∃ below, (t.graph.children t.root).mapM (t.graph.outline? t.size [t.root] 0) = some below ∧
      t.outlineLines = below.flatten) := by
  intro t u
  refine ⟨?_, ?_, ?_, ?_, exists_outlineLines (root_lt_built operations)⟩
  · obtain ⟨answer, hanswer, -⟩ :=
      Graph.contains?_answers (a := t.root) (b := u.root) (comparing_nil t u) (by simp)
    rw [contains, hanswer]
    rfl
  · exact compares_same (Graph.IsLabelled.build operations).hasChildrenInside
      (Graph.IsLabelled.build operations').hasChildrenInside (root_lt_built operations)
      (root_lt_built operations')
  · obtain ⟨followed, hwalk⟩ := t.graph.collects_children n
    exact ⟨followed, hwalk, hwalk.nodup (List.nodup_singleton n)⟩
  · obtain ⟨opened, hwalk⟩ := t.graph.seeks_isOpenLeaf n
    exact ⟨opened, hwalk, hwalk.nodup List.nodup_nil⟩

/-- A root that splices in itself, and a child that splices in the root it belongs to. -/
example :
    let t := built [.addRoot, .merge 1 1, .child 1 .wildcard, .merge 2 1, .merge 0 1]
    t.contains t = true ∧ t.same t = true ∧ t.graph.children 2 = [2] ∧
      t.graph.isOpenLeaf 2 = false ∧ t.outlineLines = ["*", "-* (cycle)"] := by
  decide +kernel

end Tree

end FieldSelection
