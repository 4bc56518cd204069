import FieldSelection.Proofs.Schema.Compiling

/-!
# Asking for trees

A repository is asked for trees one after the other, and some of them cannot be made. If one
cannot, the graph is cut back and the names that were entered are forgotten. Nothing but growth
happened to both, so the repository is what it was before.

Between two questions, no node of the graph is unfinished and there is nothing to be met behind
the names that are known. So whether there is a tree, and why not, is said by a survey that
starts from these names.
-/

namespace FieldSelection

variable {d : Dictionary Schema} {c c' : Compilation} {m m' : Meaning}

/-- Cutting a graph back to the size that it had brings back the graph that it was. -/
theorem Grown.truncate_eq (h : Grown [] c c') : c'.graph.truncate c.graph.size = c.graph := by
  have hnodes : c'.graph.nodes.take c.graph.size = c.graph.nodes := by
    refine Array.ext_getElem? fun n => ?_
    have hmin : min c.graph.size c'.graph.nodes.size = c.graph.size := Nat.min_eq_left h.size_le
    rw [Array.take_eq_extract, Array.getElem?_extract, hmin, Nat.sub_zero, Nat.zero_add]
    split
    · rename_i hn
      rw [Graph.getElem?_nodes hn, Graph.getElem?_nodes (Nat.lt_of_lt_of_le hn h.size_le),
        h.label n hn, h.links n hn List.not_mem_nil]
    · rename_i hn
      exact (Array.getElem?_eq_none (Nat.le_of_not_lt hn)).symm
  rw [Graph.truncate, hnodes]

namespace Repository

/-- The state in which compiling begins. -/
def compilation (r : Repository) : Compilation := ⟨r.graph, r.roots, []⟩

/-- The repositories that one of these definitions becomes by being asked for trees. -/
inductive Reachable (d : Dictionary Schema) : Repository → Prop where
  /-- No tree was asked for. -/
  | fresh : Reachable d { definitions := d }
  /-- One more tree was asked for. -/
  | tree {r : Repository} (h : Reachable d r) (name : String) : Reachable d (r.tree name).2

/-- What is true of a repository at any time. -/
structure Sound (d : Dictionary Schema) (r : Repository) : Prop where
  /-- The definitions are the same as ever. -/
  definitions : r.definitions = d
  /-- There is a meaning for which nothing is unfinished. -/
  building : ∃ m, Building d [] r.compilation m
  /-- There is nothing to be met behind the names that are known. -/
  complete : Schema.Complete d r.compilation.known

theorem Sound.fresh (d : Dictionary Schema) : Sound d { definitions := d } where
  definitions := rfl
  building := by
    have hnoNode : ∀ n, ¬ n < (compilation { definitions := d }).graph.size :=
      fun n => Nat.not_lt_zero n
    refine ⟨fun _ => .anything, fun n hn _ => absurd hn (hnoNode n), ?_, ?_, ?_, .empty⟩
    · exact fun _ _ h => absurd h (by simp [compilation])
    · exact fun _ _ _ h => absurd h (by simp [compilation])
    · exact fun n hn _ => absurd hn (hnoNode n)
  complete := Schema.complete_empty d

/-- A repository that has made a tree. -/
structure Made (d : Dictionary Schema) (r : Repository) (name : String) (t : Tree)
    (r' : Repository) : Prop where
  /-- It is sound. -/
  sound : Sound d r'
  /-- The tree is what its graph looks like from the root of the schema. -/
  graph : t.graph = r'.graph
  /-- The name has the root of the tree. -/
  root : r'.roots.get? name = some t.root
  /-- The names that had a root before have it still. -/
  kept : ∀ name root, r.roots.get? name = some root → r'.roots.get? name = some root
  /-- A survey of the definitions comes to the same names. -/
  survey : Schema.Surveys d r.compilation.known [(.wildcard, Schema.naming name)]
    (.ok r'.compilation.known)

variable {r : Repository} {name : String}

/-- **To ask for a tree makes one, or leaves the repository as it was.** -/
theorem Sound.tree_cases (h : Sound d r) (hd : Schema.DistinctNames d) (name : String) :
    (∃ t, (r.tree name).1 = .ok t ∧ Made d r name t (r.tree name).2) ∨
      ∃ why, r.tree name = (.error why, r) ∧
        Schema.Surveys d r.compilation.known [(.wildcard, Schema.naming name)] (.error why) := by
  have hsound := h
  obtain ⟨rfl, ⟨m, hb⟩, hcomplete⟩ := h
  rw [Repository.tree]
  cases hget : r.roots.get? name with
  | some root =>
      exact Or.inl ⟨_, rfl, hsound, rfl, hget, fun _ _ h => h,
        Compiler.surveys_of_root (c := r.compilation) hget⟩
  | none =>
      -- each definition is entered once, so their number is enough fuel
      have hfuel := r.compilation.unentered_le_length r.definitions
      have hrun := @Compiler.rootSpec _ hd r.definitions.length name _ _ _ hfuel hb
      rw [Compiler.Ensures, compilation] at hrun
      dsimp only
      split at hrun
      · rename_i root c hroot
        obtain ⟨⟨⟨m', hbuilt⟩, hsurvey⟩, hget'⟩ := hrun
        rw [hroot]
        exact Or.inl ⟨_, rfl, ⟨rfl, ⟨m', hbuilt.building.forget⟩, hcomplete.of_surveys hsurvey⟩,
          rfl, hget', hbuilt.grown.roots, hsurvey⟩
      · rename_i why c hroot
        obtain ⟨hgrown, hsurvey⟩ := hrun
        rw [hroot]
        refine Or.inr ⟨why, ?_, hsurvey⟩
        -- nothing but growth happened, so the cut undoes it
        have hgraph : c.graph.truncate r.graph.size = r.graph := hgrown.truncate_eq
        have hroots : c.entered.foldl Dictionary.erase c.roots = r.roots := hgrown.forgotten
        dsimp only
        rw [hgraph, hroots]

theorem Made.of_eq_ok (h : Sound d r) (hd : Schema.DistinctNames d) {t : Tree}
    (ht : (r.tree name).1 = .ok t) : Made d r name t (r.tree name).2 := by
  rcases h.tree_cases hd name with ⟨t', ht', hmade⟩ | ⟨why, heq, _⟩
  · cases ht.symm.trans ht'
    exact hmade
  · rw [heq] at ht
    exact absurd ht (by simp)

theorem Sound.next (h : Sound d r) (hd : Schema.DistinctNames d) (name : String) :
    Sound d (r.tree name).2 := by
  rcases h.tree_cases hd name with ⟨t, _, hmade⟩ | ⟨why, heq, _⟩
  · exact hmade.sound
  · rw [heq]
    exact h

/-- A name that has a root keeps it. -/
theorem Sound.kept (h : Sound d r) (hd : Schema.DistinctNames d) (name : String)
    {name' : String} {root : NodeId} (hget : r.roots.get? name' = some root) :
    (r.tree name).2.roots.get? name' = some root := by
  rcases h.tree_cases hd name with ⟨t, _, hmade⟩ | ⟨why, heq, _⟩
  · exact hmade.kept name' root hget
  · rw [heq]
    exact hget

theorem Reachable.sound (hd : Schema.DistinctNames d) (h : Reachable d r) : Sound d r := by
  induction h with
  | fresh => exact .fresh d
  | tree _ name ih => exact ih.next hd name

/-- What is kept when one tree is asked for is kept when several are. -/
theorem trees_keeps {P : Repository → Prop} (hP : ∀ {r : Repository} name, P r → P (r.tree name).2)
    (names : List String) (h : P r) : P (r.trees names).2 := by
  induction names generalizing r with
  | nil => exact h
  | cons name rest ih =>
      have hnext := hP name h
      rw [Repository.trees]
      split
      · rename_i why r' htree
        rw [htree] at hnext
        exact hnext
      · rename_i t r' htree
        rw [htree] at hnext
        exact ih hnext

theorem Reachable.trees (h : Reachable d r) (names : List String) : Reachable d (r.trees names).2 :=
  trees_keeps (fun name h => h.tree name) names h

/-- A repository that was asked for the trees of all schemas is one that was asked for trees. -/
theorem Reachable.allTrees (h : Reachable d r) : Reachable d r.allTrees.2 :=
  h.trees r.names

end Repository

end FieldSelection
