import FieldSelection.Proofs.Schema.History

/-!
# The shared graph stays well formed

All trees of a repository share one graph, which grows while schemas are compiled and is cut back
where one cannot be. Whatever was asked, its links lead to nodes, each node without a label is the
root of one name, and no node has two children of one label.

A splice is always the only link of its node, and links are never taken away. So a node has no
children when those of a root are spliced in, and there is no label that both could have. This is
why compiling never fails for a merge.
-/

namespace FieldSelection

variable {d : Dictionary Schema} {c : Compilation} {m : Meaning} {n k : NodeId}

namespace Building

/-- A child of a finished node is a node. -/
theorem lt_of_owned (hb : Building d [] c m) (h : Link.owned k ∈ c.graph.links n) :
    k < c.graph.size :=
  hb.owned.lt_size h

/-- A splice is the only link of its node, and what it splices in are the children of a root. -/
theorem of_spliced (hb : Building d [] c m) (h : Link.spliced k ∈ c.graph.links n) :
    c.graph.links n = [.spliced k] ∧ k < c.graph.size ∧ c.graph.label k = none := by
  have hn : n < c.graph.size := Graph.lt_size_of_mem_links h
  cases hb.finished n hn List.not_mem_nil with
  | anything _ links =>
      rw [links] at h
      exact absurd h (by simp)
  | fields _ links =>
      rw [links] at h
      exact absurd h (by simp [Link.owning])
  | @spliced target r _ _ links root =>
      rw [links] at h
      have hk : k = r := Link.spliced.inj (List.mem_singleton.mp h)
      obtain ⟨hlt, hlabel, _⟩ := hb.root target r root
      rw [hk]
      exact ⟨links, hlt, hlabel⟩

/-- The children of any node are all the children that one node owns. -/
theorem exists_owner (hb : Building d [] c m) (n : NodeId) :
    ∃ o, c.graph.links o = Link.owning (c.graph.children n) := by
  by_cases hn : n < c.graph.size
  · cases hb.finished n hn List.not_mem_nil with
    | @anything k' _ links =>
        have hone : c.graph.links n = Link.owning [k'] := links
        exact ⟨n, by rw [Graph.children_of_owning hone, hone]⟩
    | fields _ links => exact ⟨n, by rw [Graph.children_of_owning links, links]⟩
    | @spliced target r _ label links root =>
        obtain ⟨hlt, hlabel, _⟩ := hb.root target r root
        obtain ⟨cs, hcs, _⟩ := hb.root_links root
        have hne : r ≠ n := by
          intro heq
          exact label (heq ▸ hlabel)
        exact ⟨r, by rw [Graph.children_of_spliced links hne hlt hcs, hcs]⟩
  · have hge := Nat.le_of_not_lt hn
    exact ⟨n, by rw [Graph.children_eq_nil_of_size_le hge, Graph.links_eq_nil_of_size_le hge]; rfl⟩

end Building

namespace Schema

variable {known : Finset String} {label : Segment} {s : Schema}

theorem survey_ne_merge (why : MergeError) : survey d known label s ≠ .error (.merge why) := by
  rw [survey]
  split
  · simp
  · split
    · simp
    · split <;> simp
  · split <;> simp
  · simp
  · simp
  · simp

/-- No survey comes to an error of a merge. -/
theorem Surveys.ne_merge {fields : List (Segment × Schema)}
    {outcome : Except SchemaError (Finset String)} (h : Surveys d known fields outcome)
    (why : MergeError) : outcome ≠ .error (.merge why) := by
  induction h with
  | done => simp
  | stop hs =>
      intro heq
      cases Except.error.inj heq
      exact survey_ne_merge why hs
  | step _ _ ih => exact ih

end Schema

namespace Repository

/-- Whether the graph and the roots of a repository fit together. -/
structure WellFormed (r : Repository) : Prop where
  /-- Links lead to nodes. -/
  links : ∀ n k, Link.owned k ∈ r.graph.links n ∨ Link.spliced k ∈ r.graph.links n →
    k < r.graph.size
  /-- A name has a node without a label for its root. -/
  root : ∀ name n, r.roots.get? name = some n → n < r.graph.size ∧ r.graph.isRoot n = true
  /-- A node without a label is the root of one name. -/
  name : ∀ n, n < r.graph.size → r.graph.isRoot n = true → ∃! name, r.roots.get? name = some n
  /-- The children of a node have different labels. -/
  siblings : ∀ n, ((r.graph.children n).map r.graph.label).Nodup
  /-- A node into which children were spliced has no others, and they are those of a root. -/
  splices : ∀ n k, Link.spliced k ∈ r.graph.links n →
    r.graph.links n = [.spliced k] ∧ r.graph.isRoot k = true

variable {r : Repository}

theorem isRoot_iff {g : Graph} {n : NodeId} : g.isRoot n = true ↔ g.label n = none := by
  rw [Graph.isRoot, Option.isNone_iff_eq_none]

theorem Sound.wellFormed (h : Sound d r) : r.WellFormed := by
  obtain ⟨m, hb⟩ := h.building
  refine ⟨?_, ?_, ?_, ?_, ?_⟩
  · rintro n k (howned | hspliced)
    · exact hb.lt_of_owned howned
    · exact (hb.of_spliced hspliced).2.1
  · intro name n hget
    obtain ⟨hlt, hlabel, _⟩ := hb.root name n hget
    exact ⟨hlt, isRoot_iff.mpr hlabel⟩
  · intro n hn hroot
    obtain ⟨name, hget⟩ := hb.named n hn (isRoot_iff.mp hroot)
    exact ⟨name, hget, fun name' hget' => hb.distinct name' name n hget' hget⟩
  · intro n
    obtain ⟨o, hlinks⟩ := hb.exists_owner n
    exact hb.owned.siblings hlinks
  · intro n k hk
    obtain ⟨hlinks, _, hlabel⟩ := hb.of_spliced hk
    exact ⟨hlinks, isRoot_iff.mpr hlabel⟩

theorem Sound.tree_ne_merge (h : Sound d r) (hd : Schema.DistinctNames d) (name : String)
    (why : MergeError) : (r.tree name).1 ≠ .error (.merge why) := by
  rcases h.tree_cases hd name with ⟨t, ht, _⟩ | ⟨why', heq, hsurvey⟩
  · rw [ht]
    simp
  · rw [heq]
    intro hmerge
    have hwhy : why' = .merge why := Except.error.inj hmerge
    exact hsurvey.ne_merge why (by rw [hwhy])

theorem Sound.trees_ne_merge (h : Sound d r) (hd : Schema.DistinctNames d) (names : List String)
    (why : MergeError) : (r.trees names).1 ≠ .error (.merge why) := by
  induction names generalizing r with
  | nil => simp [trees]
  | cons name rest ih =>
      have hone := h.tree_ne_merge hd name why
      have hnext := h.next hd name
      rw [trees]
      split
      · rename_i why' r' htree
        rw [htree] at hone
        simpa using hone
      · rename_i t r' htree
        rw [htree] at hnext
        have hrest := ih hnext
        cases hmore : (r'.trees rest).1 with
        | ok ts => simp [hmore, Except.map]
        | error why' =>
            rw [hmore] at hrest
            simpa [hmore, Except.map] using hrest

/-- **The shared graph is well formed after any questions**, and no question fails for a merge. -/
theorem wellFormed_after (hd : Schema.DistinctNames d) (history : List Request) :
    (after d history).WellFormed ∧
      (∀ name why, ((after d history).tree name).1 ≠ .error (.merge why)) ∧
      ∀ why, (after d history).allTrees.1 ≠ .error (.merge why) := by
  have hsound := sound_after hd history
  refine ⟨hsound.wellFormed, fun name why => hsound.tree_ne_merge hd name why, fun why => ?_⟩
  exact hsound.trees_ne_merge hd _ why

/-- Authors and books splice in each other, and the catalogue that failed has left nothing. -/
theorem wellFormed_after_bookshop :
    ((after bookshop [.tree "Catalogue", .tree "Author", .allTrees]).roots.keys =
        ["Author", "Book"] ∧
      (after bookshop [.tree "Catalogue", .tree "Author", .allTrees]).graph.size = 6) ∧
      (after bookshop [.tree "Catalogue", .tree "Author", .allTrees]).WellFormed := by
  exact ⟨by decide +kernel, (wellFormed_after distinctNames_bookshop _).1⟩

end Repository

end FieldSelection
