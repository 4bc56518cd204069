import FieldSelection.Proofs.Tree.Equality

/-!
# Owners in whatever is built

Siblings can come to have one label, and a root can be spliced in anywhere. But a child is owned by
the node it was made at, and by no other, whatever is done to the graph: an operation makes at most
one node at a time, links to that one only, and never links to another child anew.

So the search for the children of a node, which follows no splice twice, finds no child twice, and
finds all of them: `children_complete_and_once`.
-/

namespace FieldSelection.Graph

variable {g : Graph} {n k : NodeId} {s : Segment} {links : List Link}

/-- Whether every child is owned by one node, and once. -/
structure OwnsOnce (g : Graph) : Prop where
  /-- By one node. -/
  owner : ∀ {n n' k}, .owned k ∈ g.links n → .owned k ∈ g.links n' → n = n'
  /-- Once. -/
  once : ∀ n, (g.owned n).Nodup

namespace OwnsOnce

variable {path : Path}

/-- Other links at a node, which own children that it had, or else just one, which nobody had. -/
theorem setLinks (h : g.OwnsOnce) (new : NodeId) (hnew : ∀ m, .owned new ∉ g.links m)
    (hlinks : ∀ k, .owned k ∈ links → k = new ∨ .owned k ∈ g.links n)
    (honce : (Link.ownedBy links).Nodup) : (g.setLinks n links).OwnsOnce := by
  have howned : ∀ {m k}, .owned k ∈ (g.setLinks n links).links m →
      .owned k ∈ g.links m ∨ (m = n ∧ k = new) := by
    intro m k hk
    rcases links_setLinks_cases g n links m with hsame | ⟨rfl, hset⟩
    · rw [hsame] at hk
      exact Or.inl hk
    · rw [hset] at hk
      exact (hlinks k hk).symm.imp_right fun hk => ⟨rfl, hk⟩
  refine ⟨fun {m m' k} hk hk' => ?_, fun m => ?_⟩
  · rcases howned hk with hold | ⟨hm, rfl⟩
    · rcases howned hk' with hold' | ⟨_, rfl⟩
      · exact h.owner hold hold'
      · exact absurd hold (hnew m)
    · rcases howned hk' with hold' | ⟨hm', _⟩
      · exact absurd hold' (hnew m')
      · rw [hm, hm']
  · rcases links_setLinks_cases g n links m with hsame | ⟨_, hset⟩
    · rw [Graph.owned, hsame]
      exact h.once m
    · rwa [Graph.owned, hset]

theorem addNode (h : g.OwnsOnce) (label : Option Segment) : (g.addNode label).1.OwnsOnce := by
  refine ⟨fun hk hk' => ?_, fun n => ?_⟩
  · rw [links_addNode] at hk hk'
    exact h.owner hk hk'
  · rw [Graph.owned, links_addNode]
    exact h.once n

theorem ensureChild (h : g.OwnsOnce) (hlabelled : g.IsLabelled) (n : NodeId) (s : Segment) :
    (g.ensureChild n s).1.OwnsOnce := by
  have hnew : ∀ m, .owned g.size ∉ g.links m :=
    fun m hm => Nat.lt_irrefl _ (hlabelled.lt_size hm)
  cases hchild : g.child? n s with
  | some c =>
      rw [ensureChild_of_some hchild]
      exact h
  | none =>
      rw [ensureChild_of_none hchild]
      refine (h.addNode (some s)).setLinks g.size (fun m hm => ?_) (fun k hk => ?_) ?_
      · rw [links_addNode] at hm
        exact hnew m hm
      · rw [List.mem_append, List.mem_singleton] at hk
        exact hk.symm.imp_left Link.owned.inj
      · rw [links_addNode, Link.ownedBy_append]
        refine List.Nodup.append (h.once n) (List.nodup_singleton _) ?_
        exact List.disjoint_singleton.mpr fun hmem => hnew n (mem_owned.mp hmem)

theorem ensureBranch (h : g.OwnsOnce) (hlabelled : g.IsLabelled) (n : NodeId) :
    (g.ensureBranch n path).1.OwnsOnce := by
  induction path generalizing g n with
  | nil => exact h
  | cons s rest ih => exact ih (h.ensureChild hlabelled n s) (hlabelled.ensureChild n s) _

theorem setCatchAll (h : g.OwnsOnce) (hlabelled : g.IsLabelled) (n : NodeId) :
    (g.setCatchAll n).1.OwnsOnce := by
  refine (h.addNode (some .catchAll)).setLinks g.size (fun m hm => ?_) (fun k hk => ?_)
    (List.nodup_singleton _)
  · rw [links_addNode] at hm
    exact Nat.lt_irrefl _ (hlabelled.lt_size hm)
  · exact Or.inl (Link.owned.inj (List.mem_singleton.mp hk))

theorem addSplice (h : g.OwnsOnce) (hlabelled : g.IsLabelled) (n source : NodeId) :
    (g.addLink n (.spliced source)).OwnsOnce := by
  refine h.setLinks g.size (fun m hm => Nat.lt_irrefl _ (hlabelled.lt_size hm))
    (fun k hk => Or.inr (by simpa using hk)) ?_
  have hnone : Link.ownedBy [.spliced source] = [] := rfl
  rw [Link.ownedBy_append, hnone, List.append_nil]
  exact h.once n

theorem apply (h : g.OwnsOnce) (hlabelled : g.IsLabelled) (operation : Operation) :
    (g.apply operation).OwnsOnce := by
  cases operation with
  | addRoot => exact h.addNode none
  | child n s => exact h.ensureChild hlabelled n s
  | branch n path => exact h.ensureBranch hlabelled n
  | catchAll n => exact h.setCatchAll hlabelled n
  | merge n source =>
      rcases g.apply_merge_cases n source with hsame | ⟨_, _, hadd⟩
      · rw [hsame]
        exact h
      · rw [hadd]
        exact h.addSplice hlabelled n source

theorem foldl_apply (operations : List Operation) (h : g.OwnsOnce) (hlabelled : g.IsLabelled) :
    (operations.foldl Graph.apply g).OwnsOnce := by
  induction operations generalizing g with
  | nil => exact h
  | cons operation rest ih =>
      exact ih (h.apply hlabelled operation) (hlabelled.apply operation)

/-- Whatever is built, a child has one owner. -/
theorem build (operations : List Operation) : (Graph.build operations).OwnsOnce :=
  foldl_apply operations ⟨IsTidy.empty.owned.owner, IsTidy.empty.once⟩
    IsTidy.empty.owned.isLabelled

theorem nodup_children (h : g.OwnsOnce) (n : NodeId) : (g.children n).Nodup :=
  Graph.nodup_children h.once (fun _ _ _ hm hm' => h.owner hm hm') n

end OwnsOnce

/-- **The children of a node are complete, and none is there twice.** Whatever is built, they are
just the nodes that are owned by the node itself or by one that one or more splices lead to, and
each of them is listed once. Different splices can lead to one node, and splices can lead back to
the node that they start from. -/
theorem children_complete_and_once (operations : List Operation) (n : NodeId) :
    (∀ c, c ∈ (build operations).children n ↔ .owned c ∈ (build operations).links n ∨
      ∃ m, Relation.TransGen (build operations).Splices n m ∧
        .owned c ∈ (build operations).links m) ∧
    ((build operations).children n).Nodup := by
  have howns : (build operations).OwnsOnce := .build operations
  exact ⟨fun c => mem_children_iff_reached, howns.nodup_children n⟩

/-- Three roots that splice in each other have the same children, each in an order of its own. -/
example :
    let g := build [.addRoot, .addRoot, .merge 0 1, .merge 0 2, .merge 1 2, .merge 2 0,
      .child 2 (.name "a"), .child 1 (.name "b"), .child 0 (.name "c")]
    g.children 0 = [3, 4, 5] ∧ g.children 1 = [5, 3, 4] ∧ g.children 2 = [4, 5, 3] := by
  decide +kernel

end FieldSelection.Graph
