import FieldSelection.Proofs.Context.Repetition
import FieldSelection.Proofs.Graph.Splices

/-!
# Contexts are where walks end

The names on the way to a place can be walked in many ways at once: by a field of that name and by
the wildcard, and by children that are spliced in from elsewhere, maybe from above. A context goes
all these ways in one step a name. It comes to everything as soon as one walk comes by a node that
admits everything, and the other walks do not count any more; otherwise no walk gets lost, and none
is made up.

Here a walk is said from its beginning, by the links of the graph. No search for children and no
context has a part in it.
-/

namespace FieldSelection

namespace Graph

variable {g : Graph} {n c k : NodeId} {name : String} {names more : List String}

/-- Whether a node is a child of another one: that owns it, or what is spliced in there does. -/
def IsChild (g : Graph) (n c : NodeId) : Prop :=
  ∃ source, g.Sees n source ∧ .owned c ∈ g.links source

/-- Whether a node matches a name: it is labelled with it or with the wildcard. -/
def Matches (g : Graph) (n : NodeId) (name : String) : Prop :=
  g.label n = some (.name name) ∨ g.label n = some .wildcard

/-- A walk from a node down to one of its descendants. The nodes that it comes to match these
names. -/
inductive Walk (g : Graph) : NodeId → List String → NodeId → Prop where
  /-- Without a name, it stays where it is. -/
  | here {n : NodeId} : Walk g n [] n
  /-- With one more name, it goes on from a child. -/
  | down {n c k : NodeId} {name : String} {names : List String} :
      g.IsChild n c → g.Matches c name → Walk g c names k → Walk g n (name :: names) k

/-- A node that leaves open what is below it: a leaf does, and so does one with a wildcard child
that does. -/
inductive LeavesOpen (g : Graph) : NodeId → Prop where
  /-- The node has no children. -/
  | leaf {n : NodeId} : (∀ c, ¬ g.IsChild n c) → LeavesOpen g n
  /-- A wildcard child leaves it open. -/
  | wildcard {n c : NodeId} : g.IsChild n c → g.label c = some .wildcard → LeavesOpen g c →
      LeavesOpen g n

/-- Whether a node admits everything below it: it leaves that open, or the catch-all is its
child. -/
def AdmitsEverything (g : Graph) (n : NodeId) : Prop :=
  g.LeavesOpen n ∨ ∃ c, g.IsChild n c ∧ g.label c = some .catchAll

theorem mem_children_iff_isChild : c ∈ g.children n ↔ g.IsChild n c := mem_children_iff_owned

theorem isLeaf_iff_forall : g.isLeaf n = true ↔ ∀ c, ¬ g.IsChild n c := by
  simp only [isLeaf_iff, List.eq_nil_iff_forall_not_mem, mem_children_iff_isChild]

theorem leadsToLeaf_iff_leavesOpen : g.LeadsToLeaf n ↔ g.LeavesOpen n := by
  constructor
  · intro h
    induction h with
    | leaf hleaf => exact .leaf (isLeaf_iff_forall.mp hleaf)
    | step hc _ ih =>
        obtain ⟨hchild, hwild⟩ := mem_wildcardChildren.mp hc
        exact .wildcard (mem_children_iff_isChild.mp hchild) hwild ih
  · intro h
    induction h with
    | leaf hnone => exact .leaf (isLeaf_iff_forall.mpr hnone)
    | wildcard hchild hwild _ ih =>
        exact .step (mem_wildcardChildren.mpr ⟨mem_children_iff_isChild.mpr hchild, hwild⟩) ih

theorem selects_iff_matches : g.selects c name = true ↔ g.Matches c name := by
  rw [selects, Matches]
  cases g.label c with
  | none => simp
  | some s => cases s <;> simp [Segment.matchesName]

theorem admitsAll_iff_admitsEverything : g.admitsAll n = true ↔ g.AdmitsEverything n := by
  simp [admitsAll, AdmitsEverything, isOpenLeaf_iff_leadsToLeaf, leadsToLeaf_iff_leavesOpen,
    isCatchAll, mem_children_iff_isChild]

/-- A walk along more names goes on where one along the first names ends. -/
theorem walk_append_iff :
    g.Walk n (names ++ more) k ↔ ∃ m, g.Walk n names m ∧ g.Walk m more k := by
  induction names generalizing n with
  | nil =>
      constructor
      · exact fun h => ⟨n, .here, h⟩
      · rintro ⟨m, ⟨⟩, h⟩
        exact h
  | cons name names ih =>
      constructor
      · rintro (_ | ⟨hchild, hmatch, h⟩)
        obtain ⟨m, hm, hk⟩ := ih.mp h
        exact ⟨m, .down hchild hmatch hm, hk⟩
      · rintro ⟨m, _ | ⟨hchild, hmatch, hm⟩, hk⟩
        exact .down hchild hmatch (ih.mpr ⟨m, hm, hk⟩)

theorem walk_singleton_iff : g.Walk n [name] c ↔ g.IsChild n c ∧ g.Matches c name := by
  constructor
  · rintro (_ | ⟨hchild, hmatch, ⟨⟩⟩)
    exact ⟨hchild, hmatch⟩
  · rintro ⟨hchild, hmatch⟩
    exact .down hchild hmatch .here

end Graph

namespace Tree

variable {t : Tree} {names : List String} {n : NodeId}

/-- The nodes that names lead to are those where walks end. -/
theorem leadsTo_iff_walk : t.LeadsTo names n ↔ t.graph.Walk t.root names n := by
  induction names using List.reverseRecOn generalizing n with
  | nil =>
      rw [leadsTo_nil_iff]
      constructor
      · rintro rfl
        exact .here
      · rintro ⟨⟩
        rfl
  | append_singleton names name ih =>
      simp only [leadsTo_concat_iff, Graph.walk_append_iff, Graph.walk_singleton_iff, ih,
        Graph.selects_iff_matches, Graph.mem_children_iff_isChild]

theorem keepsAll_iff_walk : t.KeepsAll names ↔
    ∃ j ≤ names.length, ∃ n, t.graph.Walk t.root (names.take j) n ∧ t.graph.AdmitsEverything n := by
  simp only [KeepsAll, leadsTo_iff_walk, Graph.admitsAll_iff_admitsEverything]
  constructor
  · rintro ⟨before, hbefore, hn⟩
    refine ⟨before.length, hbefore.length_le, ?_⟩
    rwa [← List.prefix_iff_eq_take.mp hbefore]
  · rintro ⟨j, _, hn⟩
    exact ⟨names.take j, List.take_prefix j names, hn⟩

/-- A context that lists nodes lists at least one. -/
theorem ne_nil_of_contextAt {ids : List NodeId} (h : t.contextAt names = some (.nodes ids)) :
    ids ≠ [] := by
  cases names using List.reverseRecOn with
  | nil =>
      rw [contextAt_nil, Context.ofNode] at h
      split at h
      · exact absurd h (by simp)
      · cases h
        exact List.cons_ne_nil _ _
  | append_singleton names name =>
      rw [contextAt_concat] at h
      obtain ⟨context, _, hfield⟩ := Option.bind_eq_some_iff.mp h
      cases context with
      | all => exact absurd hfield (by simp [Context.field])
      | nodes before => exact (Context.union_eq_nodes_iff.mp hfield).2

/-- **A context simulates all walks at once.** It is everything exactly if a walk along the first
names ends in a node that admits everything. Otherwise it is nothing exactly if there is no walk
along the names, and else it lists the nodes where the walks end. -/
theorem contextAt_simulates_walks (t : Tree) (names : List String) :
    (t.contextAt names = some .all ↔ ∃ j ≤ names.length, ∃ n,
      t.graph.Walk t.root (names.take j) n ∧ t.graph.AdmitsEverything n) ∧
    (t.contextAt names ≠ some .all →
      (t.contextAt names = none ↔ ∀ n, ¬ t.graph.Walk t.root names n) ∧
      ∀ context, t.contextAt names = some context →
        ∃ ids, context = .nodes ids ∧ ids ≠ [] ∧ ∀ n, n ∈ ids ↔ t.graph.Walk t.root names n) := by
  refine ⟨contextAt_eq_all_iff.trans keepsAll_iff_walk, fun hnot => ?_⟩
  have hwalks : ∀ n, Context.Holds (t.contextAt names) n ↔ t.graph.Walk t.root names n := by
    intro n
    rw [holds_contextAt_iff (mt contextAt_eq_all_iff.mpr hnot), leadsTo_iff_walk]
  cases hcontext : t.contextAt names with
  | none =>
      rw [hcontext] at hwalks
      refine ⟨iff_of_true rfl fun n hn => ?_, fun _ h => absurd h (by simp)⟩
      exact Context.not_holds_none n ((hwalks n).mpr hn)
  | some context =>
      cases context with
      | all => exact absurd hcontext hnot
      | nodes ids =>
          have hne := ne_nil_of_contextAt hcontext
          simp only [hcontext, Context.holds_nodes] at hwalks
          refine ⟨iff_of_false (by simp) fun hnone => ?_, ?_⟩
          · obtain ⟨n, hn⟩ := List.exists_mem_of_ne_nil ids hne
            exact hnone n ((hwalks n).mp hn)
          · rintro _ ⟨⟩
            exact ⟨ids, rfl, hne, hwalks⟩

-- Two walks match the name, one by the name itself and one by the wildcard.
example : (Tree.ofPaths [[.name "a", .name "x"], [.wildcard, .name "y"]]).contextAt ["a"] =
    some (.nodes [1, 3]) := by
  decide +kernel

end Tree

end FieldSelection
