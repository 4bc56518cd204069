import FieldSelection.Proofs.Graph.Operations
import FieldSelection.Proofs.Graph.Ownership

/-!
# Labels of siblings

A child is made only where no child has its label, and a merge is refused where it would bring a
second child of one label. Both look at one node, at one time. But a splice is looked up whenever
children are read, so what is added to a root later shows up wherever the root was spliced in
before, and there nobody looks whether the label is new. So siblings can come to have one label.

They cannot if there is room for the change at each node at which it shows up: if no node that sees
the changed one has another child with a label that is added. For a node that is not spliced in,
there is always room, and where a root is spliced in that is not complete yet, children can still be
added as long as their labels are new at every node that sees it. No other operations will do: as
soon as one is made for which there is no room, two siblings have one label.
-/

namespace FieldSelection.Graph

variable {g g' : Graph} {n m p k c c' source : NodeId} {s : Segment}

/-! ## Room for a change -/

/-- Whether a node is spliced into another one, or into itself. -/
def IsSpliced (g : Graph) (n : NodeId) : Prop := ∃ m, .spliced n ∈ g.links m

/-- Whether a node can have a child with this label: whoever sees the node and has such a child has
it from there. -/
def HasRoomFor (g : Graph) (n : NodeId) (s : Segment) : Prop :=
  ∀ m, g.Sees m n → s ∈ g.childLabels m → s ∈ g.childLabels n

/-- Whether a node can have the catch-all in place of its children: whoever sees the node has no
catch-all from elsewhere. -/
def HasRoomForCatchAll (g : Graph) (n : NodeId) : Prop :=
  ∀ m, g.Sees m n → .catchAll ∉ (g.setLinks n []).childLabels m

/-- Whether a node can have the children of a root: whoever sees the node has no other child with
one of their labels. -/
def HasRoomForChildren (g : Graph) (n source : NodeId) : Prop :=
  ∀ m, g.Sees m n → ∀ c ∈ g.children m, ∀ c' ∈ g.children source,
    g.label c = g.label c' → c = c'

/-- Whether an operation is about nodes that are there. -/
def Operation.IsInside (g : Graph) : Operation → Prop
  | .addRoot => True
  | .child n _ => n < g.size
  | .branch n _ => n < g.size
  | .catchAll n => n < g.size
  | .merge n source => n < g.size ∧ source < g.size

/-- Whether there is room for what an operation adds. Of a path, this is a question for the first
segment only. A merge that is refused adds nothing. -/
def Operation.HasRoom (g : Graph) : Operation → Prop
  | .addRoot => True
  | .child n s => g.HasRoomFor n s
  | .branch n path => ∀ s ∈ path.head?, g.HasRoomFor n s
  | .catchAll n => g.HasRoomForCatchAll n
  | .merge n source =>
    g.isRoot source = true → g.sharedLabels n source = [] → g.HasRoomForChildren n source

/-- Whether an operation is about nodes that are there, and there is room for what it adds. -/
def Operation.IsOrderly (g : Graph) (operation : Operation) : Prop :=
  operation.IsInside g ∧ operation.HasRoom g

/-- Whether each of several operations is like this when its turn comes. -/
def Each (P : Graph → Operation → Prop) : Graph → List Operation → Prop
  | _, [] => True
  | g, operation :: rest => P g operation ∧ Each P (g.apply operation) rest

/-- Whether operations are orderly, one after the other. -/
def AreOrderly (g : Graph) (operations : List Operation) : Prop :=
  Each Operation.IsOrderly g operations

/-- Whether operations are about nodes that are there, one after the other. -/
def AreInside (g : Graph) (operations : List Operation) : Prop :=
  Each Operation.IsInside g operations

theorem Each.imp {P Q : Graph → Operation → Prop} {operations : List Operation}
    (hpq : ∀ g operation, P g operation → Q g operation) (h : Each P g operations) :
    Each Q g operations := by
  induction operations generalizing g with
  | nil => trivial
  | cons operation rest ih => exact ⟨hpq g operation h.1, ih h.2⟩

theorem Each.of_append {P : Graph → Operation → Prop} {before after : List Operation}
    (h : Each P g (before ++ after)) : Each P g before := by
  induction before generalizing g with
  | nil => trivial
  | cons operation rest ih => exact ⟨h.1, ih h.2⟩

/-! ### Decisions -/

/-- Only nodes can see another node, so all who see it are like this if all nodes are who do. -/
theorem forall_sees_iff {P : NodeId → Prop} :
    (∀ m, g.Sees m n → P m) ↔ P n ∧ ∀ m, m < g.size → g.Sees m n → P m := by
  constructor
  · intro h
    exact ⟨h n .self, fun m _ hm => h m hm⟩
  · rintro ⟨hn, hall⟩ m hm
    rcases Nat.lt_or_ge m g.size with hlt | hge
    · exact hall m hlt hm
    · rw [eq_of_sees_of_size_le hge hm] at hn
      exact hn

instance (g : Graph) (n : NodeId) (P : NodeId → Prop) [DecidablePred P] :
    Decidable (∀ m, g.Sees m n → P m) :=
  decidable_of_iff _ forall_sees_iff.symm

instance (g : Graph) (n : NodeId) (s : Segment) : Decidable (g.HasRoomFor n s) :=
  inferInstanceAs (Decidable (∀ m, g.Sees m n → s ∈ g.childLabels m → s ∈ g.childLabels n))

instance (g : Graph) (n : NodeId) : Decidable (g.HasRoomForCatchAll n) :=
  inferInstanceAs (Decidable (∀ m, g.Sees m n → .catchAll ∉ (g.setLinks n []).childLabels m))

instance (g : Graph) (n source : NodeId) : Decidable (g.HasRoomForChildren n source) :=
  inferInstanceAs (Decidable (∀ m, g.Sees m n → ∀ c ∈ g.children m, ∀ c' ∈ g.children source,
    g.label c = g.label c' → c = c'))

instance (g : Graph) : (operation : Operation) → Decidable (operation.IsInside g)
  | .addRoot => .isTrue trivial
  | .child n _ => inferInstanceAs (Decidable (n < g.size))
  | .branch n _ => inferInstanceAs (Decidable (n < g.size))
  | .catchAll n => inferInstanceAs (Decidable (n < g.size))
  | .merge n source => inferInstanceAs (Decidable (n < g.size ∧ source < g.size))

instance (g : Graph) : (operation : Operation) → Decidable (operation.HasRoom g)
  | .addRoot => .isTrue trivial
  | .child n s => inferInstanceAs (Decidable (g.HasRoomFor n s))
  | .branch n path => inferInstanceAs (Decidable (∀ s ∈ path.head?, g.HasRoomFor n s))
  | .catchAll n => inferInstanceAs (Decidable (g.HasRoomForCatchAll n))
  | .merge n source =>
    inferInstanceAs (Decidable (g.isRoot source = true → g.sharedLabels n source = [] →
      g.HasRoomForChildren n source))

instance (g : Graph) (operation : Operation) : Decidable (operation.IsOrderly g) :=
  inferInstanceAs (Decidable (operation.IsInside g ∧ operation.HasRoom g))

/-- Decides whether each of several operations is like this. -/
def decideEach (P : Graph → Operation → Prop) [∀ g operation, Decidable (P g operation)] :
    (g : Graph) → (operations : List Operation) → Decidable (Each P g operations)
  | _, [] => .isTrue trivial
  | g, operation :: rest =>
    have := decideEach P (g.apply operation) rest
    inferInstanceAs (Decidable (P g operation ∧ Each P (g.apply operation) rest))

instance (g : Graph) (operations : List Operation) : Decidable (AreOrderly g operations) :=
  decideEach Operation.IsOrderly g operations

/-! ### Nodes that are not spliced in -/

/-- A node that is not spliced in is seen by itself only. -/
theorem Sees.eq_of_not_isSpliced (h : g.Sees n m) (hm : ¬ g.IsSpliced m) : m = n := by
  cases h with
  | self => rfl
  | splice _ hr _ => exact absurd ⟨_, hr⟩ hm

/-- So there is room for any child. -/
theorem hasRoomFor_of_not_isSpliced (hn : ¬ g.IsSpliced n) (s : Segment) : g.HasRoomFor n s := by
  intro m hm hs
  rwa [hm.eq_of_not_isSpliced hn]

/-! ## Graphs whose siblings have different labels -/

/-- Whether siblings have different labels. -/
def SiblingsDiffer (g : Graph) : Prop :=
  ∀ n c c', c ∈ g.children n → c' ∈ g.children n → g.label c = g.label c' → c = c'

/-- What is true of a graph while operations are orderly. -/
structure IsTidy (g : Graph) : Prop where
  /-- A child belongs to one node. -/
  owned : g.WellOwned
  /-- It belongs to it once. -/
  once : ∀ n, (g.owned n).Nodup
  /-- What is spliced in are the children of roots. -/
  root : ∀ n r, .spliced r ∈ g.links n → r < g.size ∧ g.label r = none
  /-- Siblings have different labels. -/
  siblings : g.SiblingsDiffer

theorem siblingsDiffer_of_nodup (h : ∀ n, ((g.children n).map g.label).Nodup) :
    g.SiblingsDiffer := by
  intro n c c' hc hc' heq
  exact List.inj_on_of_nodup_map (h n) hc hc' heq

namespace IsTidy

theorem lt_of_mem_children (h : g.IsTidy) (hc : c ∈ g.children n) : c < g.size := by
  obtain ⟨m, _, hm⟩ := mem_children_iff_owned.mp hc
  exact h.owned.lt_size hm

theorem nodup_labels (h : g.IsTidy) (n : NodeId) : ((g.children n).map g.label).Nodup := by
  have hnodup := nodup_children h.once (fun _ _ _ hm hm' => h.owned.owner hm hm') n
  exact hnodup.map_on fun c hc c' hc' heq => h.siblings n c c' hc hc' heq

theorem nodup_labels_owned (h : g.IsTidy) (n : NodeId) : ((g.owned n).map g.label).Nodup := by
  refine (h.once n).map_on fun c hc c' hc' heq => h.siblings n c c' ?_ ?_ heq
  · exact mem_children_iff_owned.mpr ⟨n, .self, mem_owned.mp hc⟩
  · exact mem_children_iff_owned.mpr ⟨n, .self, mem_owned.mp hc'⟩

/-- A node with a label is not spliced in. -/
theorem not_isSpliced (h : g.IsTidy) (hs : g.label n = some s) : ¬ g.IsSpliced n := by
  rintro ⟨m, hm⟩
  have hnone := (h.root m n hm).2
  rw [hs] at hnone
  exact absurd hnone (by simp)

theorem empty : Tree.empty.graph.IsTidy := by
  have hlinks : ∀ n, Tree.empty.graph.links n = [] := links_addNode none
  refine ⟨WellOwned.empty.addNode none, fun n => ?_, fun n r hr => ?_, fun n c c' hc => ?_⟩
  · rw [Graph.owned, hlinks]
    exact List.nodup_nil
  · rw [hlinks] at hr
    exact absurd hr List.not_mem_nil
  · have howning : Tree.empty.graph.links n = Link.owning [] := hlinks n
    rw [children_of_owning howning] at hc
    exact absurd hc List.not_mem_nil

/-- A change shows up at the nodes that see the changed one, so only there something has to be seen
to. -/
theorem of_changesAt (h : g.IsTidy) (hchange : ChangesAt g g' p)
    (howned : g'.WellOwned) (honce : (g'.owned p).Nodup)
    (hroot : ∀ r, .spliced r ∈ g'.links p → r < g.size ∧ g.label r = none)
    (hsiblings : ∀ m, g.Sees m p → ∀ c c', c ∈ g'.children m → c' ∈ g'.children m →
      g'.label c = g'.label c' → c = c') : g'.IsTidy := by
  refine ⟨howned, fun n => ?_, fun n r hr => ?_, fun n c c' hc hc' heq => ?_⟩
  · by_cases hn : n = p
    · rwa [hn]
    · rw [Graph.owned, hchange.links n hn]
      exact h.once n
  · have hold : r < g.size ∧ g.label r = none := by
      by_cases hn : n = p
      · rw [hn] at hr
        exact hroot r hr
      · rw [hchange.links n hn] at hr
        exact h.root n r hr
    exact ⟨Nat.lt_of_lt_of_le hold.1 hchange.size_le, by rw [hchange.label r hold.1, hold.2]⟩
  · by_cases hn : g.Sees n p
    · exact hsiblings n hn c c' hc hc' heq
    · -- where the changed node is not seen, the children are those that were there
      have hsame : ∀ x, x ∈ g'.children n → x ∈ g.children n := by
        intro x hx
        obtain ⟨m, hm, hx⟩ := mem_children_iff_owned.mp hx
        have hm := (hchange.sees_iff hn fun n r hr => (h.root n r hr).1).mp hm
        have hne : m ≠ p := by
          intro heq
          rw [heq] at hm
          exact hn hm
        rw [hchange.links m hne] at hx
        exact mem_children_iff_owned.mpr ⟨m, hm, hx⟩
      have hc := hsame c hc
      have hc' := hsame c' hc'
      rw [hchange.label c (h.lt_of_mem_children hc),
        hchange.label c' (h.lt_of_mem_children hc')] at heq
      exact h.siblings n c c' hc hc' heq

/-! ## Operations, one by one -/

theorem addRoot (h : g.IsTidy) : g.addRoot.1.IsTidy := by
  have hlinks : ∀ n, g.addRoot.1.links n = g.links n := links_addNode none
  have hnil : g.addRoot.1.links g.size = [] := by
    rw [hlinks, links_eq_nil_of_size_le (Nat.le_refl _)]
  refine h.of_changesAt (g.changesAt_addNode none g.size) (h.owned.addNode none) ?_ ?_ ?_
  · rw [Graph.owned, hnil]
    exact List.nodup_nil
  · intro r hr
    rw [hnil] at hr
    exact absurd hr List.not_mem_nil
  · -- the new root is seen by itself only, and has no children
    intro m hm c c' hc
    have hnew : ¬ g.IsSpliced g.size := by
      rintro ⟨m, hm⟩
      exact Nat.lt_irrefl _ (h.root m _ hm).1
    rw [← hm.eq_of_not_isSpliced hnew] at hc
    have howning : g.addRoot.1.links g.size = Link.owning [] := hnil
    rw [children_of_owning howning] at hc
    exact absurd hc List.not_mem_nil

/-- Some children of a node, and a new one with a label that they do not have. -/
theorem differ_of_new {old : List NodeId} (h : g.IsTidy) (hold : old ⊆ g.children m)
    (hmem : ∀ c ∈ g'.children m, c ∈ old ∨ c = k) (hnew : g'.label k = some s)
    (hlabel : ∀ c, c < g.size → g'.label c = g.label c) (hfresh : ∀ c ∈ old, g.label c ≠ some s)
    (c c' : NodeId) (hc : c ∈ g'.children m) (hc' : c' ∈ g'.children m)
    (heq : g'.label c = g'.label c') : c = c' := by
  have hsame : ∀ c ∈ old, g'.label c = g.label c :=
    fun c hc => hlabel c (h.lt_of_mem_children (hold hc))
  rcases hmem c hc with hc | rfl
  · rcases hmem c' hc' with hc' | rfl
    · rw [hsame c hc, hsame c' hc'] at heq
      exact h.siblings m c c' (hold hc) (hold hc') heq
    · rw [hsame c hc, hnew] at heq
      exact absurd heq (hfresh c hc)
  · rcases hmem c' hc' with hc' | rfl
    · rw [hsame c' hc', hnew] at heq
      exact absurd heq.symm (hfresh c' hc')
    · rfl

/-- With a child that has a new label, a node owns its children as before. -/
theorem wellOwned_withChild (h : g.IsTidy) (hlt : p < g.size) (hfresh : s ∉ g.childLabels p) :
    (g.withChild p s).WellOwned := by
  refine h.owned.addChild hlt (fun k hk => ?_) fun cs hcs => ?_
  · rw [links_addNode, List.mem_append, List.mem_singleton] at hk
    exact hk.symm.imp_left Link.owned.inj
  · -- a node that owns all its children has these and the new one
    have hall : cs = g.owned p ++ [g.size] := by
      have hown : Link.ownedBy (Link.owning cs) = cs := by
        rw [Link.ownedBy, Link.owning, List.filterMap_map]
        exact List.filterMap_some
      rw [← hown, ← hcs, links_addNode, Link.ownedBy_append]
      rfl
    have hold : (g.owned p).map (g.addNode (some s)).1.label = (g.owned p).map g.label :=
      List.map_congr_left fun k hk => label_addNode_of_lt _ (h.owned.lt_size (mem_owned.mp hk))
    rw [hall, List.map_append, hold, List.map_singleton, label_addNode_size]
    refine List.Nodup.append (h.nodup_labels_owned p) (List.nodup_singleton _) ?_
    rw [List.disjoint_singleton]
    intro hs
    obtain ⟨k, hk, heq⟩ := List.mem_map.mp hs
    have hmem : k ∈ g.children p := mem_children_iff_owned.mpr ⟨p, .self, mem_owned.mp hk⟩
    exact hfresh (mem_childLabels.mpr ⟨k, hmem, heq⟩)

/-- A child with a label that nobody who sees the node has among its children. -/
theorem withChild (h : g.IsTidy) (hlt : p < g.size)
    (hroom : ∀ m, g.Sees m p → s ∉ g.childLabels m) : (g.withChild p s).IsTidy := by
  have hlinks : (g.withChild p s).links p = g.links p ++ [.owned g.size] := links_withChild_self hlt
  refine h.of_changesAt (g.changesAt_withChild p s) (h.wellOwned_withChild hlt (hroom p .self))
    ?_ ?_ ?_
  · have howned : (g.withChild p s).owned p = g.owned p ++ [g.size] := by
      rw [Graph.owned, hlinks, Link.ownedBy_append]
      rfl
    rw [howned]
    refine List.Nodup.append (h.once p) (List.nodup_singleton _) ?_
    rw [List.disjoint_singleton]
    intro hmem
    exact Nat.lt_irrefl _ (h.owned.lt_size (mem_owned.mp hmem))
  · intro r hr
    rw [hlinks] at hr
    exact h.root p r (by simpa using hr)
  · intro m hm
    refine h.differ_of_new (List.Subset.refl _) (fun c hc => ?_) label_withChild_size
      (fun c hc => label_withChild_of_lt hc)
      fun c hc heq => hroom m hm (mem_childLabels.mpr ⟨c, hc, heq⟩)
    simpa using mem_children_of_links (fun _ _ => mem_links_withChild)
      (fun k r hr => (h.root k r hr).1) hc

theorem ensureChild (h : g.IsTidy) (hlt : p < g.size) (hroom : g.HasRoomFor p s) :
    (g.ensureChild p s).1.IsTidy := by
  cases hchild : g.child? p s with
  | some c =>
      rw [ensureChild_of_some hchild]
      exact h
  | none =>
      rw [ensureChild_of_none hchild]
      refine h.withChild hlt fun m hm hs => ?_
      exact child?_eq_none_iff.mp hchild (hroom m hm hs)

theorem ensureBranch (path : Path) (h : g.IsTidy) (hlt : p < g.size)
    (hroom : ∀ s ∈ path.head?, g.HasRoomFor p s) : (g.ensureBranch p path).1.IsTidy := by
  induction path generalizing g p with
  | nil => exact h
  | cons s rest ih =>
      -- the path goes on from a node with a label, and that is not spliced in
      have htidy := h.ensureChild hlt (hroom s rfl)
      obtain ⟨-, hlabel⟩ := g.extends_ensureChild p s
      refine ih htidy (lt_size_of_label hlabel) fun s' _ => ?_
      exact hasRoomFor_of_not_isSpliced (htidy.not_isSpliced hlabel) s'

theorem setCatchAll (h : g.IsTidy) (hlt : p < g.size) (hroom : g.HasRoomForCatchAll p) :
    (g.setCatchAll p).1.IsTidy := by
  have hlinks : (g.setCatchAll p).1.links p = Link.owning [g.size] := links_setCatchAll_self hlt
  refine h.of_changesAt (g.changesAt_setCatchAll p) (h.owned.setCatchAll hlt) ?_ ?_ ?_
  · rw [Graph.owned, hlinks]
    exact List.nodup_singleton _
  · intro r hr
    rw [hlinks] at hr
    exact absurd hr (by simp [Link.owning])
  · -- whoever sees the node has fewer children than before, and the new one
    intro m hm
    have hcut := extends_of_setLinks_nil hlt
    refine h.differ_of_new (hcut.children_subset m) (fun c hc => ?_) label_setCatchAll_size
      (fun c hc => label_setCatchAll_of_lt hc) fun c hc heq => ?_
    · have hold : ∀ k link, link ∈ (g.setCatchAll p).1.links k →
          link ∈ (g.setLinks p []).links k ∨ link = .owned g.size := by
        intro k link hlink
        by_cases hk : k = p
        · rw [hk, hlinks, Link.owning, List.map_singleton, List.mem_singleton] at hlink
          exact Or.inr hlink
        · rw [links_setCatchAll_of_ne hk] at hlink
          rw [links_setLinks_of_ne _ hk]
          exact Or.inl hlink
      have hinside : ∀ k r, .spliced r ∈ (g.setLinks p []).links k →
          r < (g.setLinks p []).size := by
        intro k r hr
        rw [size_setLinks]
        exact (h.root k r (hcut.links k hr)).1
      simpa using mem_children_of_links hold hinside hc
    · refine hroom m hm (mem_childLabels.mpr ⟨c, hc, ?_⟩)
      rw [label_setLinks, heq]

/-- A root whose children have other labels than all that is there where they show up. -/
theorem addSplice (h : g.IsTidy) (hlt : p < g.size) (hsource : source < g.size)
    (hroot : g.label source = none) (hroom : g.HasRoomForChildren p source) :
    (g.addLink p (.spliced source)).IsTidy := by
  have hmem : ∀ m c, c ∈ (g.addLink p (.spliced source)).children m →
      c ∈ g.children m ∨ c ∈ g.children source := by
    intro m c hc
    simpa using mem_children_of_links (fun _ _ => mem_links_addLink)
      (fun k r hr => (h.root k r hr).1) hc
  refine h.of_changesAt (g.changesAt_addLink p _) (h.owned.addSplice hlt source) ?_ ?_ ?_
  · have hsame : (g.addLink p (.spliced source)).owned p = g.owned p := by
      rw [Graph.owned, links_addLink_self _ hlt, Link.ownedBy_append]
      exact List.append_nil _
    rw [hsame]
    exact h.once p
  · intro r hr
    rcases mem_links_addLink hr with hold | hnew
    · exact h.root p r hold
    · obtain rfl := Link.spliced.inj hnew
      exact ⟨hsource, hroot⟩
  · intro m hm c c' hc hc' heq
    rw [label_addLink, label_addLink] at heq
    rcases hmem m c hc with hc | hc
    · rcases hmem m c' hc' with hc' | hc'
      · exact h.siblings m c c' hc hc' heq
      · exact hroom m hm c hc c' hc' heq
    · rcases hmem m c' hc' with hc' | hc'
      · exact (hroom m hm c' hc' c hc heq.symm).symm
      · exact h.siblings source c c' hc hc' heq

/-! ## Many operations -/

/-- **An orderly operation leaves siblings with different labels.** -/
theorem apply {operation : Operation} (h : g.IsTidy) (ho : operation.IsOrderly g) :
    (g.apply operation).IsTidy := by
  obtain ⟨hinside, hroom⟩ := ho
  cases operation with
  | addRoot => exact h.addRoot
  | child n s => exact h.ensureChild hinside hroom
  | branch n path => exact h.ensureBranch path hinside hroom
  | catchAll n => exact h.setCatchAll hinside hroom
  | merge n source =>
      obtain ⟨hn, hsource⟩ := hinside
      rcases g.apply_merge_cases n source with hsame | ⟨hroot, hshared, hadd⟩
      · rw [hsame]
        exact h
      · have hnone : g.label source = none := by simpa [isRoot] using hroot
        rw [hadd]
        exact h.addSplice hn hsource hnone (hroom hroot hshared)

theorem foldl_apply (operations : List Operation) (h : g.IsTidy) (ho : AreOrderly g operations) :
    (operations.foldl Graph.apply g).IsTidy := by
  induction operations generalizing g with
  | nil => exact h
  | cons operation rest ih => exact ih (h.apply ho.1) ho.2

/-! ## No other operations will do -/

/-- A node that comes to see a new one had no child with its label before, and keeps none. -/
theorem not_mem_childLabels {g₀ : Graph} (h : g.IsTidy) (hless : Extends g₀ g)
    (hmore : Extends g₀ g') (hdiffer : g'.SiblingsDiffer) (hnew : k ∈ g'.children m)
    (hk : g.size ≤ k) (hs : g'.label k = some s) : s ∉ g₀.childLabels m := by
  intro hmem
  obtain ⟨c, hc, hcs⟩ := mem_childLabels.mp hmem
  have hlt := h.lt_of_mem_children (hless.children_subset m hc)
  have hlt₀ : c < g₀.size := lt_size_of_label hcs
  have hsame : c = k := by
    refine hdiffer m c k (hmore.children_subset m hc) hnew ?_
    rw [hmore.label c hlt₀, hcs, hs]
  exact Nat.lt_irrefl _ (Nat.lt_of_lt_of_le (hsame ▸ hlt) hk)

/-- Whatever is done after it, a child needs room. -/
theorem hasRoomFor (h : g.IsTidy) (hlt : p < g.size) (hmore : Extends (g.ensureChild p s).1 g')
    (hdiffer : g'.SiblingsDiffer) : g.HasRoomFor p s := by
  intro m hm hs
  by_contra hnot
  have hchild := child?_eq_none_iff.mpr hnot
  rw [ensureChild_of_none hchild] at hmore
  have hnew : g.size ∈ (g.withChild p s).children m := by
    refine mem_children_iff_owned.mpr ⟨p, (g.changesAt_withChild p s).sees_changed hm, ?_⟩
    rw [links_withChild_self hlt]
    exact List.mem_append_right _ (List.mem_singleton_self _)
  refine h.not_mem_childLabels (.refl g) ((g.extends_withChild p s).trans hmore) hdiffer
    (hmore.children_subset m hnew) (Nat.le_refl _) ?_ hs
  rw [hmore.label g.size (by simp), label_withChild_size]

theorem hasRoomForCatchAll (h : g.IsTidy) (hlt : p < g.size)
    (hdiffer : (g.setCatchAll p).1.SiblingsDiffer) : g.HasRoomForCatchAll p := by
  intro m hm
  refine h.not_mem_childLabels (extends_of_setLinks_nil hlt) (extends_setCatchAll hlt) hdiffer
    ?_ (Nat.le_refl _) label_setCatchAll_size
  refine mem_children_iff_owned.mpr ⟨p, (g.changesAt_setCatchAll p).sees_changed hm, ?_⟩
  rw [links_setCatchAll_self hlt]
  exact List.mem_singleton_self _

theorem hasRoomForChildren (hlt : p < g.size) (hsource : source < g.size)
    (hdiffer : (g.addLink p (.spliced source)).SiblingsDiffer) :
    g.HasRoomForChildren p source := by
  have hextends := g.extends_addLink p (.spliced source)
  intro m hm c hc c' hc' heq
  -- who sees the node sees the root now, and what the root sees
  have hroot : (g.addLink p (.spliced source)).Sees m source := by
    refine .splice ((g.changesAt_addLink p _).sees_changed hm) ?_
      (Nat.lt_of_lt_of_le hsource hextends.size_le)
    rw [links_addLink_self _ hlt]
    exact List.mem_append_right _ (List.mem_singleton_self _)
  have hnew : c' ∈ (g.addLink p (.spliced source)).children m := by
    obtain ⟨k, hk, hc'⟩ := mem_children_iff_owned.mp (hextends.children_subset source hc')
    exact mem_children_iff_owned.mpr ⟨k, hroot.trans hk, hc'⟩
  refine hdiffer m c c' (hextends.children_subset m hc) hnew ?_
  rw [label_addLink, label_addLink, heq]

/-- **There is room for an operation if and only if it leaves siblings with different labels.** -/
theorem hasRoom_iff {operation : Operation} (h : g.IsTidy) (hinside : operation.IsInside g) :
    operation.HasRoom g ↔ (g.apply operation).SiblingsDiffer := by
  refine ⟨fun hroom => (h.apply ⟨hinside, hroom⟩).siblings, fun hdiffer => ?_⟩
  cases operation with
  | addRoot => trivial
  | child n s => exact h.hasRoomFor hinside (.refl _) hdiffer
  | branch n path =>
      cases path with
      | nil => exact fun s hs => absurd hs (by simp)
      | cons s rest =>
          intro s' hs'
          obtain rfl : s = s' := by simpa using hs'
          exact h.hasRoomFor hinside (extends_ensureBranch rest _ _) hdiffer
  | catchAll n => exact h.hasRoomForCatchAll hinside hdiffer
  | merge n source =>
      intro hroot hshared
      rw [apply_merge_of_shares_nothing hroot hshared] at hdiffer
      exact hasRoomForChildren hinside.1 hinside.2 hdiffer

/-- So it is for many operations, if siblings are looked at after each of them. -/
theorem areOrderly (operations : List Operation) (h : g.IsTidy) (hinside : AreInside g operations)
    (hdiffer : ∀ before, before <+: operations → (before.foldl Graph.apply g).SiblingsDiffer) :
    AreOrderly g operations := by
  induction operations generalizing g with
  | nil => trivial
  | cons operation rest ih =>
      obtain ⟨hinside, hrest⟩ := hinside
      have hone := hdiffer [operation] (List.cons_prefix_cons.mpr ⟨rfl, List.nil_prefix⟩)
      have ho : operation.IsOrderly g := ⟨hinside, (h.hasRoom_iff hinside).mpr hone⟩
      refine ⟨ho, ih (h.apply ho) hrest fun before hbefore => ?_⟩
      exact hdiffer (operation :: before) (List.cons_prefix_cons.mpr ⟨rfl, hbefore⟩)

end IsTidy

/-- **The operations for which there is room are those after each of which siblings have different
labels.** -/
theorem areOrderly_iff_nodup_labels (operations : List Operation) :
    AreOrderly Tree.empty.graph operations ↔
      AreInside Tree.empty.graph operations ∧
        ∀ before, before <+: operations → ∀ n,
          (((build before).children n).map (build before).label).Nodup := by
  constructor
  · intro h
    refine ⟨Each.imp (fun _ _ ho => ho.1) h, fun before hbefore n => ?_⟩
    obtain ⟨after, rfl⟩ := hbefore
    exact (IsTidy.empty.foldl_apply before (Each.of_append h)).nodup_labels n
  · rintro ⟨hinside, hnodup⟩
    refine IsTidy.empty.areOrderly operations hinside fun before hbefore => ?_
    exact siblingsDiffer_of_nodup (hnodup before hbefore)

/-- **Siblings have different labels** if there was room for what each operation added, be it at a
root that is spliced in already. -/
theorem nodup_labels_of_areOrderly {operations : List Operation}
    (h : AreOrderly Tree.empty.graph operations) (n : NodeId) :
    (((build operations).children n).map (build operations).label).Nodup :=
  (IsTidy.empty.foldl_apply operations h).nodup_labels n

/-- Two nodes splice in a root that is still empty. Then it gets children and children of children,
and the nodes get other children beside. -/
theorem nodup_labels_of_areOrderly_shared :
    let operations : List Operation :=
      [.addRoot, .merge 0 1, .branch 1 [.name "a", .wildcard], .branch 0 [.name "b", .name "c"],
        .merge 4 1, .child 1 (.name "d"), .child 0 (.name "d"), .merge 0 1, .catchAll 4]
    (AreOrderly Tree.empty.graph operations ∧
        ((build operations).children 0).map (build operations).label =
          [some (.name "a"), some (.name "d"), some (.name "b")]) ∧
      (((build operations).children 0).map (build operations).label).Nodup :=
  ⟨by decide +kernel, nodup_labels_of_areOrderly (by decide +kernel) 0⟩

/-- A root that gets a child after it was spliced in gives a node a second child of one label. -/
theorem siblings_share_label :
    let operations : List Operation :=
      [.child 0 (.name "a"), .addRoot, .merge 0 2, .child 2 (.name "a")]
    ((build operations).children 0).map (build operations).label =
      [some (.name "a"), some (.name "a")] := by
  decide +kernel

end FieldSelection.Graph
