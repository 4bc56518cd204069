import FieldSelection.Proofs.Graph.Collecting
import FieldSelection.Proofs.Graph.Owners

/-!
# What a merge does to its node

A merge adds one splice behind the links of its node. Where the children of the node were collected
before, they are collected in the same way, and then the walk follows the splice. It passes over
what it has followed for the node, so it may leave out what the other root splices in as well, up
to the node itself. Nothing is lost by that: a child that both come to has a label, and for such a
label the merge is refused. So what both see owns no children at all, and the walk finds the
children of the other root, all of them and in their order.
-/

namespace FieldSelection.Graph

variable {g : Graph} {n m k source : NodeId} {s : Segment} {cs : List NodeId} {links : List Link}
  {followed followed₁ other : List NodeId}

/-! ## Passing over nodes without children -/

/-- Whether nodes own no children and splice in only each other. -/
structure IsBarren (g : Graph) (K : NodeId → Prop) : Prop where
  /-- They own no children. -/
  owned : ∀ {m}, K m → g.owned m = []
  /-- What they splice in is of this kind. -/
  spliced : ∀ {m r}, K m → .spliced r ∈ g.links m → r < g.size → K r

variable {K P : NodeId → Prop}

/-- Among such nodes, no children are collected and only such nodes followed. -/
theorem Collects.of_isBarren (hK : g.IsBarren K) (h : g.Collects followed links cs followed₁)
    (howned : Link.ownedBy links = []) (hlinks : ∀ r, .spliced r ∈ links → r < g.size → K r) :
    cs = [] ∧ ∀ m ∈ followed₁, m ∈ followed ∨ K m := by
  induction h with
  | done => exact ⟨rfl, fun m hm => Or.inl hm⟩
  | owned => exact absurd howned (by simp [Link.ownedBy, Link.child?])
  | passed _ _ ih => exact ih howned fun r hr => hlinks r (List.mem_cons_of_mem _ hr)
  | @follow followed _ _ _ _ _ r _ hlt _ _ ihsource ihrest =>
      have hr : K r := hlinks r List.mem_cons_self hlt
      obtain ⟨rfl, hsource⟩ := ihsource (hK.owned hr) fun _ hs hslt => hK.spliced hr hs hslt
      obtain ⟨rfl, hrest⟩ := ihrest howned fun r hr => hlinks r (List.mem_cons_of_mem _ hr)
      refine ⟨rfl, fun m hm => ?_⟩
      rcases hrest m hm with hm | hm
      · rcases hsource m hm with hm | hm
        · rcases List.mem_cons.mp hm with rfl | hm
          · exact Or.inr hr
          · exact Or.inl hm
        · exact Or.inr hm
      · exact Or.inr hm

/-- **Nothing is lost by passing over nodes without children.** A walk that has followed such nodes
beforehand, and is otherwise where another walk is, collects the children that the other one
collects. Nodes that the walks do not come to play no part. -/
theorem Collects.pass_over (hK : g.IsBarren K)
    (hP : ∀ m r, P m → .spliced r ∈ g.links m → r < g.size → P r)
    (h : g.Collects followed links cs followed₁)
    (hlinks : ∀ r, .spliced r ∈ links → r < g.size → P r)
    (hother : ∀ m, P m → (m ∈ other ↔ m ∈ followed ∨ K m)) :
    ∃ other₁, g.Collects other links cs other₁ ∧
      ∀ m, P m → (m ∈ other₁ ↔ m ∈ followed₁ ∨ K m) := by
  induction h generalizing other with
  | done => exact ⟨other, .done, hother⟩
  | owned _ ih =>
      obtain ⟨other₁, hrest, hsame⟩ := ih (fun r hr => hlinks r (List.mem_cons_of_mem _ hr)) hother
      exact ⟨other₁, .owned hrest, hsame⟩
  | @passed followed _ _ _ r hr _ ih =>
      obtain ⟨other₁, hrest, hsame⟩ := ih (fun r hr => hlinks r (List.mem_cons_of_mem _ hr)) hother
      refine ⟨other₁, .passed ?_ hrest, hsame⟩
      rcases Nat.lt_or_ge r g.size with hlt | hge
      · have hmem : r ∈ followed := hr.resolve_right (Nat.not_le_of_lt hlt)
        exact Or.inl ((hother r (hlinks r List.mem_cons_self hlt)).mpr (Or.inl hmem))
      · exact Or.inr hge
  | @follow followed followed₁ _ cs _ _ r hnew hlt hsource _ ihsource ihrest =>
      have hPr : P r := hlinks r List.mem_cons_self hlt
      have hrest' := fun r hr => hlinks r (List.mem_cons_of_mem _ hr)
      by_cases hKr : K r
      · -- the other walk passes over the splice, and the first one finds nothing there
        obtain ⟨rfl, hadded⟩ :=
          hsource.of_isBarren hK (hK.owned hKr) fun _ hs hslt => hK.spliced hKr hs hslt
        have hother₁ : ∀ m, P m → (m ∈ other ↔ m ∈ followed₁ ∨ K m) := by
          intro m hm
          rw [hother m hm]
          constructor
          · exact Or.imp_left fun hm => hsource.subset (List.mem_cons_of_mem _ hm)
          · rintro (hm | hm)
            · rcases hadded m hm with hm | hm
              · rcases List.mem_cons.mp hm with rfl | hm
                · exact Or.inr hKr
                · exact Or.inl hm
              · exact Or.inr hm
            · exact Or.inr hm
        obtain ⟨other₂, hwalk, hsame⟩ := ihrest hrest' hother₁
        exact ⟨other₂, .passed (Or.inl ((hother r hPr).mpr (Or.inr hKr))) hwalk, hsame⟩
      · have hnew' : r ∉ other := by
          rw [hother r hPr]
          exact not_or.mpr ⟨hnew, hKr⟩
        have hbelow : ∀ m, P m → (m ∈ r :: other ↔ m ∈ r :: followed ∨ K m) := by
          intro m hm
          rw [List.mem_cons, List.mem_cons, hother m hm, or_assoc]
        obtain ⟨other₁, hwalk₁, hsame₁⟩ := ihsource (fun s hs => hP r s hPr hs) hbelow
        obtain ⟨other₂, hwalk₂, hsame₂⟩ := ihrest hrest' hsame₁
        exact ⟨other₂, .follow hnew' hlt hwalk₁ hwalk₂, hsame₂⟩

/-! ## The children after a merge -/

/-- With other links at a node that was followed already, the walk is the same. -/
theorem Collects.addLink (h : g.Collects followed links cs followed₁) (hn : n ∈ followed)
    (link : Link) : (g.addLink n link).Collects followed links cs followed₁ := by
  induction h with
  | done => exact .done
  | owned _ ih => exact .owned (ih hn)
  | passed hr _ ih =>
      refine .passed ?_ (ih hn)
      rwa [size_addLink]
  | @follow _ _ _ _ _ _ r hnew hlt hsource _ ihsource ihrest =>
      refine .follow hnew ?_ ?_ (ihrest (hsource.subset (List.mem_cons_of_mem _ hn)))
      · rwa [size_addLink]
      · have hne : r ≠ n := by
          rintro rfl
          exact hnew hn
        rw [links_addLink_of_ne _ hne]
        exact ihsource (List.mem_cons_of_mem _ hn)

/-- **A splice adds the children of its root behind those that are there**, if what both see has no
children of its own. -/
theorem children_addSplice (hn : n < g.size) (hsource : source < g.size)
    (hboth : ∀ m, g.Sees n m → g.Sees source m → g.owned m = []) :
    (g.addLink n (.spliced source)).children n = g.children n ++ g.children source := by
  obtain ⟨seen, hchildren⟩ := g.collects_children n
  have hseen : ∀ m, m ∈ seen ↔ g.Sees n m := fun m => hchildren.mem_followed_iff
  -- after the links of the node, the walk comes to the splice
  have hsplice : ∃ followed,
      g.Collects seen [.spliced source] (g.children source) followed := by
    by_cases hmem : source ∈ seen
    · have hnone : g.children source = [] := by
        rw [List.eq_nil_iff_forall_not_mem]
        intro c hc
        obtain ⟨m, hm, hc⟩ := mem_children_iff_owned.mp hc
        have hnil := hboth m (((hseen source).mp hmem).trans hm) hm
        exact absurd (mem_owned.mpr hc) (by simp [hnil])
      rw [hnone]
      exact ⟨seen, .passed (Or.inl hmem) .done⟩
    · obtain ⟨followed, hall⟩ := g.collects_children source
      have hbarren : g.IsBarren fun m => g.Sees n m ∧ g.Sees source m :=
        ⟨fun ⟨hm, hm'⟩ => hboth _ hm hm',
          fun ⟨hm, hm'⟩ hr hlt => ⟨.splice hm hr hlt, .splice hm' hr hlt⟩⟩
      have hmark : ∀ m, g.Sees source m →
          (m ∈ source :: seen ↔ m ∈ [source] ∨ g.Sees n m ∧ g.Sees source m) :=
        fun m hm => by rw [List.mem_cons, List.mem_singleton, hseen, and_iff_left hm]
      obtain ⟨other, hwalk, -⟩ := hall.pass_over hbarren
        (fun m r hm hr hlt => .splice hm hr hlt) (fun r hr hlt => .splice .self hr hlt) hmark
      have hafter := Collects.follow hmem hsource hwalk .done
      rw [List.append_nil] at hafter
      exact ⟨other, hafter⟩
  obtain ⟨followed, hsplice⟩ := hsplice
  have hwalk := (hchildren.append hsplice).addLink List.mem_cons_self (.spliced source)
  rw [← links_addLink_self (.spliced source) hn] at hwalk
  exact hwalk.children_eq

/-! ## Merging -/

theorem mem_sharedLabels : s ∈ g.sharedLabels n source ↔
    (∃ c ∈ g.children source, g.label c = some s) ∧ ∃ c ∈ g.children n, g.label c = some s := by
  simp [sharedLabels, childLabels]

/-- No child is among those of two nodes that share no labels. -/
theorem IsLabelled.not_mem_of_sharedLabels_eq_nil (h : g.IsLabelled)
    (hshared : g.sharedLabels n source = []) {c : NodeId} (hc : c ∈ g.children n) :
    c ∉ g.children source := by
  intro hc'
  obtain ⟨m, _, hm⟩ := mem_children_iff_owned.mp hc
  obtain ⟨s, hs⟩ := Option.ne_none_iff_exists'.mp (h m c hm)
  have hmem := mem_sharedLabels.mpr ⟨⟨c, hc', hs⟩, c, hc, hs⟩
  rw [hshared] at hmem
  exact absurd hmem List.not_mem_nil

/-- So what both of them see owns none. -/
theorem IsLabelled.owned_eq_nil_of_sharedLabels_eq_nil (h : g.IsLabelled)
    (hshared : g.sharedLabels n source = []) (hm : g.Sees n m) (hm' : g.Sees source m) :
    g.owned m = [] := by
  rw [List.eq_nil_iff_forall_not_mem]
  intro c hc
  have hc := mem_owned.mp hc
  exact h.not_mem_of_sharedLabels_eq_nil hshared (mem_children_iff_owned.mpr ⟨m, hm, hc⟩)
    (mem_children_iff_owned.mpr ⟨m, hm', hc⟩)

/-- **What a merge does.** In a graph that was built, whatever is spliced in where: a node that has
a label is no root and cannot be merged; a root whose children share labels with those of the node
is refused with these labels, in its order; and nothing has changed then. In all other cases the
children of the node are those that it had and then those of the root, in their order and each of
them once. -/
theorem merge_cases {operations : List Operation} {g : Graph} (hg : g = build operations)
    {n source : NodeId} (hn : n < g.size) (hsource : source < g.size) :
    (g.label source ≠ none → g.merge n source = .error .notARoot) ∧
    (g.label source = none → ∀ labels, labels = ((g.children source).filterMap g.label).filter
        (fun s => ∃ c ∈ g.children n, g.label c = some s) →
      (labels ≠ [] → g.merge n source = .error (.duplicateChildren labels)) ∧
      (labels = [] → ∃ g', g.merge n source = .ok g' ∧
        g'.children n = g.children n ++ g.children source ∧ (g'.children n).Nodup)) ∧
    (∀ why, g.merge n source = .error why → g.apply (.merge n source) = g) := by
  have hlabelled : g.IsLabelled := hg ▸ IsLabelled.build operations
  have howns : g.OwnsOnce := hg ▸ OwnsOnce.build operations
  refine ⟨fun hlabel => ?_, fun hlabel labels hlabels => ?_, fun why hwhy => ?_⟩
  · rw [merge, if_neg]
    simpa [isRoot] using hlabel
  · have hroot : g.isRoot source = true := by
      rw [isRoot, hlabel]
      rfl
    have hshared : g.sharedLabels n source = labels := by
      rw [hlabels, sharedLabels, childLabels]
      refine List.filter_congr fun s _ => ?_
      rw [Bool.eq_iff_iff, List.contains_iff_mem, decide_eq_true_eq]
      exact List.mem_filterMap
    rw [merge, if_pos hroot, hshared]
    refine ⟨fun hne => ?_, fun hnil => ?_⟩
    · obtain ⟨s, rest, rfl⟩ := List.exists_cons_of_ne_nil hne
      rfl
    · rw [hnil] at hshared ⊢
      have hchildren := children_addSplice hn hsource fun m hm hm' =>
        hlabelled.owned_eq_nil_of_sharedLabels_eq_nil hshared hm hm'
      have honce := nodup_children howns.once fun _ _ _ hm hm' => howns.owner hm hm'
      refine ⟨_, rfl, hchildren, ?_⟩
      rw [hchildren]
      exact List.Nodup.append (honce n) (honce source) fun c hc hc' =>
        hlabelled.not_mem_of_sharedLabels_eq_nil hshared hc hc'
  · rw [apply, hwhy]

/-- The node and the root splice in a third root, which splices in itself, as the root does. -/
theorem merge_cases_circular :
    ∃ g, g = build [.addRoot, .addRoot, .addRoot, .merge 3 3, .merge 1 3, .child 1 (.name "a"),
        .merge 2 2, .merge 2 3, .branch 2 [.name "b", .wildcard]] ∧
      (1 < g.size ∧ 2 < g.size ∧ g.label 2 = none) ∧
      g.children 1 = [4] ∧ g.children 2 = [5] ∧ ∃ g', g.merge 1 2 = .ok g' ∧
        g'.children 1 = [4, 5] ∧ (g'.children 1).Nodup := by
  let operations : List Operation := [.addRoot, .addRoot, .addRoot, .merge 3 3, .merge 1 3,
    .child 1 (.name "a"), .merge 2 2, .merge 2 3, .branch 2 [.name "b", .wildcard]]
  refine ⟨build operations, rfl, by decide +kernel, by decide +kernel, by decide +kernel, ?_⟩
  obtain ⟨-, hroot, -⟩ := merge_cases rfl (show 1 < (build operations).size by decide +kernel)
    (show 2 < (build operations).size by decide +kernel)
  obtain ⟨g', hmerge, hchildren, hnodup⟩ :=
    (hroot (by decide +kernel) [] (by decide +kernel)).2 rfl
  exact ⟨g', hmerge, hchildren.trans (by decide +kernel), hnodup⟩

end FieldSelection.Graph
