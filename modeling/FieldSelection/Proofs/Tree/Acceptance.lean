import FieldSelection.Proofs.Tree.Equality
import FieldSelection.Proofs.Tree.Walk

/-!
# Containment and the paths that are accepted

A tree accepts a path if it can be walked down from the root, each name to a child of this name
or to a wildcard, until the path ends or a catch-all takes the rest. A tree that contains another
one accepts all paths of it. The converse is not true: containment matches each child of the
other tree with one child, which has to contain all that is below, while the paths below may be
accepted by different children, some by a name and some by the wildcard beside it.

It is true where the choice of a child does not matter: where at most one child selects the name,
where there is a catch-all, and where all that is below is a single line. In a line any two paths
are beginnings of one another, and if each child that selects the name refused some path, the
longest of these would be refused by all of them.
-/

namespace FieldSelection

namespace Graph

variable {g h : Graph} {a b c k m n : NodeId} {path : Path} {name : String} {s : Segment}

/-! ## What is contained is accepted -/

/-- A beginning of an accepted path is accepted. -/
theorem Accepts.of_prefix {p q : Path} (hpq : p <+: q) (hq : g.Accepts q n) : g.Accepts p n := by
  induction p generalizing q n with
  | nil => trivial
  | cons s p ih =>
      obtain ⟨q, rfl, hrest⟩ := List.cons_prefix_iff.mp hpq
      obtain ⟨c, hc, hstep⟩ := hq
      exact ⟨c, hc, hstep.imp_right fun ⟨hlabel, hq⟩ => ⟨hlabel, ih hrest hq⟩⟩

/-- The paths below a node are accepted by a node that is similar, unless this is a catch-all,
which takes everything. -/
theorem SimilarGiven.accepts (hs : SimilarGiven g h [] a b) (hcatch : g.label a ≠ some .catchAll)
    (hpath : h.HasPath b path) : g.Accepts path a := by
  induction path generalizing a b with
  | nil => trivial
  | cons s rest ih =>
      obtain ⟨k, hk, hlabel, hrest⟩ := hpath
      rcases hs.simulated with hno | hcat | ⟨-, hbelow⟩
      · exact absurd hno List.not_mem_nil
      · exact absurd hcat hcatch
      · obtain ⟨c, hc, hck⟩ := hbelow k hk
        refine ⟨c, hc, ?_⟩
        by_cases hcat : g.label c = some .catchAll
        · exact Or.inl hcat
        · refine Or.inr ⟨?_, ih hck hcat hrest⟩
          rcases hck.simulated with hno | hcat' | ⟨hagree, -⟩
          · exact absurd hno List.not_mem_nil
          · exact absurd hcat' hcat
          · exact (Chain.labelsAgree_iff hlabel).mp hagree

/-! ## Lines -/

/-- No node from here on has two children. -/
def IsLine (g : Graph) (n : NodeId) : Prop :=
  ∀ m, g.Holds n m → ∀ c ∈ g.children m, ∀ c' ∈ g.children m, c = c'

theorem IsLine.child (hn : g.IsLine n) (hc : c ∈ g.children n) : g.IsLine c :=
  fun m hm => hn m ((Holds.self.child hc).trans hm)

/-- Of two paths in a line, one is the beginning of the other. -/
theorem IsLine.prefix_or_prefix (hn : g.IsLine n) {p q : Path} (hp : g.HasPath n p)
    (hq : g.HasPath n q) : p <+: q ∨ q <+: p := by
  induction p generalizing n q with
  | nil => exact Or.inl List.nil_prefix
  | cons s p ih =>
      cases q with
      | nil => exact Or.inr List.nil_prefix
      | cons s' q =>
          obtain ⟨c, hc, hs, hp⟩ := hp
          obtain ⟨c', hc', hs', hq⟩ := hq
          obtain rfl := hn n .self c hc c' hc'
          obtain rfl := Option.some.inj (hs.symm.trans hs')
          simpa [List.cons_prefix_cons] using ih (hn.child hc) hp hq

/-- If each of some nodes refuses a path of a line, there is one that all of them refuse. -/
theorem IsLine.exists_refused (hk : h.IsLine k) (nodes : List NodeId)
    (hrefuse : ∀ c ∈ nodes, ∃ p, h.HasPath k p ∧ ¬ g.Accepts p c) :
    ∃ p, h.HasPath k p ∧ ∀ c ∈ nodes, ¬ g.Accepts p c := by
  induction nodes with
  | nil => exact ⟨[], trivial, by simp⟩
  | cons c rest ih =>
      obtain ⟨p, hp, hpc⟩ := hrefuse c List.mem_cons_self
      obtain ⟨q, hq, hqrest⟩ := ih fun c' hc' => hrefuse c' (List.mem_cons_of_mem _ hc')
      -- the longer of the two is refused by all
      rcases hk.prefix_or_prefix hp hq with hpq | hqp
      · exact ⟨q, hq, List.forall_mem_cons.mpr ⟨mt (Accepts.of_prefix hpq) hpc, hqrest⟩⟩
      · exact ⟨p, hp, List.forall_mem_cons.mpr
          ⟨hpc, fun c' hc' => mt (Accepts.of_prefix hqp) (hqrest c' hc')⟩⟩

end Graph

namespace Tree

variable {t u : Tree} {m n k : NodeId} {name : String}

/-- Whether a tree has names only. -/
def IsLiteral (u : Tree) : Prop :=
  ∀ n, u.graph.Holds u.root n → ∀ k ∈ u.graph.children n,
    ∃ name, u.graph.label k = some (.name name)

/-- The nodes of two trees that the same names lead to. -/
inductive Meets (t u : Tree) : NodeId → NodeId → Prop where
  /-- The roots meet. -/
  | root : Meets t u t.root u.root
  /-- A child with a name meets the children that select it. -/
  | child {m n c k : NodeId} {name : String} : Meets t u m n → k ∈ u.graph.children n →
      u.graph.label k = some (.name name) → c ∈ t.graph.children m →
      t.graph.selects c name = true → Meets t u c k

/-- Whether it does not matter which child of the first tree is chosen for a child of the second:
one is a catch-all, or at most one selects the name, or what is below is a line. -/
def ChoosesFreely (t u : Tree) : Prop :=
  ∀ m n, Meets t u m n → ∀ k ∈ u.graph.children n, ∀ name, u.graph.label k = some (.name name) →
    (∃ c ∈ t.graph.children m, t.graph.label c = some .catchAll) ∨
    (∀ c ∈ t.graph.children m, ∀ c' ∈ t.graph.children m,
      t.graph.selects c name = true → t.graph.selects c' name = true → c = c') ∨
    u.graph.IsLine k

theorem Meets.holds (hmn : Meets t u m n) : u.graph.Holds u.root n := by
  induction hmn with
  | root => exact .self
  | child _ hk _ _ _ ih => exact ih.child hk

/-- All paths below the second node are accepted from the first. -/
def Covers (t u : Tree) (m n : NodeId) : Prop :=
  ∀ path, u.graph.HasPath n path → t.graph.Accepts path m

theorem labelsAgree_of_selects {c : NodeId} (hk : u.graph.label k = some (.name name))
    (hsel : t.graph.selects c name = true) : Graph.LabelsAgree t.graph u.graph c k := by
  rw [Graph.selects] at hsel
  split at hsel
  · rename_i s hs
    cases s with
    | name text =>
        rw [Segment.matchesName, beq_iff_eq] at hsel
        exact Or.inl (by rw [hs, hk, hsel])
    | wildcard => exact Or.inr (Or.inl hs)
    | catchAll => exact absurd hsel (by simp [Segment.matchesName])
  · exact absurd hsel (by simp)

/-- Without a catch-all, a name is accepted by a child that selects it. -/
theorem exists_selects_of_accepts {rest : Path}
    (hnone : ¬ ∃ c ∈ t.graph.children m, t.graph.label c = some .catchAll)
    (haccepts : t.graph.Accepts (.name name :: rest) m) :
    ∃ c ∈ t.graph.children m, t.graph.selects c name = true ∧ t.graph.Accepts rest c := by
  obtain ⟨c, hc, hcat | ⟨hlabel, hrest⟩⟩ := haccepts
  · exact absurd ⟨c, hc, hcat⟩ hnone
  · refine ⟨c, hc, ?_, hrest⟩
    rcases hlabel with hlabel | hlabel | hlabel
    · simp [Graph.selects, hlabel, Segment.matchesName]
    · simp [Graph.selects, hlabel, Segment.matchesName]
    · exact absurd hlabel (by simp)

/-- **Where the choice does not matter, one child accepts all that is below.** -/
theorem Covers.child (hmn : Covers t u m n) (hk : k ∈ u.graph.children n)
    (hlabel : u.graph.label k = some (.name name))
    (hnone : ¬ ∃ c ∈ t.graph.children m, t.graph.label c = some .catchAll)
    (hfree : (∀ c ∈ t.graph.children m, ∀ c' ∈ t.graph.children m,
      t.graph.selects c name = true → t.graph.selects c' name = true → c = c') ∨
      u.graph.IsLine k) :
    ∃ c ∈ t.graph.children m, t.graph.selects c name = true ∧ Covers t u c k := by
  have hbelow : ∀ path, u.graph.HasPath k path →
      ∃ c ∈ t.graph.children m, t.graph.selects c name = true ∧ t.graph.Accepts path c :=
    fun path hpath => exists_selects_of_accepts hnone (hmn _ ⟨k, hk, hlabel, hpath⟩)
  rcases hfree with hone | hline
  · obtain ⟨c, hc, hsel, -⟩ := hbelow [] trivial
    refine ⟨c, hc, hsel, fun path hpath => ?_⟩
    obtain ⟨c', hc', hsel', haccepts⟩ := hbelow path hpath
    rwa [hone c hc c' hc' hsel hsel']
  · by_contra hno
    have hrefuse : ∀ c ∈ (t.graph.children m).filter (t.graph.selects · name),
        ∃ p, u.graph.HasPath k p ∧ ¬ t.graph.Accepts p c := by
      intro c hc
      obtain ⟨hc, hsel⟩ := List.mem_filter.mp hc
      by_contra hall
      refine hno ⟨c, hc, hsel, fun path hpath => ?_⟩
      by_contra hpc
      exact hall ⟨path, hpath, hpc⟩
    obtain ⟨p, hp, hall⟩ := hline.exists_refused _ hrefuse
    obtain ⟨c, hc, hsel, haccepts⟩ := hbelow p hp
    exact hall c (List.mem_filter.mpr ⟨hc, hsel⟩) haccepts

/-- The nodes that meet and cover make a simulation. -/
theorem isSimulation_covers (hlit : u.IsLiteral) (hfree : t.ChoosesFreely u) :
    Graph.IsSimulation t.graph u.graph fun m n => t.graph.label m = some .catchAll ∨
      (Graph.LabelsAgree t.graph u.graph m n ∧ Meets t u m n ∧ Covers t u m n) := by
  rintro m n (hcat | ⟨hagree, hmeets, hcovers⟩)
  · exact Or.inl hcat
  · refine Or.inr ⟨hagree, fun k hk => ?_⟩
    obtain ⟨name, hlabel⟩ := hlit n hmeets.holds k hk
    by_cases hcat : ∃ c ∈ t.graph.children m, t.graph.label c = some .catchAll
    · obtain ⟨c, hc, hcat⟩ := hcat
      exact ⟨c, hc, Or.inl hcat⟩
    · obtain ⟨c, hc, hsel, hck⟩ := hcovers.child hk hlabel hcat
        ((hfree m n hmeets k hk name hlabel).resolve_left hcat)
      exact ⟨c, hc, Or.inr ⟨labelsAgree_of_selects hlabel hsel,
        hmeets.child hk hlabel hc hsel, hck⟩⟩

/-- **Containment and acceptance.** A tree that contains another one accepts each of its paths.
If the other one has names only, and if it does not matter which children are chosen for its
children, then a tree that accepts all its paths contains it. -/
theorem contains_iff_accepts {t u : Tree} (ht : t.graph.isRoot t.root = true)
    (hu : u.graph.isRoot u.root = true) :
    (t.contains u = true → ∀ path, u.HasPath path → t.graph.Accepts path t.root) ∧
    (u.IsLiteral → t.ChoosesFreely u → (t.contains u = true ↔
      ∀ path, u.HasPath path → t.graph.Accepts path t.root)) := by
  have hroot : t.graph.label t.root = none := Option.isNone_iff_eq_none.mp ht
  have hroot' : u.graph.label u.root = none := Option.isNone_iff_eq_none.mp hu
  have hsound : t.contains u = true → ∀ path, u.HasPath path → t.graph.Accepts path t.root := by
    intro hcontains path hpath
    refine ((contains_iff_similarGiven t u).mp hcontains).accepts ?_ hpath
    rw [hroot]
    simp
  refine ⟨hsound, fun hlit hfree => ⟨hsound, fun hcovers => ?_⟩⟩
  refine (contains_iff_exists_simulation t u).mpr
    ⟨_, isSimulation_covers hlit hfree, Or.inr ⟨Or.inl ?_, .root, hcovers⟩⟩
  rw [hroot, hroot']

/-! ## Trees of which the choice does not matter -/

/-- Below a tree without branches there is nothing to choose for. -/
theorem ChoosesFreely.of_isLine (hline : u.graph.IsLine u.root) : t.ChoosesFreely u := by
  intro m n hmeets k hk name _
  exact Or.inr (Or.inr fun n' hn' => hline n' ((hmeets.holds.child hk).trans hn'))

theorem Meets.holds_left (hmn : Meets t u m n) : t.graph.Holds t.root m := by
  induction hmn with
  | root => exact .self
  | child _ _ _ hc _ ih => exact ih.child hc

/-- Among names that differ, at most one is that of a field. -/
theorem ChoosesFreely.of_isLiteral (hlit : t.IsLiteral) (ht : t.IsUnambiguous) :
    t.ChoosesFreely u := by
  intro m n hmeets k _ name _
  refine Or.inr (Or.inl fun c hc c' hc' hsel hsel' => ?_)
  have hlabel : ∀ c ∈ t.graph.children m, t.graph.selects c name = true →
      t.graph.label c = some (.name name) := by
    intro c hc hsel
    obtain ⟨text, htext⟩ := hlit m hmeets.holds_left c hc
    simp only [Graph.selects, htext, Segment.matchesName, beq_iff_eq] at hsel
    rw [htext, hsel]
  exact List.inj_on_of_nodup_map (ht.below.siblings hmeets.holds_left) hc hc'
    ((hlabel c hc hsel).trans (hlabel c' hc' hsel').symm)

/-! ## Trees of paths -/

theorem hasPath_ofPaths {paths : List Path} {path : Path} (h : (ofPaths paths).HasPath path) :
    path = [] ∨ ∃ p ∈ paths, path <+: p :=
  (hasPath_ofPaths_iff paths path).mp h

theorem isLiteral_ofPaths {paths : List Path}
    (h : ∀ p ∈ paths, ∀ s ∈ p, ∃ name, s = Segment.name name) : (ofPaths paths).IsLiteral := by
  obtain ⟨place, htrie, hreaches⟩ := IsTrie.ofPaths paths
  intro n _ k hk
  obtain ⟨-, hlt, s, hplace⟩ := (htrie.child n k).mp hk
  rw [htrie.label k hlt, hplace, List.getLast?_concat]
  rcases (hreaches (place k)).mp ⟨k, hlt, rfl⟩ with hnil | ⟨p, hp, hpfx⟩
  · exact absurd (hplace.symm.trans hnil) (by simp)
  · obtain ⟨name, rfl⟩ := h p hp s (hpfx.subset (by simp [hplace]))
    exact ⟨name, rfl⟩

/-- `a/y` is accepted by the wildcard though there is a child `a`. -/
theorem contains_iff_accepts_line :
    let t := ofPaths [[.name "a", .name "x"], [.wildcard, .name "y"]]
    let u := ofPaths [[.name "a", .name "y"]]
    t.graph.isRoot t.root = true ∧ u.graph.isRoot u.root = true ∧ u.IsLiteral ∧
      t.ChoosesFreely u ∧ ∀ path, u.HasPath path → t.graph.Accepts path t.root := by
  intro t u
  have hlit : u.IsLiteral := isLiteral_ofPaths (by simp)
  have hone : ∀ m < u.graph.size, ∀ c ∈ u.graph.children m, ∀ c' ∈ u.graph.children m, c = c' := by
    decide
  have hline : u.graph.IsLine u.root :=
    fun m _ c hc c' hc' => hone m (Graph.lt_size_of_mem_children hc) c hc c' hc'
  have hfree : t.ChoosesFreely u := .of_isLine hline
  exact ⟨by decide, by decide, hlit, hfree,
    ((contains_iff_accepts (by decide) (by decide)).2 hlit hfree).mp (by decide)⟩

/-- The paths of the second tree are accepted, `a/x` by the name and `a/y` by the wildcard, but
neither of these children contains both. -/
theorem accepts_and_not_contains :
    let t := ofPaths [[.name "a", .name "x"], [.wildcard, .name "y"]]
    let u := ofPaths [[.name "a", .name "x"], [.name "a", .name "y"]]
    t.graph.isRoot t.root = true ∧ u.graph.isRoot u.root = true ∧ u.IsLiteral ∧
      (∀ path, u.HasPath path → t.graph.Accepts path t.root) ∧ t.contains u = false := by
  intro t u
  have hx : t.graph.Accepts [.name "a", .name "x"] t.root :=
    ⟨1, by decide, Or.inr ⟨by decide, 2, by decide, Or.inr ⟨by decide, trivial⟩⟩⟩
  have hy : t.graph.Accepts [.name "a", .name "y"] t.root :=
    ⟨3, by decide, Or.inr ⟨by decide, 4, by decide, Or.inr ⟨by decide, trivial⟩⟩⟩
  refine ⟨by decide, by decide, isLiteral_ofPaths (by simp), fun path hpath => ?_, by decide⟩
  rcases hasPath_ofPaths hpath with rfl | ⟨p, hp, hpfx⟩
  · trivial
  · simp only [List.mem_cons, List.not_mem_nil, or_false] at hp
    rcases hp with rfl | rfl
    · exact hx.of_prefix hpfx
    · exact hy.of_prefix hpfx

end Tree

end FieldSelection
