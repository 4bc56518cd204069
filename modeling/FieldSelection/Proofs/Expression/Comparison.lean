import FieldSelection.Proofs.Selection
import FieldSelection.Proofs.Tree.Acceptance

/-!
# How the trees of expressions compare

The paths of a filter tree are the prefixes of the field paths of its expression. No field path
lies below another one, so the field paths are those prefixes that do not go on, and can be told
from the tree. Two filter trees are therefore the same exactly if the expressions have the same
field paths; in which order, how often and in which groups these were written leaves no trace.

Among trees that have names only, a tree accepts just the paths that it has. Containment is then
inclusion of paths, and trees that contain each other are the same.
-/

namespace FieldSelection

/-! ## Lists with the same prefixes -/

namespace Path

variable {paths others : List Path}

/-- If two collapsed lists have the same prefixes, what the one has is in the other. -/
theorem mem_of_prefixes (h : ∀ p ∈ collapse paths, ∃ q ∈ collapse others, p <+: q)
    (h' : ∀ q ∈ collapse others, ∃ p ∈ collapse paths, q <+: p) {p : Path}
    (hp : p ∈ collapse paths) : p ∈ collapse others := by
  obtain ⟨q, hq, hpq⟩ := h p hp
  obtain ⟨p', hp', hqp'⟩ := h' q hq
  -- the path begins another one of its list, so it is that one, and all three are equal
  have heq : p = p' := eq_of_prefix_of_mem_collapse hp' hp (hpq.trans hqp')
  rw [← heq] at hqp'
  rw [hpq.eq_of_length_le hqp'.length_le]
  exact hq

end Path

/-! ## Inclusion of paths -/

namespace Graph

variable {g : Graph} {n c : NodeId} {path : Path}

/-- Whether all nodes below a node have names. -/
def HasNamesBelow (g : Graph) (n : NodeId) : Prop :=
  ∀ m, g.Holds n m → ∀ k ∈ g.children m, ∃ name, g.label k = some (.name name)

theorem HasNamesBelow.child (h : g.HasNamesBelow n) (hc : c ∈ g.children n) :
    g.HasNamesBelow c :=
  fun m hm => h m ((Holds.self.child hc).trans hm)

/-- What is there is accepted. -/
theorem HasPath.accepts (h : g.HasPath n path) : g.Accepts path n := by
  induction path generalizing n with
  | nil => trivial
  | cons s rest ih =>
      obtain ⟨c, hc, hs, hrest⟩ := h
      exact ⟨c, hc, Or.inr ⟨Or.inl hs, ih hrest⟩⟩

/-- Among names, a path without wildcards is accepted only if it is there. -/
theorem Accepts.hasPath (hnames : g.HasNamesBelow n) (hwild : Segment.wildcard ∉ path)
    (h : g.Accepts path n) : g.HasPath n path := by
  induction path generalizing n with
  | nil => trivial
  | cons s rest ih =>
      rw [List.mem_cons, not_or] at hwild
      obtain ⟨c, hc, hstep⟩ := h
      obtain ⟨name, hname⟩ := hnames n .self c hc
      rcases hstep with hcatch | ⟨hlabel | hstar | hstar, hrest⟩
      · exact absurd (hname.symm.trans hcatch) (by simp)
      · exact ⟨c, hc, hlabel, ih (hnames.child hc) hwild.2 hrest⟩
      · exact absurd (hname.symm.trans hstar) (by simp)
      · exact absurd hstar.symm hwild.1

/-- Among names, no way down has a wildcard. -/
theorem HasPath.wildcard_not_mem (hnames : g.HasNamesBelow n) (h : g.HasPath n path) :
    Segment.wildcard ∉ path := by
  induction path generalizing n with
  | nil => exact List.not_mem_nil
  | cons s rest ih =>
      obtain ⟨c, hc, hs, hrest⟩ := h
      obtain ⟨name, hname⟩ := hnames n .self c hc
      rw [hname] at hs
      cases hs
      rw [List.mem_cons, not_or]
      exact ⟨by simp, ih (hnames.child hc) hrest⟩

end Graph

namespace Tree

variable {t u : Tree} {paths others : List Path}

/-- **Among trees with names only, containment is inclusion of paths.** -/
theorem contains_iff_hasPath (ht : t.IsUnambiguous) (hu : u.IsUnambiguous)
    (htlit : t.IsLiteral) (hulit : u.IsLiteral) :
    t.contains u = true ↔ ∀ path, u.HasPath path → t.HasPath path := by
  have hroot : ∀ {t : Tree}, t.IsUnambiguous → t.graph.isRoot t.root = true :=
    fun h => Option.isNone_iff_eq_none.mpr h.root_label
  rw [(contains_iff_accepts (hroot ht) (hroot hu)).2 hulit (.of_isLiteral htlit ht)]
  refine forall₂_congr fun path hpath => ⟨fun haccepts => ?_, Graph.HasPath.accepts⟩
  exact haccepts.hasPath htlit (hpath.wildcard_not_mem hulit)

/-- **Among them, trees that contain each other are the same.** -/
theorem contains_both_iff_same (ht : t.IsUnambiguous) (hu : u.IsUnambiguous)
    (htlit : t.IsLiteral) (hulit : u.IsLiteral) :
    (t.contains u = true ∧ u.contains t = true) ↔ t.same u = true := by
  rw [contains_iff_hasPath ht hu htlit hulit, contains_iff_hasPath hu ht hulit htlit,
    same_iff_hasPath ht hu]
  exact ⟨fun ⟨hut, htu⟩ path => ⟨htu path, hut path⟩,
    fun h => ⟨fun path => (h path).mpr, fun path => (h path).mp⟩⟩

/-- The tree of some paths has the paths of another such tree if each of those begins one of
these. -/
theorem hasPath_ofPaths_imp_iff (hne : ∀ q ∈ others, q ≠ []) :
    (∀ path, (ofPaths others).HasPath path → (ofPaths paths).HasPath path) ↔
      ∀ q ∈ others, ∃ p ∈ paths, q <+: p := by
  simp only [hasPath_ofPaths_iff]
  constructor
  · intro h q hq
    exact (h q (Or.inr ⟨q, hq, List.prefix_refl q⟩)).resolve_left (hne q hq)
  · rintro h path (hnil | ⟨q, hq, hpath⟩)
    · exact Or.inl hnil
    · obtain ⟨p, hp, hqp⟩ := h q hq
      exact Or.inr ⟨p, hp, hpath.trans hqp⟩

end Tree

/-! ## Expressions -/

namespace Expression

variable {text text' : String} {e e' : Expression}

theorem ne_nil_of_mem_fieldPaths {p : Path} (h : p ∈ e.fieldPaths) : p ≠ [] :=
  ne_nil_of_mem_allPaths (Path.mem_of_mem_collapse h)

/-- Two filter trees are the same if each field path begins one of the other expression. -/
theorem same_filterTree_iff_prefixes :
    e.filterTree.same e'.filterTree = true ↔
      (∀ p ∈ e.fieldPaths, ∃ q ∈ e'.fieldPaths, p <+: q) ∧
        ∀ q ∈ e'.fieldPaths, ∃ p ∈ e.fieldPaths, q <+: p := by
  rw [filterTree, filterTree, Tree.same_iff_hasPath (Tree.isUnambiguous_ofPaths _)
      (Tree.isUnambiguous_ofPaths _),
    ← Tree.hasPath_ofPaths_imp_iff (fun _ => ne_nil_of_mem_fieldPaths),
    ← Tree.hasPath_ofPaths_imp_iff (fun _ => ne_nil_of_mem_fieldPaths), ← forall_and]
  exact forall_congr' fun path => iff_iff_implies_and_implies

/-- **Filter trees are canonical.** The trees of two expressions are the same exactly if the
expressions have the same field paths. So they are the same whenever the expressions select the
same paths, in whatever order, however often and in whatever groups. -/
theorem same_filterTree_iff (e e' : Expression) :
    (e.filterTree.same e'.filterTree = true ↔ ∀ p, p ∈ e.fieldPaths ↔ p ∈ e'.fieldPaths) ∧
      ((∀ p, p ∈ e.allPaths ↔ p ∈ e'.allPaths) → e.filterTree.same e'.filterTree = true) := by
  have hiff : e.filterTree.same e'.filterTree = true ↔
      ∀ p, p ∈ e.fieldPaths ↔ p ∈ e'.fieldPaths := by
    rw [same_filterTree_iff_prefixes]
    constructor
    · rintro ⟨h, h'⟩ p
      exact ⟨Path.mem_of_prefixes h h', Path.mem_of_prefixes h' h⟩
    · intro h
      exact ⟨fun p hp => ⟨p, (h p).mp hp, List.prefix_refl p⟩,
        fun q hq => ⟨q, (h q).mpr hq, List.prefix_refl q⟩⟩
  exact ⟨hiff, fun h => hiff.mpr (Path.mem_collapse_congr h)⟩

/-- The second and the third expression select the same paths. The first has one more, that lies
below another one and is collapsed. -/
theorem same_filterTree_iff_order :
    ∃ e e' e'', parse "a(c/*,*/b,c/d)" = .ok e ∧ parse "a/*/b,a/c,a/c" = .ok e' ∧
      parse "a(c,*/b/*)" = .ok e'' ∧ (∀ p, p ∈ e.fieldPaths ↔ p ∈ e'.fieldPaths) ∧
      e.filterTree.same e'.filterTree = true ∧ (∀ p, p ∈ e'.allPaths ↔ p ∈ e''.allPaths) ∧
      e'.filterTree.same e''.filterTree = true := by
  have hparse : parse "a(c/*,*/b,c/d)" = .ok ⟨"a(c/*,*/b,c/d)", .one (.group (.name "a")
      (.cons (.step (.name "c") (.leaf .wildcard)) (.cons (.step .wildcard (.leaf (.name "b")))
        (.one (.step (.name "c") (.leaf (.name "d")))))))⟩ := rfl
  have hparse' : parse "a/*/b,a/c,a/c" = .ok ⟨"a/*/b,a/c,a/c",
      .cons (.step (.name "a") (.step .wildcard (.leaf (.name "b"))))
        (.cons (.step (.name "a") (.leaf (.name "c")))
          (.one (.step (.name "a") (.leaf (.name "c")))))⟩ := rfl
  have hparse'' : parse "a(c,*/b/*)" = .ok ⟨"a(c,*/b/*)", .one (.group (.name "a")
      (.cons (.leaf (.name "c"))
        (.one (.step .wildcard (.step (.name "b") (.leaf .wildcard))))))⟩ := rfl
  have hswap : ∀ p q r : Path, r ∈ [p, q, q] ↔ r ∈ [q, p] := by
    intro p q r
    simp [or_comm]
  have hfields : ∀ p : Path, p ∈ [[.name "a", .name "c"], [.name "a", .wildcard, .name "b"]] ↔
      p ∈ [[.name "a", .wildcard, .name "b"], [.name "a", .name "c"], [.name "a", .name "c"]] :=
    fun p => (hswap _ _ p).symm
  exact ⟨_, _, _, hparse, hparse', hparse'', hfields, (same_filterTree_iff _ _).1.mpr hfields,
    hswap _ _, (same_filterTree_iff _ _).2 (hswap _ _)⟩

/-- Without wildcards, a filter tree has names only. -/
theorem isLiteral_filterTree (h : parse text = .ok e)
    (hwild : ∀ p ∈ e.fieldPaths, Segment.wildcard ∉ p) : e.filterTree.IsLiteral := by
  refine Tree.isLiteral_ofPaths fun p hp s hs => ?_
  cases s with
  | name name => exact ⟨name, rfl⟩
  | wildcard => exact absurd hs (hwild p hp)
  | catchAll =>
      have hwritable := isWritable_of_mem_allPaths h (Path.mem_of_mem_collapse hp) _ hs
      exact absurd rfl (Segment.ne_catchAll_of_isWritable hwritable)

/-- **Among expressions without wildcards, containment both ways is equality**, and the tree of one
contains that of another exactly if each field path of the other begins one of its own. -/
theorem contains_filterTree_iff (h : parse text = .ok e) (h' : parse text' = .ok e')
    (hwild : ∀ p ∈ e.fieldPaths, Segment.wildcard ∉ p)
    (hwild' : ∀ p ∈ e'.fieldPaths, Segment.wildcard ∉ p) :
    ((e.filterTree.contains e'.filterTree = true ∧ e'.filterTree.contains e.filterTree = true) ↔
        e.filterTree.same e'.filterTree = true) ∧
      (e.filterTree.contains e'.filterTree = true ↔
        ∀ q ∈ e'.fieldPaths, ∃ p ∈ e.fieldPaths, q <+: p) := by
  have ht : e.filterTree.IsUnambiguous := Tree.isUnambiguous_ofPaths _
  have hu : e'.filterTree.IsUnambiguous := Tree.isUnambiguous_ofPaths _
  have htlit := isLiteral_filterTree h hwild
  have hulit := isLiteral_filterTree h' hwild'
  refine ⟨Tree.contains_both_iff_same ht hu htlit hulit, ?_⟩
  rw [Tree.contains_iff_hasPath ht hu htlit hulit]
  exact Tree.hasPath_ofPaths_imp_iff fun _ => ne_nil_of_mem_fieldPaths

/-- The first expression has all paths of the second and goes on below one of them. So its tree
contains the other one, which is not the same and does not contain it. -/
theorem contains_filterTree_iff_group :
    ∃ e e', parse "a(b,c/d)" = .ok e ∧ parse "a/c,a/b,a/b" = .ok e' ∧
      (∀ p ∈ e.fieldPaths, Segment.wildcard ∉ p) ∧ (∀ p ∈ e'.fieldPaths, Segment.wildcard ∉ p) ∧
      e.filterTree.contains e'.filterTree = true ∧ e.filterTree.same e'.filterTree = false ∧
      e'.filterTree.contains e.filterTree = false := by
  have hparse : parse "a(b,c/d)" = .ok ⟨"a(b,c/d)", .one (.group (.name "a")
      (.cons (.leaf (.name "b")) (.one (.step (.name "c") (.leaf (.name "d"))))))⟩ := rfl
  have hparse' : parse "a/c,a/b,a/b" = .ok ⟨"a/c,a/b,a/b",
      .cons (.step (.name "a") (.leaf (.name "c"))) (.cons (.step (.name "a") (.leaf (.name "b")))
        (.one (.step (.name "a") (.leaf (.name "b")))))⟩ := rfl
  obtain ⟨hboth, hone⟩ := contains_filterTree_iff hparse hparse' (by decide) (by decide)
  have hcontains := hone.mpr (by decide)
  obtain ⟨-, hback⟩ := contains_filterTree_iff hparse' hparse (by decide) (by decide)
  have hnot := mt hback.mp (by decide)
  refine ⟨_, _, hparse, hparse', by decide, by decide, hcontains, ?_, ?_⟩
  · exact Bool.eq_false_iff.mpr fun hsame => hnot (hboth.mpr hsame).2
  · exact Bool.eq_false_iff.mpr hnot

end Expression

end FieldSelection
