import FieldSelection.Expression
import FieldSelection.Proofs.Schema.Asking
import FieldSelection.Proofs.Tree.Walk

/-!
# Validation follows the definitions

A repository is asked for trees one after the other, and some of them cannot be made. The
graph is finished each time, since a failure cuts it back to what it was. In a finished graph
a path is walked down from a node exactly as it is followed from the fields that the node
means, and to contain the path is to let it be walked down. So an expression is valid against
the tree of a schema if all its paths can be followed through the definitions.
-/

namespace FieldSelection

variable {d : Dictionary Schema} {c : Compilation} {m : Meaning} {n : NodeId}
  {fields : List (Segment × Schema)}

/-! ## Walking down a finished graph -/

theorem exists_mem_iff_of_forall₂ {α β : Type} {R : α → β → Prop} {P : α → Prop} {Q : β → Prop}
    {xs : List α} {ys : List β} (h : List.Forall₂ R xs ys) (hPQ : ∀ x y, R x y → (P x ↔ Q y)) :
    (∃ x ∈ xs, P x) ↔ ∃ y ∈ ys, Q y := by
  induction h with
  | nil => simp
  | cons hab _ ih => simp [hPQ _ _ hab, ih]

namespace Building

/-- A node has one child for each of the fields that it means. -/
theorem children (hb : Building d [] c m) (hn : n < c.graph.size)
    (hm : (m n).below d = some fields) :
    List.Forall₂ (StandsFor c.graph m) (c.graph.children n) fields := by
  cases hb.finished n hn List.not_mem_nil with
  | anything meaning =>
      rw [meaning] at hm
      exact absurd hm (by simp [Schema.Content.below])
  | fields meaning links children =>
      rw [meaning] at hm
      cases hm
      rw [Graph.children_of_owning links]
      exact children
  | @spliced target r meaning label links root =>
      obtain ⟨hlt, hlabel, hmeaning⟩ := hb.root target r root
      have hne : r ≠ n := by
        rintro rfl
        exact label hlabel
      rw [meaning] at hm
      cases hm
      -- a root that is finished owns its children
      obtain ⟨cs, links', children'⟩ := hb.root_links root
      rw [Graph.children_of_spliced links hne hlt links']
      exact children'

/-- Where anything can follow, every path can be walked. -/
theorem accepts_anything (hb : Building d [] c m) (hn : n < c.graph.size)
    (hm : (m n).below d = none) (path : Path) : c.graph.Accepts path n := by
  cases path with
  | nil => trivial
  | cons s rest =>
      cases hb.finished n hn List.not_mem_nil with
      | @anything k meaning links label =>
          have hlinks : c.graph.links n = Link.owning [k] := links
          refine ⟨k, ?_, Or.inl label⟩
          rw [Graph.children_of_owning hlinks]
          exact List.mem_singleton_self k
      | fields meaning =>
          rw [meaning] at hm
          exact absurd hm (by simp [Schema.Content.below])
      | spliced meaning =>
          rw [meaning] at hm
          exact absurd hm (by simp [Schema.Content.below])

/-- **A path is walked as it is followed.** -/
theorem accepts_iff_follows (hb : Building d [] c m) (path : Path) :
    ∀ {n : NodeId} {fields : List (Segment × Schema)}, n < c.graph.size →
      (m n).below d = some fields →
      (c.graph.Accepts path n ↔ Schema.follows d fields path = true) := by
  induction path with
  | nil =>
      intro n fields _ _
      rw [Schema.follows]
      exact ⟨fun _ => rfl, fun _ => trivial⟩
  | cons s rest ih =>
      intro n fields hn hm
      rw [Graph.Accepts, Schema.follows, List.any_eq_true]
      refine exists_mem_iff_of_forall₂ (hb.children hn hm) fun k field hstands => ?_
      have hcatch : c.graph.label k ≠ some .catchAll := by
        rw [hstands.label]
        simpa using hstands.ne_catchAll
      have hgoes : (c.graph.label k = some s ∨ c.graph.label k = some .wildcard ∨ s = .wildcard) ↔
          s.goesTo field.1 = true := by
        rw [hstands.label]
        simp [Segment.goesTo, or_assoc]
      have hbelow : (m k).below d = field.2.fieldsBelow d := by
        rw [hstands.meaning, Schema.below_content]
      rw [or_iff_right hcatch, hgoes, Bool.and_eq_true]
      refine and_congr_right fun _ => ?_
      cases hfields : field.2.fieldsBelow d with
      | none =>
          exact ⟨fun _ => rfl, fun _ => hb.accepts_anything hstands.lt (hbelow.trans hfields) rest⟩
      | some fields' => exact ih hstands.lt (hbelow.trans hfields)

end Building

/-- Whether a tree stands for the schema of this name. -/
def Tree.StandsForSchema (t : Tree) (d : Dictionary Schema) (name : String) : Prop :=
  ∃ c m, Building d [] c m ∧ t.graph = c.graph ∧ c.roots.get? name = some t.root

theorem Tree.StandsForSchema.contains_iff {t : Tree} {name : String}
    (h : t.StandsForSchema d name) (path : Path) :
    t.contains (.ofPath path) = true ↔
      Schema.follows d (Schema.fieldsOf d name) path = true := by
  obtain ⟨c, m, hb, hgraph, hget⟩ := h
  obtain ⟨hlt, hlabel, hmeaning⟩ := hb.root name t.root hget
  have hroot : t.graph.isRoot t.root = true := by rw [Graph.isRoot, hgraph, hlabel]; rfl
  rw [Tree.contains_ofPath_iff hroot, hgraph]
  refine hb.accepts_iff_follows path hlt ?_
  rw [hmeaning]
  rfl

/-- **To ask for a tree keeps a repository sound**, whether there is one or not, and a tree that
is there stands for its schema. -/
theorem Repository.Sound.tree {r : Repository} (h : Sound d r) (hd : Schema.DistinctNames d)
    (name : String) :
    Sound d (r.tree name).2 ∧
      ∀ t, (r.tree name).1 = .ok t → Tree.StandsForSchema t d name := by
  refine ⟨h.next hd name, fun t ht => ?_⟩
  have hmade := Made.of_eq_ok h hd ht
  obtain ⟨m, hb⟩ := hmade.sound.building
  exact ⟨_, m, hb, hmade.graph, hmade.root⟩

/-- **An expression is valid against the tree of a schema exactly if all its paths can be
followed through the definitions**, whichever trees were asked for before. -/
theorem Expression.isValidAgainst_iff_follows (hd : Schema.DistinctNames d) {r : Repository}
    (hr : r.Reachable d) {name : String} {t : Tree} (ht : (r.tree name).1 = .ok t)
    (e : Expression) :
    e.isValidAgainst t = true ↔
      ∀ path ∈ e.allPaths, Schema.follows d (Schema.fieldsOf d name) path = true := by
  have hstands := ((hr.sound hd).tree hd name).2 t ht
  rw [Expression.isValidAgainst, List.all_eq_true]
  exact forall₂_congr fun path _ => hstands.contains_iff path

/-- The fields of a node below itself can be asked for at any depth, but a text has none. -/
theorem isValidAgainst_recursive :
    ∃ t valid invalid,
      (Repository.tree
          ⟨[("Node", { properties := some [
              ("child", { type := some "array", items := some { reference := some "Node" } }),
              ("name", { type := some "string" })] })], .empty, []⟩ "Node").1 = .ok t ∧
        Expression.parse "name,child/child(name,*/child)" = .ok valid ∧
        valid.isValidAgainst t = true ∧
        Expression.parse "child/name/child" = .ok invalid ∧
        ¬ invalid.isValidAgainst t = true := by
  let r : Repository :=
    ⟨[("Node", { properties := some [
        ("child", { type := some "array", items := some { reference := some "Node" } }),
        ("name", { type := some "string" })] })], .empty, []⟩
  have hd : Schema.DistinctNames r.definitions := by
    intro name s h
    rw [Dictionary.get?_cons] at h
    split at h
    · cases h
      simp [Schema.HasDistinctNames, Schema.HaveDistinctNames]
    · exact absurd h (by simp)
  have hok : (r.tree "Node").1.isOk = true := by decide +kernel
  cases ht : (r.tree "Node").1 with
  | error why => exact absurd hok (by rw [ht]; simp [Except.isOk, Except.toBool])
  | ok t =>
      have hvalid := Expression.isValidAgainst_iff_follows hd .fresh ht
      refine ⟨t, _, _, rfl, rfl, (hvalid _).mpr (by decide), rfl, ?_⟩
      rw [hvalid]
      decide

end FieldSelection
