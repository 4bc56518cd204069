import FieldSelection.Expression
import FieldSelection.Proofs.Schema.Integrity
import FieldSelection.Proofs.Tree.Equality

/-!
# Which trees are the same

In the tree of an expression, and in that of a schema, no node has two children with the same
label. So these trees are compared by their paths, and to be the same is an equivalence on them.

A schema that refers to itself and a family of schemas that refer to each other in a ring have
trees of different shape, that go round in circles of different length. The trees are the same
all the same if the fields are.
-/

namespace FieldSelection

variable {d : Dictionary Schema} {r r' : Repository} {name : String}

/-- In the tree of a schema, nodes can be told by labels. -/
theorem Repository.Made.isUnambiguous {t : Tree} (h : Made d r name t r') : t.IsUnambiguous := by
  obtain ⟨m, hb⟩ := h.sound.building
  obtain ⟨hlt, hlabel, -⟩ := hb.root name t.root h.root
  have hbelow : r'.compilation.graph.IsUnambiguous t.root :=
    hb.owned.isLabelled.isUnambiguous fun n _ => h.sound.wellFormed.siblings n
  have hgraph : t.graph = r'.compilation.graph := h.graph
  exact ⟨hgraph ▸ hlt, hgraph ▸ hlabel, hgraph ▸ hbelow⟩

/-- In the tree of an expression, too. -/
theorem Expression.isUnambiguous_filterTree (e : Expression) : e.filterTree.IsUnambiguous :=
  Tree.isUnambiguous_ofPaths e.fieldPaths

/-- **To be the same is to have the same paths.** Trees of expressions and of schemas have no node
with two children of the same label, and any two trees without such a node are the same exactly
if the same labels can be walked from their roots. So each of them is the same as itself, and
both ways round, and what is the same as the same is the same. Of a tree that is built in any
other way, nothing has to be known but that siblings have different labels. -/
theorem Tree.same_iff_same_paths :
    ((∀ e : Expression, e.filterTree.IsUnambiguous) ∧
      (∀ (d : Dictionary Schema) (r : Repository) (name : String) (t : Tree),
        Schema.DistinctNames d → r.Reachable d → (r.tree name).1 = .ok t → t.IsUnambiguous) ∧
      ∀ (operations : List Graph.Operation) (t : Tree), t.graph = Graph.build operations →
        t.root < t.graph.size → t.graph.label t.root = none →
        (∀ m, t.graph.Holds t.root m → ((t.graph.children m).map t.graph.label).Nodup) →
        t.IsUnambiguous) ∧
      ∀ t u v : Tree, t.IsUnambiguous → u.IsUnambiguous → v.IsUnambiguous →
        (t.same u = true ↔ ∀ path, t.HasPath path ↔ u.HasPath path) ∧
          t.same t = true ∧
          (t.same u = true → u.same t = true) ∧
          (t.same u = true → u.same v = true → t.same v = true) := by
  refine ⟨⟨Expression.isUnambiguous_filterTree, fun d r name t hd hr ht => ?_,
    fun operations t hbuild hlt hroot hsiblings => ?_⟩, fun t u v ht hu hv => ?_⟩
  · exact (Repository.Made.of_eq_ok (hr.sound hd) hd ht).isUnambiguous
  · exact Tree.isUnambiguous_of_build hbuild hlt hroot hsiblings
  · rw [Tree.same_iff_hasPath ht hu, Tree.same_iff_hasPath ht ht, Tree.same_iff_hasPath hu ht,
      Tree.same_iff_hasPath hu hv, Tree.same_iff_hasPath ht hv]
    refine ⟨Iff.rfl, fun _ => Iff.rfl, fun htu path => ?_, fun htu huv path => ?_⟩
    · exact (htu path).symm
    · exact (htu path).trans (huv path)

/-- A list whose cells are all alike, and a list of even and odd cells. -/
def cells : Dictionary Schema :=
  [("Cell", { properties := some [
      ("next", { reference := some "Cell" }),
      ("value", { type := some "string" })] }),
    ("Even", { properties := some [
      ("next", { reference := some "Odd" }),
      ("value", { type := some "string" })] }),
    ("Odd", { properties := some [
      ("value", { type := some "string" }),
      ("next", { type := some "array", items := some { reference := some "Even" } })] })]

theorem distinctNames_cells : Schema.DistinctNames cells := by
  intro name s h
  have hmem := Dictionary.mem_of_get? h
  simp only [cells, List.mem_cons, Prod.mk.injEq, List.not_mem_nil, or_false] at hmem
  rcases hmem with ⟨rfl, rfl⟩ | ⟨rfl, rfl⟩ | ⟨rfl, rfl⟩ <;>
    simp [Schema.HasDistinctNames, Schema.HaveDistinctNames]

/-- A cell: below the next one come the same fields again. -/
def cell : Tree :=
  ⟨⟨#[⟨none, [.owned 1, .owned 2]⟩, ⟨some (.name "next"), [.spliced 0]⟩,
    ⟨some (.name "value"), []⟩]⟩, 0⟩

/-- An even cell: below the next one come the fields of the odd cell at 2, and below its next one
those of the even cell. -/
def evenCell : Tree :=
  ⟨⟨#[⟨none, [.owned 1, .owned 5]⟩, ⟨some (.name "next"), [.spliced 2]⟩,
    ⟨none, [.owned 3, .owned 4]⟩, ⟨some (.name "value"), []⟩,
    ⟨some (.name "next"), [.spliced 0]⟩, ⟨some (.name "value"), []⟩]⟩, 0⟩

/-- The same graph seen from the odd cell. -/
def oddCell : Tree := { evenCell with root := 2 }

/-- A cell lies below itself at once, an even cell only below an odd one, whose fields are in
another order. They are the same, so they have the same paths; two cells alone are something
else. -/
theorem Tree.same_iff_same_paths_cells :
    ((Repository.tree { definitions := cells } "Cell").1 = .ok cell ∧
        (Repository.tree { definitions := cells } "Even").1 = .ok evenCell ∧
        ((Repository.tree { definitions := cells } "Even").2.tree "Odd").1 = .ok oddCell) ∧
      (∀ path, cell.HasPath path ↔ evenCell.HasPath path) ∧
      (∀ path, evenCell.HasPath path ↔ oddCell.HasPath path) ∧
      cell.same oddCell = true ∧
      ¬ ∀ path, (Tree.ofPaths [[.name "next", .name "next"], [.name "value"]]).HasPath path ↔
        cell.HasPath path := by
  have hcell : (Repository.tree { definitions := cells } "Cell").1 = .ok cell := by
    decide +kernel
  have heven : (Repository.tree { definitions := cells } "Even").1 = .ok evenCell := by
    decide +kernel
  have hodd : ((Repository.tree { definitions := cells } "Even").2.tree "Odd").1 =
      .ok oddCell := by decide +kernel
  obtain ⟨⟨-, hschema, -⟩, hpaths⟩ := Tree.same_iff_same_paths
  have hcell' := hschema cells _ "Cell" _ distinctNames_cells .fresh hcell
  have heven' := hschema cells _ "Even" _ distinctNames_cells .fresh heven
  have hodd' := hschema cells _ "Odd" _ distinctNames_cells (.tree .fresh "Even") hodd
  obtain ⟨hiff, -, -, htrans⟩ := hpaths cell evenCell oddCell hcell' heven' hodd'
  have hfirst : cell.same evenCell = true := by decide +kernel
  have hsecond : evenCell.same oddCell = true := by decide +kernel
  refine ⟨⟨hcell, heven, hodd⟩, hiff.mp hfirst, ?_, htrans hfirst hsecond, fun hpath => ?_⟩
  · exact (hpaths evenCell oddCell cell heven' hodd' hcell').1.mp hsecond
  · have hlist := Tree.isUnambiguous_ofPaths [[.name "next", .name "next"], [.name "value"]]
    have hsame := (hpaths _ cell cell hlist hcell' hcell').1.mpr hpath
    exact absurd hsame (by decide +kernel)

end FieldSelection
