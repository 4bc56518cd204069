import FieldSelection.Proofs.Schema.Asking
import FieldSelection.Proofs.Schema.Pairing

/-!
# Answers do not depend on the history

What a repository was asked before shows in the numbers of its nodes and in what it still has to
compile, but not in its answers. A question that fails leaves nothing behind. If there is a tree,
its graph can be paired with any other graph of the same definitions. If there is none, then
another repository meets the same error, whichever names it knows already.
-/

namespace FieldSelection.Repository

/-- A question to a repository. -/
inductive Request where
  /-- The tree of the schema of this name. -/
  | tree (name : String)
  /-- The trees of all schemas. -/
  | allTrees

/-- The repository after one more question. -/
def ask (r : Repository) : Request → Repository
  | .tree name => (r.tree name).2
  | .allTrees => r.allTrees.2

/-- The repository of these definitions after all these questions. -/
def after (definitions : Dictionary Schema) (history : List Request) : Repository :=
  history.foldl ask { definitions }

/-- Whether two answers are the same: both are trees with the same paths and the same outline, or
both are the same error. -/
inductive SameAnswer : Except SchemaError Tree → Except SchemaError Tree → Prop where
  /-- The trees are the same. -/
  | tree {t u : Tree} : t.same u = true → u.same t = true → t.outline = u.outline →
      SameAnswer (.ok t) (.ok u)
  /-- The errors are the same. -/
  | error (why : SchemaError) : SameAnswer (.error why) (.error why)

variable {d : Dictionary Schema} {r r' : Repository} {name : String} {t u : Tree}

/-! ## Histories -/

/-- What is kept when a tree is asked for is kept by all questions. -/
theorem foldl_ask_keeps {P : Repository → Prop}
    (hP : ∀ {r : Repository} name, P r → P (r.tree name).2) (history : List Request) (h : P r) :
    P (history.foldl ask r) := by
  induction history generalizing r with
  | nil => exact h
  | cons request rest ih =>
      refine ih ?_
      -- to ask for all trees is to ask for one after the other
      cases request with
      | tree name => exact hP name h
      | allTrees => exact trees_keeps hP _ h

theorem sound_after (hd : Schema.DistinctNames d) (history : List Request) :
    Sound d (after d history) :=
  foldl_ask_keeps (fun name h => h.next hd name) history (.fresh d)

/-- A name that has a root has it after all that is asked from then on. -/
theorem Sound.kept_foldl (h : Sound d r) (hd : Schema.DistinctNames d) {root : NodeId}
    (hget : r.roots.get? name = some root) (history : List Request) :
    (history.foldl ask r).roots.get? name = some root := by
  have hkeeps := foldl_ask_keeps (P := fun r => Sound d r ∧ r.roots.get? name = some root)
    (fun name' ⟨h, hget⟩ => ⟨h.next hd name', h.kept hd name' hget⟩) history ⟨h, hget⟩
  exact hkeeps.2

/-- A name that has a root is answered with the tree of that. -/
theorem tree_of_root {root : NodeId} (h : r.roots.get? name = some root) :
    r.tree name = (.ok ⟨r.graph, root⟩, r) := by
  rw [Repository.tree, h]

/-! ## Failures -/

/-- **A tree that cannot be made leaves no trace.** -/
theorem tree_eq_self_of_error (hd : Schema.DistinctNames d) (history : List Request)
    {name : String} {why : SchemaError}
    (h : ((after d history).tree name).1 = .error why) :
    ((after d history).tree name).2 = after d history := by
  rcases (sound_after hd history).tree_cases hd name with ⟨t, ht, _⟩ | ⟨why', heq, _⟩
  · exact absurd (ht.symm.trans h) (by simp)
  · rw [heq]

/-- Authors and books refer to each other. A catalogue refers to authors and to its publisher, and
then it has a list that does not say what is in it. -/
def bookshop : Dictionary Schema :=
  [("Author", { properties := some [
      ("books", { type := some "array", items := some { reference := some "Book" } }),
      ("name", { type := some "string" })] }),
    ("Book", { properties := some [
      ("author", { reference := some "Author" }),
      ("title", { type := some "string" })] }),
    ("Catalogue", { properties := some [
      ("authors", { type := some "array", items := some { reference := some "Author" } }),
      ("publisher", { reference := some "Publisher" }),
      ("shelves", { type := some "array" })] }),
    ("Publisher", { additional := some { type := some "any" } })]

theorem distinctNames_bookshop : Schema.DistinctNames bookshop := by
  intro name s h
  have hmem := Dictionary.mem_of_get? h
  simp only [bookshop, List.mem_cons, Prod.mk.injEq, List.not_mem_nil, or_false] at hmem
  rcases hmem with ⟨rfl, rfl⟩ | ⟨rfl, rfl⟩ | ⟨rfl, rfl⟩ | ⟨rfl, rfl⟩ <;>
    simp [Schema.HasDistinctNames, Schema.HaveDistinctNames]

/-- The publisher is entered before the catalogue fails, and it is forgotten again. -/
theorem tree_eq_self_of_error_catalogue :
    ((after bookshop [.tree "Book"]).tree "Catalogue").1 =
        .error (.invalidSchema (.name "shelves") .arrayWithoutItems) ∧
      ((after bookshop [.tree "Book"]).tree "Catalogue").2 = after bookshop [.tree "Book"] := by
  have hfails : ((after bookshop [.tree "Book"]).tree "Catalogue").1 =
      .error (.invalidSchema (.name "shelves") .arrayWithoutItems) := by decide +kernel
  exact ⟨hfails, tree_eq_self_of_error distinctNames_bookshop _ hfails⟩

/-! ## Answers -/

/-- Trees that were made for one name are the same. -/
theorem Made.same {r₁ r₂ : Repository} (ht : Made d r name t r₁) (hu : Made d r' name u r₂) :
    t.same u = true ∧ t.outline = u.outline := by
  obtain ⟨m, hb⟩ := ht.sound.building
  obtain ⟨m', hb'⟩ := hu.sound.building
  have hpairing := Paired.isPairing hb hb'
  have hroot : Paired r₁.compilation r₂.compilation t.root u.root := .root ht.root hu.root
  have hgraph : t.graph = r₁.compilation.graph := ht.graph
  have hgraph' : u.graph = r₂.compilation.graph := hu.graph
  rw [← hgraph, ← hgraph'] at hpairing
  exact ⟨Tree.same_of_isPairing hpairing hroot, Tree.outline_eq_of_isPairing hpairing hroot⟩

/-- Surveys for one name come to the same, but for the names that were known before. -/
theorem Sound.survey_eq (h : Sound d r) (h' : Sound d r')
    {fields : List (Segment × Schema)} {outcome outcome' : Except SchemaError (Finset String)}
    (hs : Schema.Surveys d r.compilation.known fields outcome)
    (hs' : Schema.Surveys d r'.compilation.known fields outcome') :
    outcome.map (· ∪ r'.compilation.known) = outcome'.map (· ∪ r.compilation.known) := by
  -- both come to what a survey comes to that knows all names from the start
  have hunion := hs.union h'.complete
  have hunion' := hs'.union h.complete
  rw [Finset.union_comm] at hunion'
  exact hunion.unique hunion'

/-- **Repositories of the same definitions give the same answers.** -/
theorem Sound.sameAnswer (h : Sound d r) (h' : Sound d r') (hd : Schema.DistinctNames d)
    (name : String) : SameAnswer (r.tree name).1 (r'.tree name).1 := by
  rcases h.tree_cases hd name with ⟨t, ht, hmade⟩ | ⟨why, heq, hsurvey⟩
  · rcases h'.tree_cases hd name with ⟨u, hu, hmade'⟩ | ⟨why', heq', hsurvey'⟩
    · rw [ht, hu]
      exact .tree (hmade.same hmade').1 (hmade'.same hmade).1 (hmade.same hmade').2
    · -- one survey met an error, so the other one did
      exact absurd (h.survey_eq h' hmade.survey hsurvey') (by simp [Except.map])
  · rcases h'.tree_cases hd name with ⟨u, hu, hmade'⟩ | ⟨why', heq', hsurvey'⟩
    · exact absurd (h.survey_eq h' hsurvey hmade'.survey) (by simp [Except.map])
    · cases Except.error.inj (h.survey_eq h' hsurvey hsurvey')
      rw [heq, heq']
      exact .error why

/-- **What a repository answers does not depend on its history.** After any questions, the answer
for a name is the one that is given if nothing was asked before; and once there is a tree for a
name, later answers have the same root. -/
theorem tree_independent_of_history (hd : Schema.DistinctNames d) (history : List Request)
    (name : String) :
    SameAnswer ((after d history).tree name).1 (tree { definitions := d } name).1 ∧
      ∀ (between : List Request) (t : Tree), ((after d history).tree name).1 = .ok t →
        ∃ t', ((after d (history ++ .tree name :: between)).tree name).1 = .ok t' ∧
          t'.root = t.root := by
  have hsound := sound_after hd history
  refine ⟨hsound.sameAnswer (.fresh d) hd name, fun between t ht => ?_⟩
  have hmade := Made.of_eq_ok hsound hd ht
  have hlater : after d (history ++ .tree name :: between) =
      between.foldl ask ((after d history).tree name).2 := by
    rw [after, List.foldl_append, List.foldl_cons]
    rfl
  rw [hlater, tree_of_root (hmade.sound.kept_foldl hd hmade.root between)]
  exact ⟨_, rfl, rfl⟩

/-- After the book, the author has another root than it has in a new repository, and all the same
it is the same tree. -/
theorem tree_independent_of_history_author :
    ((after bookshop [.tree "Catalogue", .tree "Book"]).tree "Author").1 ≠
        (tree { definitions := bookshop } "Author").1 ∧
      SameAnswer ((after bookshop [.tree "Catalogue", .tree "Book"]).tree "Author").1
        (tree { definitions := bookshop } "Author").1 := by
  refine ⟨by decide +kernel, ?_⟩
  exact (tree_independent_of_history distinctNames_bookshop _ _).1

end FieldSelection.Repository
