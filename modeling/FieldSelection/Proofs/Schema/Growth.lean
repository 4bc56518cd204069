import FieldSelection.Proofs.Dictionary
import FieldSelection.Proofs.Graph.Ownership
import FieldSelection.Proofs.Schema.Survey
import Mathlib.Data.Finset.Card
import Mathlib.Data.Finset.Dedup
import Mathlib.Data.List.Forall2

/-!
# Graphs that stand for schemas

What a node of a compiled graph stands for is not written in it. So a meaning is carried
beside the graph, which gives each node the content of the schema that it was made for. A node
is finished when its links are what its meaning asks for: the catch-all for anything, one child
for each of the fields, or the children of the root that was entered for the name that the
schema refers to. That root need not be finished itself, and this is how schemas can refer to
each other.

While a graph grows, nodes get neither new labels nor new meanings, and only those that are
being worked on get new links. Roots stay where they are. So what is finished stays finished.
-/

namespace FieldSelection

/-- The content that each node was made for. -/
abbrev Meaning := NodeId → Schema.Content

/-- Whether a node stands for a field. -/
structure StandsFor (g : Graph) (m : Meaning) (n : NodeId) (field : Segment × Schema) :
    Prop where
  /-- The node is there. -/
  lt : n < g.size
  /-- The field goes by the label of the node. -/
  label : g.label n = some field.1
  /-- No field goes by the catch-all. -/
  ne_catchAll : field.1 ≠ .catchAll
  /-- The node means what the schema of the field says. -/
  meaning : m n = field.2.content

/-- Whether the links of a node are what its meaning asks for. -/
inductive Finished (c : Compilation) (m : Meaning) (n : NodeId) : Prop where
  /-- There is the catch-all, with nothing below it. -/
  | anything {k : NodeId} (meaning : m n = .anything) (links : c.graph.links n = [.owned k])
      (label : c.graph.label k = some .catchAll) (below : m k = .fields [])
  /-- There is a child for each field. -/
  | fields {fields : List (Segment × Schema)} {cs : List NodeId} (meaning : m n = .fields fields)
      (links : c.graph.links n = Link.owning cs)
      (children : List.Forall₂ (StandsFor c.graph m) cs fields)
  /-- The children are those of the root that was entered for the name. -/
  | spliced {target : String} {r : NodeId} (meaning : m n = .reference target)
      (label : c.graph.label n ≠ none) (links : c.graph.links n = [.spliced r])
      (root : c.roots.get? target = some r)

/-- What holds while schemas are compiled. -/
structure Building (definitions : Dictionary Schema) (unfinished : List NodeId) (c : Compilation)
    (m : Meaning) : Prop where
  /-- The nodes that are not being worked on are finished. -/
  finished : ∀ n, n < c.graph.size → n ∉ unfinished → Finished c m n
  /-- A name has a root with the fields of its schema. -/
  root : ∀ name r, c.roots.get? name = some r →
    r < c.graph.size ∧ c.graph.label r = none ∧ m r = .fields (Schema.fieldsOf definitions name)
  /-- A root belongs to one name. -/
  distinct : ∀ name name' r, c.roots.get? name = some r → c.roots.get? name' = some r →
    name = name'
  /-- A node without a label is the root of a name. -/
  named : ∀ n, n < c.graph.size → c.graph.label n = none →
    ∃ name, c.roots.get? name = some n
  /-- A child belongs to one node. -/
  owned : c.graph.WellOwned

/-- What compiling leaves of the state it started in: the labels of all nodes, the links of all
but a few, and the roots. -/
structure Grown (changed : List NodeId) (c c' : Compilation) : Prop where
  /-- No node is gone. -/
  size_le : c.graph.size ≤ c'.graph.size
  /-- No label has changed. -/
  label : ∀ n, n < c.graph.size → c'.graph.label n = c.graph.label n
  /-- Few nodes have other links. -/
  links : ∀ n, n < c.graph.size → n ∉ changed → c'.graph.links n = c.graph.links n
  /-- A name that has a root keeps it. -/
  roots : ∀ name r, c.roots.get? name = some r → c'.roots.get? name = some r
  /-- Without the names that were entered, the roots are the same. -/
  forgotten : c'.entered.foldl Dictionary.erase c'.roots = c.entered.foldl Dictionary.erase c.roots

/-- What compiling has achieved where it succeeds. -/
structure Built (definitions : Dictionary Schema) (unfinished changed : List NodeId)
    (c : Compilation) (m : Meaning) (c' : Compilation) (m' : Meaning) : Prop where
  /-- The state has only grown. -/
  grown : Grown changed c c'
  /-- No meaning has changed. -/
  meaning : ∀ n, n < c.graph.size → m' n = m n
  /-- Only the nodes that were being worked on are still unfinished. -/
  building : Building definitions unfinished c' m'

variable {d : Dictionary Schema} {unfinished changed more : List NodeId}
  {c c' c'' : Compilation} {m m' m'' : Meaning} {n k r : NodeId}

theorem exists_mem_of_forall₂ {α β : Type} {R : α → β → Prop} {xs : List α} {ys : List β}
    (h : List.Forall₂ R xs ys) {x : α} (hx : x ∈ xs) : ∃ y ∈ ys, R x y := by
  induction h with
  | nil => exact absurd hx List.not_mem_nil
  | @cons a b _ _ hab _ ih =>
      rcases List.mem_cons.mp hx with rfl | hx
      · exact ⟨b, List.mem_cons_self, hab⟩
      · obtain ⟨y, hy, hxy⟩ := ih hx
        exact ⟨y, List.mem_cons_of_mem _ hy, hxy⟩

/-! ## Growth -/

namespace Grown

theorem refl (changed : List NodeId) (c : Compilation) : Grown changed c c :=
  ⟨Nat.le_refl _, fun _ _ => rfl, fun _ _ _ => rfl, fun _ _ h => h, rfl⟩

theorem mono (h : Grown changed c c') (hsub : changed ⊆ more) : Grown more c c' :=
  { h with links := fun n hn hnot => h.links n hn fun hmem => hnot (hsub hmem) }

/-- Growth goes on from growth; what the later one changes counts only for nodes that were
there at first. -/
theorem trans (h : Grown changed c c') (h' : Grown more c' c'')
    (hmore : ∀ n ∈ more, n < c.graph.size → n ∈ changed) : Grown changed c c'' where
  size_le := Nat.le_trans h.size_le h'.size_le
  label := by
    intro n hn
    rw [h'.label n (Nat.lt_of_lt_of_le hn h.size_le), h.label n hn]
  links := by
    intro n hn hnot
    rw [h'.links n (Nat.lt_of_lt_of_le hn h.size_le) fun hmem => hnot (hmore n hmem hn),
      h.links n hn hnot]
  roots := fun name r hget => h'.roots name r (h.roots name r hget)
  forgotten := h'.forgotten.trans h.forgotten

/-- A graph that only grew makes a state that only grew. -/
theorem of_graph {g : Graph} (hsize : c.graph.size ≤ g.size)
    (hlabel : ∀ n, n < c.graph.size → g.label n = c.graph.label n)
    (hlinks : ∀ n, n < c.graph.size → n ∉ changed → g.links n = c.graph.links n) :
    Grown changed c { c with graph := g } :=
  ⟨hsize, hlabel, hlinks, fun _ _ h => h, rfl⟩

end Grown

/-- What happens to a node that was not there changes none that was. -/
theorem changed_of_new (c : Compilation) (changed : List NodeId) :
    ∀ n ∈ [c.graph.size], n < c.graph.size → n ∈ changed := by
  intro n hn hlt
  rw [List.mem_singleton.mp hn] at hlt
  exact absurd hlt (Nat.lt_irrefl _)

/-! ## Names that are known -/

/-- The names that have a root. -/
def Compilation.known (c : Compilation) : Finset String := c.roots.keys.toFinset

/-- How many definitions have no root yet. -/
def Compilation.unentered (d : Dictionary Schema) (c : Compilation) : Nat :=
  (d.keys.toFinset \ c.known).card

theorem Compilation.mem_known {name : String} :
    name ∈ c.known ↔ ∃ r, c.roots.get? name = some r := by
  rw [known, List.mem_toFinset, Dictionary.mem_keys_iff]

/-- There are no more names to be entered than definitions. -/
theorem Compilation.unentered_le_length (d : Dictionary Schema) (c : Compilation) :
    c.unentered d ≤ d.length := by
  have hkeys := List.toFinset_card_le d.keys
  rw [Dictionary.keys, List.length_map] at hkeys
  exact Nat.le_trans (Finset.card_le_card Finset.sdiff_subset) hkeys

theorem Grown.unentered_le (h : Grown changed c c') : c'.unentered d ≤ c.unentered d := by
  have hsub : c.known ⊆ c'.known := by
    intro name hname
    obtain ⟨r, hget⟩ := Compilation.mem_known.mp hname
    exact Compilation.mem_known.mpr ⟨r, h.roots name r hget⟩
  exact Finset.card_le_card (Finset.sdiff_subset_sdiff (Finset.Subset.refl _) hsub)

/-! ## What stays finished -/

theorem StandsFor.grown {field : Segment × Schema} (h : StandsFor c.graph m n field)
    (hgrown : Grown changed c c') (hm : ∀ n, n < c.graph.size → m' n = m n) :
    StandsFor c'.graph m' n field where
  lt := Nat.lt_of_lt_of_le h.lt hgrown.size_le
  label := by rw [hgrown.label n h.lt, h.label]
  ne_catchAll := h.ne_catchAll
  meaning := by rw [hm n h.lt, h.meaning]

theorem Finished.grown (h : Finished c m n) (hgrown : Grown changed c c')
    (hm : ∀ n, n < c.graph.size → m' n = m n) (hn : n < c.graph.size) (hnot : n ∉ changed) :
    Finished c' m' n := by
  have hlabel := hgrown.label n hn
  have hlinks := hgrown.links n hn hnot
  have hmeaning := hm n hn
  cases h with
  | anything meaning links label below =>
      -- the catch-all is a node that was there before, so it means the same
      have hk := Graph.lt_size_of_label label
      exact .anything (by rw [hmeaning, meaning]) (by rw [hlinks, links])
        (by rw [hgrown.label _ hk, label]) (by rw [hm _ hk, below])
  | fields meaning links children =>
      exact .fields (by rw [hmeaning, meaning]) (by rw [hlinks, links])
        (children.imp fun _ _ h => h.grown hgrown hm)
  | spliced meaning label links root =>
      -- the root may have other links by now, but its name still has it
      exact .spliced (by rw [hmeaning, meaning]) (by rw [hlabel]; exact label)
        (by rw [hlinks, links]) (hgrown.roots _ _ root)

namespace Built

theorem refl (h : Building d unfinished c m) : Built d unfinished changed c m c m :=
  ⟨.refl _ c, fun _ _ => rfl, h⟩

theorem mono (h : Built d unfinished changed c m c' m') (hsub : changed ⊆ more) :
    Built d unfinished more c m c' m' :=
  { h with grown := h.grown.mono hsub }

theorem trans {others : List NodeId} (h : Built d others changed c m c' m')
    (h' : Built d unfinished more c' m' c'' m'')
    (hmore : ∀ n ∈ more, n < c.graph.size → n ∈ changed) :
    Built d unfinished changed c m c'' m'' where
  grown := h.grown.trans h'.grown hmore
  meaning := by
    intro n hn
    rw [h'.meaning n (Nat.lt_of_lt_of_le hn h.grown.size_le), h.meaning n hn]
  building := h'.building

end Built

namespace Building

/-- A node that is finished need not be worked on any more. -/
theorem finish (h : Building d (k :: unfinished) c m) (hk : Finished c m k) :
    Building d unfinished c m :=
  { h with
    finished := by
      intro n hn hnot
      by_cases hnk : n = k
      · rw [hnk]
        exact hk
      · exact h.finished n hn (by simp [hnk, hnot]) }

/-- When nothing is unfinished, a root owns one child for each field of its schema. -/
theorem root_links (h : Building d [] c m) {name : String} (hget : c.roots.get? name = some r) :
    ∃ cs, c.graph.links r = Link.owning cs ∧
      List.Forall₂ (StandsFor c.graph m) cs (Schema.fieldsOf d name) := by
  obtain ⟨hlt, hlabel, hmeaning⟩ := h.root name r hget
  cases h.finished r hlt List.not_mem_nil with
  | anything meaning => exact absurd (hmeaning.symm.trans meaning) (by simp)
  | fields meaning links children =>
      cases hmeaning.symm.trans meaning
      exact ⟨_, links, children⟩
  | spliced _ label => exact absurd hlabel label

/-- It is of no importance which names were entered. -/
theorem forget (h : Building d unfinished c m) :
    Building d unfinished ⟨c.graph, c.roots, []⟩ m where
  finished := by
    intro n hn hnot
    cases h.finished n hn hnot with
    | anything meaning links label below => exact .anything meaning links label below
    | fields meaning links children => exact .fields meaning links children
    | spliced meaning label links root => exact .spliced meaning label links root
  root := h.root
  distinct := h.distinct
  named := h.named
  owned := h.owned

/-- A graph that grew by nodes that are finished, or that are worked on from now on. -/
theorem grow {g : Graph} (h : Building d unfinished c m)
    (hgrown : Grown changed c { c with graph := g }) (howned : g.WellOwned)
    (hm : ∀ n, n < c.graph.size → m' n = m n) (hchanged : changed ⊆ more)
    (hmore : unfinished ⊆ more)
    (hlabel : ∀ n, c.graph.size ≤ n → n < g.size → g.label n ≠ none)
    (hnew : ∀ n, c.graph.size ≤ n → n < g.size → n ∉ more →
      Finished { c with graph := g } m' n) :
    Built d more changed c m { c with graph := g } m' where
  grown := hgrown
  meaning := hm
  building :=
    { finished := by
        intro n hn hnot
        rcases Nat.lt_or_ge n c.graph.size with hlt | hge
        · -- an older node that is not worked on has not changed
          exact (h.finished n hlt (mt (@hmore n) hnot)).grown hgrown hm hlt (mt (@hchanged n) hnot)
        · exact hnew n hge hn hnot
      root := by
        intro name r hget
        obtain ⟨hlt, hlabel, hmeaning⟩ := h.root name r hget
        exact ⟨Nat.lt_of_lt_of_le hlt hgrown.size_le, by rw [hgrown.label r hlt, hlabel],
          by rw [hm r hlt, hmeaning]⟩
      distinct := h.distinct
      named := by
        intro n hn hnone
        rcases Nat.lt_or_ge n c.graph.size with hlt | hge
        · rw [hgrown.label n hlt] at hnone
          exact h.named n hlt hnone
        · exact absurd hnone (hlabel n hge hn)
      owned := howned }

end Building

end FieldSelection
