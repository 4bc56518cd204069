import FieldSelection.Proofs.Context
import FieldSelection.Tree
import Mathlib.Data.List.Induction

/-!
# Contexts along the names of a place

The filter goes from the context of an object to that of a field, one name at a time. Here
the names from the root to a place are taken together. `LeadsTo` says which nodes they come
to, each step going to a child that selects the name, and the context of a place is read off
these nodes: everything is kept at and below a place where one of them admits everything, and
at the other places the nodes of the context are these nodes.
-/

namespace FieldSelection.Tree

/-- What a tree keeps at the place that these names lead to, if anything. -/
def contextAt (t : Tree) (names : List String) : Option Context :=
  names.foldl (fun context name => context.bind (Context.field t.graph name))
    (some (.ofNode t.graph t.root))

/-- The nodes that names lead to. -/
inductive LeadsTo (t : Tree) : List String → NodeId → Prop where
  /-- Without a name, the root. -/
  | root : LeadsTo t [] t.root
  /-- With one more name, the children that select it. -/
  | child {names : List String} {name : String} {n c : NodeId} :
      LeadsTo t names n → c ∈ t.graph.children n → t.graph.selects c name = true →
      LeadsTo t (names ++ [name]) c

/-- Whether everything is kept at a place: on the way there, the names lead to a node that
admits everything. -/
def KeepsAll (t : Tree) (names : List String) : Prop :=
  ∃ before, before <+: names ∧ ∃ n, t.LeadsTo before n ∧ t.graph.admitsAll n = true

variable {t : Tree} {names : List String} {name : String} {n c : NodeId}

/-! ## One more name -/

@[simp] theorem contextAt_nil : t.contextAt [] = some (.ofNode t.graph t.root) := rfl

theorem contextAt_concat : t.contextAt (names ++ [name]) =
    (t.contextAt names).bind (Context.field t.graph name) := by
  rw [contextAt, List.foldl_append]
  rfl

theorem leadsTo_nil_iff : t.LeadsTo [] n ↔ n = t.root := by
  constructor
  · intro h
    generalize hnil : ([] : List String) = names at h
    cases h with
    | root => rfl
    | child => exact absurd hnil (by simp)
  · rintro rfl
    exact LeadsTo.root

theorem leadsTo_concat_iff :
    t.LeadsTo (names ++ [name]) c ↔
      ∃ n, t.LeadsTo names n ∧ c ∈ t.graph.children n ∧ t.graph.selects c name = true := by
  constructor
  · intro h
    generalize hconcat : names ++ [name] = names' at h
    cases h with
    | root => exact absurd hconcat (by simp)
    | child hn hc hsel =>
        obtain ⟨rfl, hname⟩ := List.append_inj' hconcat rfl
        obtain rfl := List.singleton_inj.mp hname
        exact ⟨_, hn, hc, hsel⟩
  · rintro ⟨n, hn, hc, hsel⟩
    exact LeadsTo.child hn hc hsel

theorem keepsAll_nil_iff : t.KeepsAll [] ↔ t.graph.admitsAll t.root = true := by
  simp [KeepsAll, leadsTo_nil_iff]

theorem keepsAll_concat_iff :
    t.KeepsAll (names ++ [name]) ↔
      t.KeepsAll names ∨ ∃ n, t.LeadsTo (names ++ [name]) n ∧ t.graph.admitsAll n = true := by
  simp only [KeepsAll, List.prefix_concat_iff]
  constructor
  · rintro ⟨before, rfl | hbefore, hn⟩
    · exact Or.inr hn
    · exact Or.inl ⟨before, hbefore, hn⟩
  · rintro (⟨before, hbefore, hn⟩ | hn)
    · exact ⟨before, Or.inr hbefore, hn⟩
    · exact ⟨_, Or.inl rfl, hn⟩

/-- Where not everything is kept, the names lead to no node that admits everything. -/
theorem admitsAll_eq_false_of_leadsTo (hnot : ¬ t.KeepsAll names) (h : t.LeadsTo names n) :
    t.graph.admitsAll n = false := by
  by_contra hadm
  exact hnot ⟨names, List.prefix_refl names, n, h, by simpa using hadm⟩

/-! ## The context of a place -/

/-- What the context of a place has to do with the nodes that the names lead to. -/
structure Traces (t : Tree) (names : List String) (context : Option Context) : Prop where
  /-- Everything is kept exactly where the tree keeps all. -/
  all_iff : context = some .all ↔ t.KeepsAll names
  /-- Elsewhere, the nodes are those that the names lead to. -/
  holds_iff : ¬ t.KeepsAll names → ∀ n, Context.Holds context n ↔ t.LeadsTo names n

theorem traces_root : t.Traces [] (some (.ofNode t.graph t.root)) where
  all_iff := by
    rw [Option.some.injEq, Context.ofNode_eq_all_iff, keepsAll_nil_iff]
  holds_iff := by
    intro hnot n
    rw [keepsAll_nil_iff, Bool.not_eq_true] at hnot
    rw [Context.holds_ofNode_iff hnot, leadsTo_nil_iff]

/-- The step to the value of a field goes along with one more name. -/
theorem Traces.field {context : Option Context} (h : t.Traces names context) (name : String) :
    t.Traces (names ++ [name]) (context.bind (Context.field t.graph name)) := by
  by_cases hall : t.KeepsAll names
  · -- what is kept as a whole is kept all the way down
    have hbelow : t.KeepsAll (names ++ [name]) := keepsAll_concat_iff.mpr (Or.inl hall)
    rw [h.all_iff.mpr hall]
    exact ⟨⟨fun _ => hbelow, fun _ => rfl⟩, fun hnot => absurd hbelow hnot⟩
  · have hholds := h.holds_iff hall
    match context with
    | some .all => exact absurd (h.all_iff.mp rfl) hall
    | none =>
        have hnone : ∀ c, ¬ t.LeadsTo (names ++ [name]) c := by
          intro c hc
          obtain ⟨n, hn, _⟩ := leadsTo_concat_iff.mp hc
          exact Context.not_holds_none n ((hholds n).mpr hn)
        refine ⟨?_, fun _ c => ?_⟩
        · simp [keepsAll_concat_iff, hall, hnone]
        · simp [hnone]
    | some (.nodes ids) =>
        have hselected : ∀ c, Context.Selected t.graph ids name c ↔
            t.LeadsTo (names ++ [name]) c := by
          intro c
          simp only [Context.Selected, leadsTo_concat_iff, ← hholds, Context.holds_nodes]
        have hfield : Context.field t.graph name (.nodes ids) = some .all ↔
            t.KeepsAll (names ++ [name]) := by
          simp only [Context.field_eq_all_iff, keepsAll_concat_iff, hselected, hall, false_or]
        refine ⟨hfield, fun hnot c => ?_⟩
        rw [Option.bind_some, Context.holds_field_iff (mt hfield.mp hnot), hselected]

theorem traces_contextAt (t : Tree) (names : List String) : t.Traces names (t.contextAt names) := by
  induction names using List.reverseRecOn with
  | nil => exact traces_root
  | append_singleton names name ih =>
      rw [contextAt_concat]
      exact ih.field name

/-- **Everything is kept at a place exactly if the names come by a node that admits
everything.** -/
theorem contextAt_eq_all_iff : t.contextAt names = some .all ↔ t.KeepsAll names :=
  (t.traces_contextAt names).all_iff

/-- **At the other places, the context holds the nodes that the names lead to.** -/
theorem holds_contextAt_iff (hnot : ¬ t.KeepsAll names) :
    Context.Holds (t.contextAt names) n ↔ t.LeadsTo names n :=
  (t.traces_contextAt names).holds_iff hnot n

/-- A value without values inside is kept where everything is, and where the names lead to a
wildcard. -/
theorem any_keepsScalar_contextAt_iff :
    (t.contextAt names).any (Context.keepsScalar t.graph) = true ↔
      t.KeepsAll names ∨ ∃ n, t.LeadsTo names n ∧ t.graph.label n = some .wildcard := by
  rw [Context.any_keepsScalar_iff, contextAt_eq_all_iff]
  by_cases hall : t.KeepsAll names
  · simp [hall]
  · simp only [hall, false_or, holds_contextAt_iff hall]
    constructor
    · rintro ⟨n, hn, hwild | hadm⟩
      · exact ⟨n, hn, hwild⟩
      · exact absurd hadm (by simp [admitsAll_eq_false_of_leadsTo hall hn])
    · rintro ⟨n, hn, hwild⟩
      exact ⟨n, hn, Or.inl hwild⟩

end FieldSelection.Tree
