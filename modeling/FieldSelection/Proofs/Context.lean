import FieldSelection.Context
import FieldSelection.Proofs.Graph.OpenLeaf
import Mathlib.Data.List.Nodup

/-!
# What contexts stand for

A context lists the nodes that the names on the way to a place can lead to. `union` puts
several lists together, and what counts of the outcome is which nodes are in it. So the step
from a place to the value of a field is said node by node: everything is kept if one of the
children that the name leads to admits everything, and otherwise these children are the nodes
of the next context.
-/

namespace FieldSelection

namespace Context

/-- Whether a node is one that is selected from, at a place with this context. -/
def Holds (context : Option Context) (n : NodeId) : Prop :=
  ∃ ids, context = some (.nodes ids) ∧ n ∈ ids

@[simp] theorem not_holds_none (n : NodeId) : ¬ Holds none n := by simp [Holds]

@[simp] theorem holds_nodes {ids : List NodeId} {n : NodeId} :
    Holds (some (.nodes ids)) n ↔ n ∈ ids := by simp [Holds]

variable {g : Graph} {contexts : List Context} {n : NodeId}

/-! ## Putting contexts together -/

/-- Gathering adds the nodes of a context to those that were found. A single one is not repeated,
but of several each one is that was found before. -/
theorem gather_nodes (found ids : List NodeId) (rest : List Context) :
    ∃ found', gather found (.nodes ids :: rest) = gather found' rest ∧
      (∀ n, n ∈ found' ↔ n ∈ found ∨ n ∈ ids) ∧
      (found'.Nodup ↔ found.Nodup ∧ ids.Nodup ∧ (ids.length ≤ 1 ∨ ∀ n ∈ ids, n ∉ found)) := by
  have hdisjoint : ∀ {ids : List NodeId}, (found ++ ids).Nodup ↔
      found.Nodup ∧ ids.Nodup ∧ ∀ n ∈ ids, n ∉ found := by
    intro ids
    rw [List.nodup_append', List.disjoint_right]
  -- a single node is compared with those that were found, several are not
  match ids with
  | [m] =>
      refine ⟨_, rfl, fun n => ?_, ?_⟩
      · split
        · rename_i hm
          constructor
          · exact Or.inl
          · rintro (h | h)
            · exact h
            · rw [List.mem_singleton.mp h]
              exact hm
        · exact List.mem_append
      · split
        · simp
        · rename_i hm
          simp [hdisjoint, hm]
  | [] => exact ⟨_, rfl, fun n => List.mem_append, by simp⟩
  | _ :: _ :: _ => exact ⟨_, rfl, fun n => List.mem_append, by simp [hdisjoint]⟩

theorem gather_eq_none_iff (found : List NodeId) :
    gather found contexts = none ↔ .all ∈ contexts := by
  induction contexts generalizing found with
  | nil => simp [gather]
  | cons c rest ih =>
      cases c with
      | all => simp [gather]
      | nodes ids =>
          obtain ⟨found', hgather, _⟩ := gather_nodes found ids rest
          rw [hgather, ih]
          simp

theorem mem_gather_iff {found ids : List NodeId} (h : gather found contexts = some ids) :
    n ∈ ids ↔ n ∈ found ∨ ∃ c ∈ contexts, Holds (some c) n := by
  induction contexts generalizing found with
  | nil =>
      cases h
      simp
  | cons c rest ih =>
      cases c with
      | all => exact absurd h (by simp [gather])
      | nodes more =>
          obtain ⟨found', hgather, hfound, -⟩ := gather_nodes found more rest
          rw [hgather] at h
          rw [ih h, hfound]
          simp [or_assoc]

theorem union_eq_all_iff : union contexts = some .all ↔ .all ∈ contexts := by
  rw [← gather_eq_none_iff []]
  unfold union
  split <;> simp_all

theorem holds_union_iff (h : .all ∉ contexts) :
    Holds (union contexts) n ↔ ∃ c ∈ contexts, Holds (some c) n := by
  have hsome := mt (gather_eq_none_iff []).mp h
  obtain ⟨ids, hids⟩ := Option.ne_none_iff_exists'.mp hsome
  have hmem := mem_gather_iff (n := n) hids
  simp only [List.not_mem_nil, false_or] at hmem
  rw [← hmem, union, hids]
  cases ids <;> simp

/-! ## From a place to the value of a field -/

theorem ofNode_eq_all_iff : ofNode g n = .all ↔ g.admitsAll n = true := by
  unfold ofNode
  split <;> simp_all

theorem holds_ofNode_iff {m : NodeId} (h : g.admitsAll n = false) :
    Holds (some (ofNode g n)) m ↔ m = n := by
  rw [ofNode, h]
  simp

/-- Where a name leads to from one of these nodes. -/
def Selected (g : Graph) (ids : List NodeId) (name : String) (n : NodeId) : Prop :=
  ∃ m ∈ ids, n ∈ g.children m ∧ g.selects n name = true

theorem selected_iff_exists_single {ids : List NodeId} {name : String} {m : NodeId} :
    Selected g ids name m ↔ ∃ n ∈ ids, Selected g [n] name m := by
  simp [Selected]

theorem ofField_eq_all_iff {name : String} :
    ofField g name n = some .all ↔ ∃ m, Selected g [n] name m ∧ g.admitsAll m = true := by
  rw [ofField, union_eq_all_iff]
  simp [Selected, ofNode_eq_all_iff, and_assoc]

theorem holds_ofField_iff {name : String} {m : NodeId} (h : ofField g name n ≠ some .all) :
    Holds (ofField g name n) m ↔ Selected g [n] name m := by
  have hnot : ∀ c, Selected g [n] name c → g.admitsAll c = false := by
    intro c hc
    by_contra hadm
    exact h (ofField_eq_all_iff.mpr ⟨c, hc, by simpa using hadm⟩)
  rw [ofField, holds_union_iff (mt union_eq_all_iff.mpr h)]
  constructor
  · rintro ⟨_, hmem, hholds⟩
    obtain ⟨c, hc, rfl⟩ := List.mem_map.mp hmem
    have hsel : Selected g [n] name c := ⟨n, List.mem_singleton_self n, List.mem_filter.mp hc⟩
    rw [(holds_ofNode_iff (hnot c hsel)).mp hholds]
    exact hsel
  · intro hsel
    have hadm := hnot m hsel
    obtain ⟨n', hn', hchild⟩ := hsel
    rw [List.mem_singleton.mp hn'] at hchild
    exact ⟨ofNode g m, List.mem_map_of_mem (List.mem_filter.mpr hchild),
      (holds_ofNode_iff hadm).mpr rfl⟩

/-- Everything is kept of the value of a field exactly if the name leads to a node that
admits everything. -/
theorem field_eq_all_iff {ids : List NodeId} {name : String} :
    field g name (.nodes ids) = some .all ↔
      ∃ m, Selected g ids name m ∧ g.admitsAll m = true := by
  rw [field, union_eq_all_iff, List.mem_filterMap]
  constructor
  · rintro ⟨n, hn, hall⟩
    obtain ⟨m, hm, hadm⟩ := ofField_eq_all_iff.mp hall
    exact ⟨m, selected_iff_exists_single.mpr ⟨n, hn, hm⟩, hadm⟩
  · rintro ⟨m, hm, hadm⟩
    obtain ⟨n, hn, hm⟩ := selected_iff_exists_single.mp hm
    exact ⟨n, hn, ofField_eq_all_iff.mpr ⟨m, hm, hadm⟩⟩

/-- Otherwise the nodes that the name leads to are what is selected from. -/
theorem holds_field_iff {ids : List NodeId} {name : String} {m : NodeId}
    (h : field g name (.nodes ids) ≠ some .all) :
    Holds (field g name (.nodes ids)) m ↔ Selected g ids name m := by
  rw [field, holds_union_iff (mt union_eq_all_iff.mpr h), selected_iff_exists_single]
  have hone : ∀ n ∈ ids, ofField g name n ≠ some .all := by
    intro n hn hall
    exact h (union_eq_all_iff.mpr (List.mem_filterMap.mpr ⟨n, hn, hall⟩))
  constructor
  · rintro ⟨c, hc, hholds⟩
    obtain ⟨n, hn, hfield⟩ := List.mem_filterMap.mp hc
    rw [← hfield] at hholds
    exact ⟨n, hn, (holds_ofField_iff (hone n hn)).mp hholds⟩
  · rintro ⟨n, hn, hsel⟩
    have hholds := (holds_ofField_iff (hone n hn)).mpr hsel
    obtain ⟨ids', hfield, hm⟩ := hholds
    exact ⟨.nodes ids', List.mem_filterMap.mpr ⟨n, hn, hfield⟩, ids', rfl, hm⟩

/-- A value without values inside is kept if everything is, or at a node that is a wildcard
or admits everything. -/
theorem any_keepsScalar_iff {context : Option Context} :
    context.any (keepsScalar g) = true ↔
      context = some .all ∨
        ∃ n, Holds context n ∧ (g.label n = some .wildcard ∨ g.admitsAll n = true) := by
  cases context with
  | none => simp
  | some c =>
      cases c with
      | all => simp [keepsScalar]
      | nodes ids => simp [keepsScalar, Graph.isWildcard]

end Context

end FieldSelection
