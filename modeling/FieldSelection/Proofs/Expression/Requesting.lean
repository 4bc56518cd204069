import FieldSelection.Checker
import FieldSelection.Proofs.Expression.Pruning
import FieldSelection.Proofs.FieldPath
import FieldSelection.Proofs.Json.Events
import FieldSelection.Proofs.Tree.Overlap

/-!
# Requested fields are the ones that filtering can output

A field is requested if a path of the expression agrees with the names that lead to it, as far
as both go. The filter knows nothing of this question: it sees documents, and a field is in its
output if something at or below the field is kept.

Whatever is kept agrees with some path, so a field of an output is requested. For the other
direction a document is built: the names of the field, one inside the other, and then on along
the path as far as that goes, with any name where it has a wildcard.
-/

namespace FieldSelection

open Json Filtering

/-! ## Fields of a document -/

namespace Json.Value

/-- Whether a value has a field that exactly these names lead to; arrays add none. -/
inductive HasField : List String → Value → Prop where
  /-- The field of an object. -/
  | here {name : String} {value : Value} {members : List (String × Value)} :
      (name, value) ∈ members → HasField [name] (.object members)
  /-- A field further down in the value of a field. -/
  | inside {name : String} {value : Value} {members : List (String × Value)}
      {names : List String} : (name, value) ∈ members → HasField names value →
      HasField (name :: names) (.object members)
  /-- A field of an element. -/
  | item {value : Value} {items : List Value} {names : List String} :
      value ∈ items → HasField names value → HasField names (.array items)

/-- The document whose only field has these names on its way. -/
def nest : List String → Value
  | [] => .null
  | name :: names => .object [(name, nest names)]

theorem hasField_nest {names : List String} (hne : names ≠ []) (more : List String) :
    HasField names (nest (names ++ more)) := by
  induction names with
  | nil => exact absurd rfl hne
  | cons name names ih =>
      cases names with
      | nil => exact .here List.mem_cons_self
      | cons next names => exact .inside List.mem_cons_self (ih (List.cons_ne_nil _ _))

end Json.Value

namespace Path

variable {path : Path} {names more : List String}

/-- What agrees with some names agrees with the first of them. -/
theorem agrees_of_agrees_append (h : path.agrees (names ++ more) = true) :
    path.agrees names = true := by
  induction path generalizing names with
  | nil => rfl
  | cons s path ih =>
      cases names with
      | nil => rfl
      | cons name names =>
          rw [List.cons_append, agrees, Bool.and_eq_true] at h
          rw [agrees, Bool.and_eq_true]
          exact ⟨h.1, ih h.2⟩

theorem agrees_of_covers (h : path.covers names = true) : path.agrees names = true := by
  rcases covers_iff.mp h with rfl | ⟨_, hagrees⟩
  · cases names <;> rfl
  · exact hagrees

/-- Names that go on along a path that agrees with them, down to its end. -/
theorem exists_covers_append (hno : Segment.catchAll ∉ path) (h : path.agrees names = true) :
    ∃ more, path.covers (names ++ more) = true := by
  have hcovers : ∃ more, path.length ≤ (names ++ more).length ∧
      path.agrees (names ++ more) = true := by
    induction path generalizing names with
    | nil => exact ⟨[], Nat.zero_le _, rfl⟩
    | cons s path ih =>
        have hpath : Segment.catchAll ∉ path := fun hmem => hno (List.mem_cons_of_mem _ hmem)
        cases names with
        | nil =>
            -- past the last name, the segment itself says which name may follow
            obtain ⟨more, hle, hagrees⟩ := ih hpath (agrees_nil path)
            obtain ⟨name, hname⟩ : ∃ name, s.matchesName name = true := by
              cases s with
              | name text => exact ⟨text, by simp [Segment.matchesName]⟩
              | wildcard => exact ⟨"", rfl⟩
              | catchAll => exact absurd List.mem_cons_self hno
            refine ⟨name :: more, Nat.succ_le_succ hle, ?_⟩
            have hrest : Path.agrees path more = true := hagrees
            rw [List.nil_append, agrees, hname, hrest]
            rfl
        | cons name names =>
            rw [agrees, Bool.and_eq_true] at h
            obtain ⟨more, hle, hagrees⟩ := ih hpath h.2
            refine ⟨more, Nat.succ_le_succ hle, ?_⟩
            rw [List.cons_append, agrees, h.1, hagrees]
            rfl
  obtain ⟨more, hle, hagrees⟩ := hcovers
  exact ⟨more, covers_iff.mpr (Or.inr ⟨hle, hagrees⟩)⟩

end Path

/-! ## What is kept agrees with a path -/

section Kept

variable {paths : List Path} {names more : List String}

theorem exists_agrees_of_coveredBy (h : coveredBy paths names = true) (more : List String) :
    ∃ p ∈ paths, p.agrees (names ++ more) = true := by
  obtain ⟨p, hp, hcovers⟩ := coveredBy_iff.mp h
  exact ⟨p, hp, Path.agrees_of_covers (Path.covers_append hcovers more)⟩

theorem exists_agrees_of_scalarKeptBy (h : scalarKeptBy paths names = true) :
    ∃ p ∈ paths, p.agrees names = true := by
  rcases Bool.or_eq_true_iff.mp h with hcovered | hpasses
  · obtain ⟨p, hp, hagrees⟩ := exists_agrees_of_coveredBy hcovered []
    rw [List.append_nil] at hagrees
    exact ⟨p, hp, hagrees⟩
  · obtain ⟨p, hp, hp'⟩ := List.any_eq_true.mp hpasses
    exact ⟨p, hp, (Path.passesByWildcard_iff.mp hp').2.1⟩

mutual

/-- Where something is kept, some path agrees with the names that lead there. -/
theorem exists_agrees_of_prune : ∀ (v : Value) {names : List String} {w : Value},
    prune paths names v = some w → ∃ p ∈ paths, p.agrees names = true
  | .array items, names, w, h => by
      rw [prune] at h
      split at h
      · rename_i hcovered
        simpa using exists_agrees_of_coveredBy hcovered []
      · obtain ⟨hne, _⟩ := Value.eq_of_ofKept h
        exact exists_agrees_of_pruneItems items hne
  | .object members, names, w, h => by
      rw [prune] at h
      split at h
      · rename_i hcovered
        simpa using exists_agrees_of_coveredBy hcovered []
      · obtain ⟨hne, _⟩ := Value.eq_of_ofKept h
        exact exists_agrees_of_pruneMembers members hne
  | .null, names, w, h | .bool _, names, w, h | .number _, names, w, h
  | .string _, names, w, h => by
      rw [prune_of_isScalar rfl] at h
      split at h
      · rename_i hkept
        exact exists_agrees_of_scalarKeptBy hkept
      · exact absurd h (by simp)

theorem exists_agrees_of_pruneItems : ∀ (items : List Value) {names : List String},
    pruneItems paths names items ≠ [] → ∃ p ∈ paths, p.agrees names = true
  | [], names, h => absurd rfl h
  | item :: rest, names, h => by
      rw [pruneItems] at h
      cases hitem : prune paths names item with
      | some w => exact exists_agrees_of_prune item hitem
      | none =>
          rw [hitem] at h
          exact exists_agrees_of_pruneItems rest h

theorem exists_agrees_of_pruneMembers : ∀ (members : List (String × Value)) {names : List String},
    pruneMembers paths names members ≠ [] → ∃ p ∈ paths, p.agrees names = true
  | [], names, h => absurd rfl h
  | (name, value) :: rest, names, h => by
      rw [pruneMembers] at h
      cases hvalue : prune paths (names ++ [name]) value with
      | some w =>
          obtain ⟨p, hp, hagrees⟩ := exists_agrees_of_prune value hvalue
          exact ⟨p, hp, Path.agrees_of_agrees_append hagrees⟩
      | none =>
          rw [hvalue] at h
          exact exists_agrees_of_pruneMembers rest h

end

theorem mem_pruneItems {items : List Value} {w : Value} (h : w ∈ pruneItems paths names items) :
    ∃ item ∈ items, prune paths names item = some w := by
  induction items with
  | nil => exact absurd h List.not_mem_nil
  | cons item rest ih =>
      rw [pruneItems] at h
      rcases List.mem_append.mp h with hitem | hrest
      · exact ⟨item, List.mem_cons_self, Option.mem_toList.mp hitem⟩
      · obtain ⟨item', hitem', hkept⟩ := ih hrest
        exact ⟨item', List.mem_cons_of_mem _ hitem', hkept⟩

theorem mem_pruneMembers {members : List (String × Value)} {name : String} {w : Value}
    (h : (name, w) ∈ pruneMembers paths names members) :
    ∃ value, (name, value) ∈ members ∧ prune paths (names ++ [name]) value = some w := by
  induction members with
  | nil => exact absurd h List.not_mem_nil
  | cons member rest ih =>
      obtain ⟨name', value'⟩ := member
      rw [pruneMembers] at h
      rcases List.mem_append.mp h with hmember | hrest
      · obtain ⟨w', hw', heq⟩ := Option.map_eq_some_iff.mp (Option.mem_toList.mp hmember)
        obtain ⟨rfl, rfl⟩ := Prod.mk.inj heq
        exact ⟨value', List.mem_cons_self, hw'⟩
      · obtain ⟨value, hvalue, hkept⟩ := ih hrest
        exact ⟨value, List.mem_cons_of_mem _ hvalue, hkept⟩

/-- An object that is kept is kept as a whole, or its fields are what is kept of the fields. -/
theorem prune_eq_object {v : Value} {kept : List (String × Value)}
    (h : prune paths names v = some (.object kept)) :
    coveredBy paths names = true ∨ ∃ members, kept = pruneMembers paths names members := by
  cases v with
  | object members =>
      rw [prune] at h
      split at h
      · rename_i hcovered
        exact Or.inl hcovered
      · obtain ⟨_, heq⟩ := Value.eq_of_ofKept h
        exact Or.inr ⟨members, Value.object.inj heq⟩
  | array items =>
      rw [prune] at h
      split at h
      · exact absurd h (by simp)
      · exact absurd (Value.eq_of_ofKept h).2 (by simp)
  | null | bool | number | string =>
      rw [prune_of_isScalar rfl] at h
      split at h <;> exact absurd h (by simp)

/-- An array that is kept is kept as a whole, or its elements are what is kept of the elements. -/
theorem prune_eq_array {v : Value} {kept : List Value}
    (h : prune paths names v = some (.array kept)) :
    coveredBy paths names = true ∨ ∃ items, kept = pruneItems paths names items := by
  cases v with
  | array items =>
      rw [prune] at h
      split at h
      · rename_i hcovered
        exact Or.inl hcovered
      · obtain ⟨_, heq⟩ := Value.eq_of_ofKept h
        exact Or.inr ⟨items, Value.array.inj heq⟩
  | object members =>
      rw [prune] at h
      split at h
      · exact absurd h (by simp)
      · exact absurd (Value.eq_of_ofKept h).2 (by simp)
  | null | bool | number | string =>
      rw [prune_of_isScalar rfl] at h
      split at h <;> exact absurd h (by simp)

/-- A field of what is kept agrees with some path. -/
theorem exists_agrees_of_hasField {w : Value} (hfield : Value.HasField more w) :
    ∀ {names : List String} {v : Value}, prune paths names v = some w →
      ∃ p ∈ paths, p.agrees (names ++ more) = true := by
  -- the induction is on the way to the field: at each step the value is covered, or pruned
  induction hfield with
  | @here name value kept hmem =>
      intro names v h
      rcases prune_eq_object h with hcovered | ⟨members, rfl⟩
      · exact exists_agrees_of_coveredBy hcovered [name]
      · obtain ⟨value', _, hvalue⟩ := mem_pruneMembers hmem
        exact exists_agrees_of_prune value' hvalue
  | @inside name value kept rest hmem _ ih =>
      intro names v h
      rcases prune_eq_object h with hcovered | ⟨members, rfl⟩
      · exact exists_agrees_of_coveredBy hcovered (name :: rest)
      · obtain ⟨value', _, hvalue⟩ := mem_pruneMembers hmem
        have hbelow := ih hvalue
        rwa [List.append_assoc, List.singleton_append] at hbelow
  | @item value kept rest hmem _ ih =>
      intro names v h
      rcases prune_eq_array h with hcovered | ⟨items, rfl⟩
      · exact exists_agrees_of_coveredBy hcovered rest
      · obtain ⟨item, _, hitem⟩ := mem_pruneItems hmem
        exact ih hitem

/-- A document along names that a path covers in the end is kept as it is. -/
theorem prune_nest (h : coveredBy paths (names ++ more) = true) :
    prune paths names (Value.nest more) = some (Value.nest more) := by
  induction more generalizing names with
  | nil =>
      rw [List.append_nil] at h
      rw [Value.nest, prune_of_isScalar rfl, scalarKeptBy, h]
      rfl
  | cons name more ih =>
      have hbelow : prune paths (names ++ [name]) (Value.nest more) = some (Value.nest more) := by
        refine ih ?_
        rwa [List.append_assoc, List.singleton_append]
      rw [Value.nest, prune]
      split
      · rfl
      · rw [pruneMembers, hbelow]
        rfl

end Kept

/-! ## What is left of a document -/

theorem pruneDocument_nest {paths : List Path} {names : List String} (hne : names ≠ [])
    (h : coveredBy paths names = true) :
    pruneDocument paths (Value.nest names) = Value.nest names := by
  obtain ⟨name, rest, rfl⟩ := List.exists_cons_of_ne_nil hne
  have hkept : prune paths [] (Value.nest (name :: rest)) = some (Value.nest (name :: rest)) :=
    prune_nest h
  rw [Value.nest] at hkept ⊢
  rw [pruneDocument, hkept]
  rfl

/-- A field that is left of a document agrees with some path. -/
theorem exists_agrees_of_pruneDocument {paths : List Path} {names : List String} {v : Value}
    (h : Value.HasField names (pruneDocument paths v)) : ∃ p ∈ paths, p.agrees names = true := by
  have hkept : ∃ w, prune paths [] v = some w ∧ Value.HasField names w := by
    cases v with
    | array items =>
        rw [pruneDocument] at h
        cases hw : prune paths [] (.array items) with
        | some w => exact ⟨w, rfl, by rwa [hw] at h⟩
        | none =>
            -- an empty array stands in for what was dropped, and it has no fields
            rw [hw] at h
            cases h with
            | item hmem _ => exact absurd hmem List.not_mem_nil
    | object members =>
        rw [pruneDocument] at h
        cases hw : prune paths [] (.object members) with
        | some w => exact ⟨w, rfl, by rwa [hw] at h⟩
        | none =>
            rw [hw] at h
            cases h with
            | here hmem => exact absurd hmem List.not_mem_nil
            | inside hmem _ => exact absurd hmem List.not_mem_nil
    | null | bool | number | string => cases h
  obtain ⟨w, hw, hfield⟩ := hkept
  exact exists_agrees_of_hasField hfield hw

/-- **A field can be left of a document exactly if some path agrees with its names.** -/
theorem exists_hasField_iff {paths : List Path} (h : Selecting paths) {names : List String}
    (hne : names ≠ []) :
    (∃ v, Value.HasField names (pruneDocument paths v)) ↔ ∃ p ∈ paths, p.agrees names = true := by
  constructor
  · rintro ⟨v, hfield⟩
    exact exists_agrees_of_pruneDocument hfield
  · rintro ⟨p, hp, hagrees⟩
    obtain ⟨more, hcovers⟩ := Path.exists_covers_append (h.noCatchAll p hp) hagrees
    have hcovered : coveredBy paths (names ++ more) = true := coveredBy_iff.mpr ⟨p, hp, hcovers⟩
    refine ⟨Value.nest (names ++ more), ?_⟩
    rw [pruneDocument_nest (by simp [hne]) hcovered]
    exact Value.hasField_nest hne more

/-! ## The checker -/

/-- **A field is requested exactly if some path of the expression agrees with its names.** -/
theorem Checker.requests_iff {e : Expression} (h : Selecting e.allPaths) (names : List String) :
    Checker.requests e names = true ↔ ∃ p ∈ e.allPaths, p.agrees names = true := by
  have hfields : Checker.requests e names = true ↔ ∃ p ∈ e.fieldPaths, p.agrees names = true := by
    rw [Checker.requests, Expression.overlaps, List.any_eq_true]
    refine exists_congr fun p => and_congr_right fun hp => ?_
    rw [Bool.or_eq_true, Tree.overlap_names_iff (h.noCatchAll p (Path.mem_of_mem_collapse hp))]
  rw [hfields]
  constructor
  · rintro ⟨p, hp, hagrees⟩
    exact ⟨p, Path.mem_of_mem_collapse hp, hagrees⟩
  · -- a path that was collapsed away has a prefix that agrees as well
    rintro ⟨p, hp, hagrees⟩
    obtain ⟨q, hq, hpfx⟩ := Path.exists_mem_collapse hp
    exact ⟨q, hq, Path.agrees_of_prefix hpfx hagrees⟩

/-- **The checker agrees with the filter.** A field path that the checker takes is requested
exactly if there is a document whose filtered copy has a field with just these names on its
way. -/
theorem Checker.isRequested_iff_exists_output {text : String} {e : Expression}
    (he : Expression.parse text = .ok e) {path : String} {requested : Bool}
    (h : Checker.isRequested { expression := e } path = .ok requested) :
    ∃ names, FieldPath.names path = .ok names ∧
      (requested = true ↔ ∃ document output f,
        copyFiltered (.ofValue document) ({} : Recorder) e.filterTree = .accepted f ∧
          f.inner.records = output.events.map .event ++ [.closed] ∧
          Value.HasField names output) := by
  obtain ⟨names, hnames, hreq⟩ : ∃ names, FieldPath.names path = .ok names ∧
      requested = Checker.requests e names := by
    cases hn : FieldPath.names path with
    | error why =>
        rw [Checker.isRequested, Checker.locate, hn] at h
        exact absurd h (by simp [Except.map])
    | ok names =>
        rw [Checker.isRequested, Checker.locate, hn] at h
        exact ⟨names, rfl, (Except.ok.inj h).symm⟩
  have hselecting := Expression.selecting_of_parse he
  obtain ⟨place, htrie⟩ := Expression.filterTrie_of_parse he
  refine ⟨names, hnames, ?_⟩
  rw [hreq, Checker.requests_iff hselecting,
    ← exists_hasField_iff hselecting (FieldPath.names_ne_nil hnames)]
  constructor
  · rintro ⟨document, hfield⟩
    obtain ⟨state, hcopy⟩ := copyFiltered_told e.filterTree document
    rw [← htrie.project_eq document] at hfield
    exact ⟨document, _, _, hcopy, Recorder.records_told _, hfield⟩
  · rintro ⟨document, output, f, hcopy, hrecords, hfield⟩
    obtain ⟨state, hcopy'⟩ := copyFiltered_told e.filterTree document
    rw [hcopy'] at hcopy
    cases hcopy
    have hevents : (e.filterTree.project document).events = output.events := by
      rw [Recorder.records_told] at hrecords
      exact List.map_injective_iff.mpr (fun _ _ heq => Record.event.inj heq)
        (List.append_cancel_right hrecords)
    rw [← Value.events_inj hevents, htrie.project_eq document] at hfield
    exact ⟨document, hfield⟩

/-- Below `a`, a field two levels down is requested by the wildcard between, and so is the field
above it, although the path goes on. -/
theorem isRequested_iff_exists_output_group :
    ∃ e, Expression.parse "a(b,*/c)" = .ok e ∧
      Checker.isRequested { expression := e } "a/x" = .ok true ∧
      ∃ document output f,
        copyFiltered (.ofValue document) ({} : Recorder) e.filterTree = .accepted f ∧
          f.inner.records = output.events.map .event ++ [.closed] ∧
          Value.HasField ["a", "x"] output := by
  have hparse : Expression.parse "a(b,*/c)" =
      .ok ⟨"a(b,*/c)", .one (.group (.name "a")
        (.cons (.leaf (.name "b")) (.one (.step .wildcard (.leaf (.name "c"))))))⟩ := rfl
  refine ⟨_, hparse, ?_⟩
  have hrequested : Checker.isRequested { expression := ⟨"a(b,*/c)", .one (.group (.name "a")
      (.cons (.leaf (.name "b")) (.one (.step .wildcard (.leaf (.name "c"))))))⟩ } "a/x" =
        .ok true := by decide +kernel
  refine ⟨hrequested, ?_⟩
  obtain ⟨names, hnames, hiff⟩ := Checker.isRequested_iff_exists_output hparse hrequested
  have heq : FieldPath.names "a/x" = .ok ["a", "x"] := by decide +kernel
  rw [heq] at hnames
  cases hnames
  exact hiff.mp rfl

end FieldSelection
