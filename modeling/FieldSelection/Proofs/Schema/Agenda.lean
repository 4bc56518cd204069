import Mathlib.Algebra.GroupWithZero.Nat
import FieldSelection.Proofs.Schema.Compiling

/-!
# Compiling as an agenda

To compile a schema is to work off an agenda. A task on it is done at once, but for what it leaves
to do, which comes before the tasks behind it: a field leaves what its schema asks for below it, and
a name that is entered leaves the fields of its schema. There is no other way for the fields of a
named schema to get on the agenda.

The agenda knows no fuel. The compiler has some, but it always has enough of it: each time that it
goes one level deeper there is one definition less to be entered. So the compiler ends as the agenda
does, and to say that there is a run is to say that compiling ends.
-/

namespace FieldSelection

/-! ## How large a schema is -/

namespace Schema

mutual

/-- How many schemas are written in a schema, with the schema itself. -/
def size : Schema → Nat
  | ⟨_, _, _, properties, additional, items⟩ =>
    1 +
      (match properties with
        | none => 0
        | some properties => sizes properties) +
      (match additional with
        | none => 0
        | some additional => additional.size) +
      (match items with
        | none => 0
        | some items => items.size)

/-- How many schemas are written in the schemas of a list. -/
def sizes : List (String × Schema) → Nat
  | [] => 0
  | (_, schema) :: rest => schema.size + sizes rest

end

/-- How many schemas are written in the definition of a name. -/
def sizeOf (definitions : Dictionary Schema) (name : String) : Nat :=
  ((definitions.get? name).map size).getD 0

theorem sizes_eq (properties : List (String × Schema)) :
    sizes properties = (properties.map fun property => property.2.size).sum := by
  induction properties with
  | nil => rfl
  | cons property rest ih => rw [sizes, ih, List.map_cons, List.sum_cons]

/-- A schema is larger than all its fields together. -/
theorem sizes_fields_lt (s : Schema) : (s.fields.map fun field => field.2.size).sum < s.size := by
  obtain ⟨id, type, reference, properties, additional, items⟩ := s
  have hnamed : ∀ properties, ((namedFields properties).map fun field => field.2.size).sum =
      sizes properties := by
    intro properties
    rw [sizes_eq, namedFields, List.map_map]
    rfl
  rw [fields, List.map_append, List.sum_append, hnamed, size.eq_def]
  cases properties <;> cases additional <;> simp [sizes] <;> omega

/-- An array is larger than its items. -/
theorem size_items_lt {s items : Schema} (h : s.items = some items) : items.size < s.size := by
  obtain ⟨id, type, reference, properties, additional, _⟩ := s
  cases h
  rw [size.eq_def ⟨_, _, _, _, _, _⟩]
  dsimp only
  omega

theorem size_pos (s : Schema) : 0 < s.size := Nat.zero_lt_of_lt s.sizes_fields_lt

end Schema

/-- The state once a name was entered, with the root that it has got. -/
def Compilation.withRoot (c : Compilation) (name : String) : Compilation :=
  ⟨c.graph.addRoot.1, c.roots.insert name c.graph.size, name :: c.entered⟩

namespace Compiler

/-! ## Tasks -/

/-- Something to be compiled. -/
inductive Task where
  /-- The schema of this name, unless it has a root. -/
  | root (name : String)
  /-- A field of a node. -/
  | field (parent : NodeId) (label : Segment) (s : Schema)
  /-- The children of the root of a name, which are to be spliced in. -/
  | splice (n : NodeId) (name : String)

/-- The fields of a node as tasks. -/
def Task.fields (parent : NodeId) (fields : List (Segment × Schema)) : List Task :=
  fields.map fun (label, s) => .field parent label s

/-- What a task leaves to do. -/
structure Remainder where
  /-- The names of the schemas whose fields are left to be compiled. -/
  opened : List String := []
  /-- The tasks that are left, in their order. -/
  tasks : List Task := []

/-- What the schema of a field leaves to do, once the field has a node. -/
def leave (parent : NodeId) (label : Segment) (s : Schema) (k : NodeId) : Compiler Remainder :=
  match Schema.kindOf s.reference s.type with
  | .error flaw => throw (.invalidSchema label flaw)
  | .ok (.reference target) => pure { tasks := [.root target, .splice k target] }
  | .ok .array =>
    match s.items with
    | some items => pure { tasks := [.field parent label items] }
    | none => throw (.invalidSchema label .arrayWithoutItems)
  | .ok .object => pure { tasks := Task.fields k s.fields }
  | .ok .any => do
    discard <| growing (·.setCatchAll k)
    return {}
  | .ok .primitive => pure {}

/-- Does a task, but for what it leaves to do. -/
def perform (d : Dictionary Schema) : Task → Compiler Remainder
  | .root name => do
    match (← get).roots.get? name with
    | some _ => return {}
    | none =>
      match d.get? name with
      | some s => do
        let n ← entering name
        return { opened := [name], tasks := Task.fields n s.fields }
      | none => throw (.unknownSchema name)
  | .field parent label s => do
    let k ← growing (·.ensureChild parent label)
    leave parent label s k
  | .splice n name => do
    match (← get).roots.get? name with
    | some root => do
      splicing n root
      return {}
    | none => throw (.unknownSchema name)

/-- How compiling ends. -/
abbrev Outcome := EStateM.Result SchemaError Compilation Unit

/-- The state at the end. -/
def Outcome.state : Outcome → Compilation
  | .ok _ c => c
  | .error _ c => c

/-- How a step ends, whatever it gives. -/
def ending {α : Type} : EStateM.Result SchemaError Compilation α → Outcome
  | .ok _ c => .ok () c
  | .error why c => .error why c

/-- A run works off an agenda. It tells the schemas whose fields were compiled, in order. -/
inductive Runs (d : Dictionary Schema) :
    List Task → Compilation → List String → Outcome → Prop where
  /-- Nothing is left to do. -/
  | done {c : Compilation} : Runs d [] c [] (.ok () c)
  /-- The first task leaves something to do, which comes before the other tasks. -/
  | next {task : Task} {rest : List Task} {c c₁ : Compilation} {left : Remainder}
      {opened : List String} {outcome : Outcome} :
      perform d task c = .ok left c₁ → Runs d (left.tasks ++ rest) c₁ opened outcome →
      Runs d (task :: rest) c (left.opened ++ opened) outcome
  /-- The first task cannot be done. -/
  | stop {task : Task} {rest : List Task} {c c₁ : Compilation} {why : SchemaError} :
      perform d task c = .error why c₁ → Runs d (task :: rest) c [] (.error why c₁)

variable {d : Dictionary Schema} {fuel : Nat} {root : String → Compiler NodeId} {task : Task}
  {tasks rest : List Task} {c c₁ c₂ : Compilation} {opened opened' : List String}
  {outcome outcome' : Outcome} {name : String} {label : Segment} {s : Schema}
  {parent k r : NodeId} {why : SchemaError}

/-- A step that goes on from one that fails. -/
theorem run_bind_error {α β : Type} {x : Compiler α} {f : α → Compiler β}
    (hx : x c = .error why c₁) : (x >>= f) c = .error why c₁ := by
  show EStateM.bind x f c = .error why c₁
  rw [EStateM.bind, hx]

section Perform

theorem perform_root_of_known (h : c.roots.get? name = some r) :
    perform d (.root name) c = .ok {} c := by
  have hget : (get : Compiler Compilation) c = .ok c c := rfl
  rw [perform, run_bind hget, h]
  rfl

theorem perform_root_of_defined (hnew : c.roots.get? name = none) (hs : d.get? name = some s) :
    perform d (.root name) c =
      .ok ⟨[name], Task.fields c.graph.size s.fields⟩ (c.withRoot name) := by
  have hget : (get : Compiler Compilation) c = .ok c c := rfl
  rw [perform, run_bind hget, hnew, hs]
  rfl

theorem perform_root_of_missing (hnew : c.roots.get? name = none) (hs : d.get? name = none) :
    perform d (.root name) c = .error (.unknownSchema name) c := by
  have hget : (get : Compiler Compilation) c = .ok c c := rfl
  rw [perform, run_bind hget, hnew, hs]
  rfl

theorem perform_splice (h : c.roots.get? name = some r) :
    perform d (.splice k name) c =
      (do splicing k r; return ({} : Remainder) : Compiler Remainder) c := by
  have hget : (get : Compiler Compilation) c = .ok c c := rfl
  rw [perform, run_bind hget, h]

theorem perform_splice_of_missing (h : c.roots.get? name = none) :
    perform d (.splice k name) c = .error (.unknownSchema name) c := by
  have hget : (get : Compiler Compilation) c = .ok c c := rfl
  rw [perform, run_bind hget, h]
  rfl

end Perform

namespace Runs

/-- An agenda is worked off in one way only. -/
theorem unique (h : Runs d tasks c opened outcome) (h' : Runs d tasks c opened' outcome') :
    opened' = opened ∧ outcome' = outcome := by
  induction h generalizing opened' outcome' with
  | done =>
      cases h'
      exact ⟨rfl, rfl⟩
  | next hstep _ ih =>
      cases h' with
      | next hstep' h' =>
          cases hstep.symm.trans hstep'
          obtain ⟨rfl, rfl⟩ := ih h'
          exact ⟨rfl, rfl⟩
      | stop hstep' => exact absurd (hstep.symm.trans hstep') (by simp)
  | stop hstep =>
      cases h' with
      | next hstep' _ => exact absurd (hstep.symm.trans hstep') (by simp)
      | stop hstep' =>
          cases hstep.symm.trans hstep'
          exact ⟨rfl, rfl⟩

/-- Tasks behind others are done when those are. -/
theorem append (h : Runs d tasks c opened (.ok () c₁)) (hrest : Runs d rest c₁ opened' outcome) :
    Runs d (tasks ++ rest) c (opened ++ opened') outcome := by
  generalize hout : (.ok () c₁ : Outcome) = out at h
  induction h with
  | done =>
      cases hout
      exact hrest
  | next hstep _ ih =>
      rw [List.cons_append, List.append_assoc]
      refine .next hstep ?_
      rw [← List.append_assoc]
      exact ih hout
  | stop => exact absurd hout (by simp)

/-- They are given up with those. -/
theorem append_error (h : Runs d tasks c opened (.error why c₁)) (rest : List Task) :
    Runs d (tasks ++ rest) c opened (.error why c₁) := by
  generalize hout : (.error why c₁ : Outcome) = out at h ⊢
  induction h with
  | done => exact absurd hout (by simp)
  | next hstep _ ih =>
      rw [List.cons_append]
      refine .next hstep ?_
      rw [← List.append_assoc]
      exact ih hout
  | stop hstep => exact .stop hstep

/-- A task that leaves these others. -/
theorem of_perform {more : List Task} (hstep : perform d task c = .ok { tasks := more } c₁)
    (h : Runs d more c₁ opened outcome) : Runs d [task] c opened outcome := by
  refine .next hstep ?_
  rwa [List.append_nil]

end Runs

/-! ## Names that are entered -/

/-- What has become of the names when these schemas were opened. -/
structure Enters (d : Dictionary Schema) (c : Compilation) (opened : List String)
    (c' : Compilation) : Prop where
  /-- None was opened twice. -/
  nodup : opened.Nodup
  /-- None had a root before. -/
  unknown : ∀ name ∈ opened, name ∉ c.known
  /-- All are defined. -/
  defined : ∀ name ∈ opened, ∃ s, d.get? name = some s
  /-- They have roots now, and no others have got one. -/
  known : c'.known = c.known ∪ opened.toFinset
  /-- The roots that were there are there still. -/
  kept : ∀ name r, c.roots.get? name = some r → c'.roots.get? name = some r

namespace Enters

theorem grown (c : Compilation) (g : Graph) : Enters d c [] { c with graph := g } :=
  ⟨List.nodup_nil, by simp, by simp, by simp [Compilation.known], fun _ _ h => h⟩

theorem trans (h : Enters d c opened c₁) (h' : Enters d c₁ opened' c₂) :
    Enters d c (opened ++ opened') c₂ where
  nodup := by
    refine List.nodup_append'.mpr ⟨h.nodup, h'.nodup, fun name hname hname' => ?_⟩
    exact h'.unknown name hname' (by rw [h.known]; simp [hname])
  unknown := by
    intro name hname hknown
    rcases List.mem_append.mp hname with hname | hname
    · exact h.unknown name hname hknown
    · exact h'.unknown name hname (by rw [h.known]; exact Finset.mem_union_left _ hknown)
  defined := by
    intro name hname
    rcases List.mem_append.mp hname with hname | hname
    · exact h.defined name hname
    · exact h'.defined name hname
  known := by rw [h'.known, h.known, List.toFinset_append, Finset.union_assoc]
  kept := fun name r hget => h'.kept name r (h.kept name r hget)

/-- A name that gets a root. -/
theorem withRoot (hnew : c.roots.get? name = none) (hs : d.get? name = some s) :
    Enters d c [name] (c.withRoot name) where
  nodup := List.nodup_singleton name
  unknown := by simp [Compilation.mem_known, hnew]
  defined := by simp [hs]
  known := by
    ext name'
    simp only [Compilation.mem_known, Compilation.withRoot, Dictionary.get?_insert,
      Finset.mem_union, List.mem_toFinset, List.mem_singleton]
    by_cases h : name' = name <;> simp [h]
  kept := by
    intro name' r hget
    have hne : name' ≠ name := by
      rintro rfl
      exact absurd (hnew.symm.trans hget) (by simp)
    rw [Compilation.withRoot, Dictionary.get?_insert, if_neg hne, hget]

theorem new (h : Enters d c opened c₁) (name : String) (hname : name ∈ opened) :
    c.roots.get? name = none := by
  rw [Option.eq_none_iff_forall_ne_some]
  exact fun r hr => h.unknown name hname (Compilation.mem_known.mpr ⟨r, hr⟩)

/-- There are no more definitions left to be entered than there were. -/
theorem unentered_le (h : Enters d c opened c₁) : c₁.unentered d ≤ c.unentered d := by
  refine Finset.card_le_card (Finset.sdiff_subset_sdiff (Finset.Subset.refl _) ?_)
  rw [h.known]
  exact Finset.subset_union_left

end Enters

/-! ## What a task can do -/

/-- How many nodes a task can come to, as long as no name is entered. -/
def Task.weight : Task → Nat
  | .root _ => 0
  | .field _ _ s => 2 * s.size
  | .splice _ _ => 0

/-- How many nodes the tasks of an agenda can come to. -/
def weights (tasks : List Task) : Nat := (tasks.map Task.weight).sum

theorem weights_append (tasks rest : List Task) :
    weights (tasks ++ rest) = weights tasks + weights rest := by
  rw [weights, List.map_append, List.sum_append]
  rfl

theorem weights_fields (parent : NodeId) (fields : List (Segment × Schema)) :
    weights (Task.fields parent fields) = 2 * (fields.map fun field => field.2.size).sum := by
  induction fields with
  | nil => rfl
  | cons field rest ih =>
      have hcons : weights (Task.fields parent (field :: rest)) =
          2 * field.2.size + weights (Task.fields parent rest) := rfl
      rw [hcons, ih, List.map_cons, List.sum_cons, Nat.mul_add]

/-- What doing a task comes to: a name is entered, or only the graph has changed. -/
inductive Performed (d : Dictionary Schema) (c : Compilation) :
    Task → EStateM.Result SchemaError Compilation Remainder → Prop where
  /-- A name without a root gets one, and the fields of its schema are left. -/
  | entered {name : String} {s : Schema} : c.roots.get? name = none → d.get? name = some s →
      Performed d c (.root name)
        (.ok ⟨[name], Task.fields c.graph.size s.fields⟩ (c.withRoot name))
  /-- The fields of no named schema are left. -/
  | grown {task : Task} {tasks : List Task} {g : Graph} : c.graph.size ≤ g.size →
      g.size + weights tasks ≤ c.graph.size + task.weight →
      Performed d c task (.ok ⟨[], tasks⟩ { c with graph := g })
  /-- The task cannot be done. -/
  | failed {task : Task} {why : SchemaError} {g : Graph} : c.graph.size ≤ g.size →
      g.size ≤ c.graph.size + task.weight →
      Performed d c task (.error why { c with graph := g })

/-- A child that is asked for is at most one new node. -/
theorem size_ensureChild (g : Graph) (parent : NodeId) (label : Segment) :
    g.size ≤ (g.ensureChild parent label).1.size ∧
      (g.ensureChild parent label).1.size ≤ g.size + 1 := by
  rw [Graph.ensureChild]
  split <;> simp

theorem size_merge {g g' : Graph} {n source : NodeId} (h : g.merge n source = .ok g') :
    g'.size = g.size := by
  rw [Graph.merge] at h
  split at h
  · split at h
    · cases h
      exact Graph.size_addLink _ _ _
    · exact absurd h (by simp)
  · exact absurd h (by simp)

/-- A task that leaves nothing and makes no nodes. -/
theorem Performed.same (task : Task) (c : Compilation) : Performed d c task (.ok {} c) :=
  .grown (Nat.le_refl _) (Nat.le_add_right _ _)

/-- A task that cannot be done and makes no nodes. -/
theorem Performed.refused (task : Task) (c : Compilation) (why : SchemaError) :
    Performed d c task (.error why c) :=
  .failed (Nat.le_refl _) (Nat.le_add_right _ _)

/-- The node of a field counts for the schema, and so does the catch-all below it. -/
theorem leave_performed {g : Graph} (hle : c.graph.size ≤ g.size)
    (hlt : g.size ≤ c.graph.size + 1) :
    Performed d c (.field parent label s) (leave parent label s k { c with graph := g }) := by
  have hpos := s.size_pos
  have hfailed : ∀ why, Performed d c (.field parent label s) (.error why { c with graph := g }) :=
    fun why => .failed hle (show g.size ≤ c.graph.size + 2 * s.size by omega)
  -- one of the nodes that the schema weighs may have been made for the field
  have hgrown : ∀ tasks (g' : Graph), g.size ≤ g'.size →
      g'.size + weights tasks ≤ g.size + (2 * s.size - 1) →
      Performed d c (.field parent label s) (.ok ⟨[], tasks⟩ { c with graph := g' }) :=
    fun tasks g' hge hweight => .grown (Nat.le_trans hle hge)
      (show g'.size + weights tasks ≤ c.graph.size + 2 * s.size by omega)
  unfold leave
  cases Schema.kindOf s.reference s.type with
  | error flaw => exact hfailed _
  | ok kind =>
      cases kind with
      | reference target => exact hgrown _ g (Nat.le_refl _) (Nat.le_add_right _ _)
      | array =>
          cases hitems : s.items with
          | some items =>
              have hless := Schema.size_items_lt hitems
              have hone : weights [.field parent label items] = 2 * items.size := rfl
              exact hgrown _ g (Nat.le_refl _) (by omega)
          | none => exact hfailed _
      | object =>
          have hfields := s.sizes_fields_lt
          exact hgrown _ g (Nat.le_refl _) (by rw [weights_fields]; omega)
      | any =>
          have hset : (g.setCatchAll k).1.size = g.size + 1 := Graph.size_setCatchAll
          have hnone : weights [] = 0 := rfl
          exact hgrown [] (g.setCatchAll k).1 (by omega) (by omega)
      | primitive => exact hgrown _ g (Nat.le_refl _) (Nat.le_add_right _ _)

/-- **A task that does not enter a name makes no more nodes than it weighs**, those counted that
are left to it. -/
theorem perform_performed (d : Dictionary Schema) (task : Task) (c : Compilation) :
    Performed d c task (perform d task c) := by
  cases task with
  | root name =>
      cases hnew : c.roots.get? name with
      | some r =>
          rw [perform_root_of_known hnew]
          exact .same _ c
      | none =>
          cases hs : d.get? name with
          | some s =>
              rw [perform_root_of_defined hnew hs]
              exact .entered hnew hs
          | none =>
              rw [perform_root_of_missing hnew hs]
              exact .refused _ c _
  | field parent label s =>
      obtain ⟨hle, hlt⟩ := size_ensureChild c.graph parent label
      exact leave_performed hle hlt
  | splice k name =>
      cases hget : c.roots.get? name with
      | none =>
          rw [perform_splice_of_missing hget]
          exact .refused _ c _
      | some r =>
          rw [perform_splice hget]
          cases hmerge : c.graph.merge k r with
          | ok g =>
              have hstep : splicing k r c = .ok () { c with graph := g } := by
                rw [splicing, hmerge]
              have hsize := size_merge hmerge
              rw [run_bind hstep]
              exact .grown (Nat.le_of_eq hsize.symm) (Nat.le_of_eq hsize)
          | error why =>
              have hstep : splicing k r c = .error (.merge why) c := by
                rw [splicing, hmerge]
              rw [run_bind_error hstep]
              exact .refused _ c _

/-! ## What a run can do -/

/-- The names that a run opens are new, and each is opened once. -/
theorem Runs.enters (h : Runs d tasks c opened outcome) : Enters d c opened outcome.state := by
  induction h with
  | @done c => exact .grown c c.graph
  | @next task _ c _ _ _ _ hstep _ ih =>
      have hperformed := perform_performed d task c
      rw [hstep] at hperformed
      cases hperformed with
      | entered hnew hs => exact (Enters.withRoot hnew hs).trans ih
      | grown => exact (Enters.grown c _).trans ih
  | @stop task _ c _ _ hstep =>
      have hperformed := perform_performed d task c
      rw [hstep] at hperformed
      cases hperformed with
      | failed => exact .grown c _

/-- **A run makes no more nodes than its tasks weigh and two for each schema that is written in the
definitions of the names that it opens.** -/
theorem Runs.size_le (h : Runs d tasks c opened outcome) :
    c.graph.size ≤ outcome.state.graph.size ∧
      outcome.state.graph.size ≤
        c.graph.size + weights tasks + 2 * (opened.map (Schema.sizeOf d)).sum := by
  induction h with
  | @done c => exact ⟨Nat.le_refl _, Nat.le_add_right _ _⟩
  | @next task rest c _ _ _ _ hstep _ ih =>
      have hperformed := perform_performed d task c
      rw [hstep] at hperformed
      obtain ⟨hle, hlt⟩ := ih
      have hrest : weights (task :: rest) = task.weight + weights rest := rfl
      rw [weights_append] at hlt
      cases hperformed with
      | @entered name s hnew hs =>
          -- the root is one more node, and the schema is larger than its fields
          have hless := s.sizes_fields_lt
          have hsize : Schema.sizeOf d name = s.size := by rw [Schema.sizeOf, hs]; rfl
          have hroot : (c.withRoot name).graph.size = c.graph.size + 1 := Graph.size_addNode _ _
          simp only [weights_fields, hroot] at hle hlt
          simp only [List.map_append, List.sum_append, List.map_singleton, List.sum_singleton,
            hsize]
          omega
      | grown hge hweight =>
          simp only [List.nil_append] at hle hlt ⊢
          omega
  | @stop task rest c _ _ hstep =>
      have hperformed := perform_performed d task c
      rw [hstep] at hperformed
      have hrest : weights (task :: rest) = task.weight + weights rest := rfl
      cases hperformed with
      | @failed _ _ g hge hweight =>
          refine ⟨hge, ?_⟩
          show g.size ≤ c.graph.size + weights (task :: rest) + 0
          omega

end Compiler

end FieldSelection
