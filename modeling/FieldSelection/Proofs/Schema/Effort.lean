import Mathlib.Algebra.Order.BigOperators.Group.Finset
import FieldSelection.Proofs.Schema.Agenda
import FieldSelection.Proofs.Schema.Asking

/-!
# What it takes to make a tree

The compiler goes down into a schema by recursion, and from one schema to another one with less
fuel. Both come to the same as working off an agenda: a field is a task that leaves its fields, and
behind a reference there is the task to have the root of a name and then the one to splice it in. By
recursion over the schema for any fuel, and by induction on the fuel, every call of the compiler is
a run of the agenda.

A run opens each name once at most, and only names without a root. So all that is made for a tree is
paid for by definitions that had no root before, however many references lead to them.
-/

namespace FieldSelection

namespace Compiler

variable {d : Dictionary Schema} {fuel : Nat} {root : String → Compiler NodeId} {α β : Type}
  {x : Compiler α} {tasks rest : List Task} {c : Compilation} {name : String} {s : Schema}

/-! ## Steps that do what is on an agenda -/

/-- A step ends as the agenda does. -/
def Settles (d : Dictionary Schema) (tasks : List Task) (x : Compiler α) (c : Compilation) : Prop :=
  ∃ opened, Runs d tasks c opened (ending (x c))

namespace Settles

theorem nil : Settles d [] (pure ()) c := ⟨[], .done⟩

/-- A step that goes on from another one. -/
theorem bind {f : α → Compiler β} (h : Settles d tasks x c)
    (hf : ∀ a c', x c = .ok a c' → c'.unentered d ≤ c.unentered d → Settles d rest (f a) c') :
    Settles d (tasks ++ rest) (x >>= f) c := by
  obtain ⟨opened, hrun⟩ := h
  cases hx : x c with
  | ok a c' =>
      rw [hx] at hrun
      obtain ⟨opened', hrest⟩ := hf a c' hx hrun.enters.unentered_le
      rw [Settles, run_bind hx]
      exact ⟨_, hrun.append hrest⟩
  | error why c' =>
      rw [hx] at hrun
      rw [Settles, run_bind_error hx]
      exact ⟨_, hrun.append_error rest⟩

end Settles

/-- What a step does with fuel for each definition that was not entered. -/
def Fuelled (d : Dictionary Schema) (fuel : Nat) (tasks : List Task) (x : Compiler α) : Prop :=
  ∀ ⦃c : Compilation⦄, c.unentered d ≤ fuel → Settles d tasks x c

/-- A step gives the root of a name, as the task for it does. -/
structure Serves (d : Dictionary Schema) (name : String) (x : Compiler NodeId) (c : Compilation) :
    Prop where
  /-- It ends as the task for the root does. -/
  settles : Settles d [.root name] x c
  /-- What it gives is the root of that name. -/
  root : ∀ {r : NodeId} {c' : Compilation}, x c = .ok r c' → c'.roots.get? name = some r

/-- Roots can be had, with fuel for each definition that was not entered. -/
def Roots (d : Dictionary Schema) (fuel : Nat) (root : String → Compiler NodeId) : Prop :=
  ∀ ⦃name : String⦄ ⦃c : Compilation⦄, c.unentered d ≤ fuel → Serves d name (root name) c

theorem Fuelled.seq {x y : Compiler Unit} (hx : Fuelled d fuel tasks x)
    (hy : Fuelled d fuel rest y) : Fuelled d fuel (tasks ++ rest) (do x; y) := by
  intro c hfuel
  exact (hx hfuel).bind fun _ _ _ hle => hy (Nat.le_trans hle hfuel)

/-! ## The kinds of schemas -/

/-- A reference is the task for a root and the one to splice it in. -/
theorem Roots.reference (h : Roots d fuel root) (k : NodeId) (target : String) :
    Fuelled d fuel [.root target, .splice k target] (do splicing k (← root target)) := by
  intro c hfuel
  have hserves := @h target c hfuel
  refine hserves.settles.bind fun r c' hr _ => ⟨[], ?_⟩
  have hperform := perform_splice (d := d) (k := k) (hserves.root hr)
  cases hsplice : splicing k r c' with
  | ok _ c'' =>
      rw [run_bind hsplice] at hperform
      exact .of_perform hperform .done
  | error why c'' =>
      rw [run_bind_error hsplice] at hperform
      exact .stop hperform

/-- A field is the task for it, if its fields and its items are. -/
theorem Fuelled.of_kind (hroot : Roots d fuel root)
    (hfields : ∀ k, Fuelled d fuel (Task.fields k s.fields)
      (do addProperties root k s.properties; addAdditional root k s.additional))
    (hitems : ∀ items, s.items = some items → ∀ parent label,
      Fuelled d fuel [.field parent label items] (addField root parent label items))
    (parent : NodeId) (label : Segment) :
    Fuelled d fuel [.field parent label s] (addField root parent label s) := by
  intro c hfuel
  -- once the field has a node, what is done next is what the task leaves
  obtain ⟨k, c₁, hstep, hfuel₁⟩ : ∃ k c₁,
      growing (·.ensureChild parent label) c = .ok k c₁ ∧ c₁.unentered d ≤ fuel :=
    ⟨_, _, rfl, hfuel⟩
  have hperform : perform d (.field parent label s) c = leave parent label s k c₁ := by
    rw [perform, run_bind hstep]
  rw [Settles, addField_eq, run_bind hstep]
  unfold leave at hperform
  unfold addLinks
  cases hkind : Schema.kindOf s.reference s.type with
  | error flaw =>
      rw [hkind] at hperform
      exact ⟨[], .stop hperform⟩
  | ok kind =>
      rw [hkind] at hperform
      cases kind with
      | reference target =>
          obtain ⟨opened, hrun⟩ := hroot.reference k target hfuel₁
          exact ⟨opened, .of_perform hperform hrun⟩
      | array =>
          cases hi : s.items with
          | none =>
              rw [hi] at hperform
              exact ⟨[], .stop hperform⟩
          | some items =>
              rw [hi] at hperform
              obtain ⟨opened, hrun⟩ := hitems items hi parent label hfuel₁
              exact ⟨opened, .of_perform hperform hrun⟩
      | object =>
          obtain ⟨opened, hrun⟩ := hfields k hfuel₁
          exact ⟨opened, .of_perform hperform hrun⟩
      | any => exact ⟨[], .of_perform hperform .done⟩
      | primitive => exact ⟨[], .of_perform hperform .done⟩

/-- The properties and the additional fields of a schema are the tasks for all its fields. -/
theorem Fuelled.ofSchema {k : NodeId}
    (hproperties : ∀ properties, s.properties = some properties →
      Fuelled d fuel (Task.fields k (Schema.namedFields properties)) (addNamed root k properties))
    (hadditional : ∀ schema, s.additional = some schema →
      Fuelled d fuel [.field k .wildcard schema] (addField root k .wildcard schema)) :
    Fuelled d fuel (Task.fields k s.fields)
      (do addProperties root k s.properties; addAdditional root k s.additional) := by
  rw [Schema.fields, Task.fields, List.map_append]
  refine .seq ?_ ?_
  · cases hp : s.properties with
    | none => exact fun _ _ => .nil
    | some properties => exact hproperties properties hp
  · cases ha : s.additional with
    | none => exact fun _ _ => .nil
    | some schema => exact hadditional schema ha

mutual

/-- Every field is the task for it. -/
theorem fuelled_addField (hroot : Roots d fuel root) :
    ∀ (s : Schema) (parent : NodeId) (label : Segment),
      Fuelled d fuel [.field parent label s] (addField root parent label s)
  | ⟨id, type, reference, properties, additional, items⟩ => by
      refine .of_kind hroot (fun k => .ofSchema ?_ ?_) ?_
      · intro properties' hp
        match properties, hp with
        | some properties', rfl => exact fuelled_addNamed hroot properties' k
      · intro additional' ha
        match additional, ha with
        | some additional', rfl => exact fuelled_addField hroot additional' k .wildcard
      · intro items' hi
        match items, hi with
        | some items', rfl => exact fuelled_addField hroot items'

theorem fuelled_addNamed (hroot : Roots d fuel root) :
    ∀ (properties : List (String × Schema)) (k : NodeId),
      Fuelled d fuel (Task.fields k (Schema.namedFields properties)) (addNamed root k properties)
  | [], _ => fun _ _ => .nil
  | (name, s) :: rest, k =>
      .seq (fuelled_addField hroot s k (.name name)) (fuelled_addNamed hroot rest k)

end

/-! ## Roots -/

/-- What a step gives in this state is all that counts. -/
theorem Serves.congr {x y : Compiler NodeId} (h : Serves d name x c) (heq : y c = x c) :
    Serves d name y c := by
  obtain ⟨⟨opened, hrun⟩, hroot⟩ := h
  exact ⟨⟨opened, heq ▸ hrun⟩, fun hok => hroot (heq ▸ hok)⟩

theorem serves_of_known {r : NodeId} (h : c.roots.get? name = some r) :
    Serves d name (Compiler.root d fuel name) c := by
  have hroot : Compiler.root d fuel name c = .ok r c := by rw [root_eq, h]
  refine ⟨⟨[], ?_⟩, fun hok => ?_⟩
  · rw [hroot]
    exact .of_perform (perform_root_of_known h) .done
  · cases hroot.symm.trans hok
    exact h

theorem serves_of_missing (hnew : c.roots.get? name = none) (hs : d.get? name = none) :
    Serves d name (Compiler.root d fuel name) c := by
  have hroot : Compiler.root d fuel name c = .error (.unknownSchema name) c := by
    rw [root_eq, hnew, hs]
  refine ⟨⟨[], ?_⟩, fun hok => absurd (hroot.symm.trans hok) (by simp)⟩
  rw [hroot]
  exact .stop (perform_root_of_missing hnew hs)

/-- A name that is entered leaves its fields, and the fuel that is left is enough for them. -/
theorem serves_enter (hroot : Roots d fuel (Compiler.root d fuel)) (hs : d.get? name = some s)
    (hnew : c.roots.get? name = none) (hfuel : c.unentered d ≤ fuel + 1) :
    Serves d name (enter d fuel name s) c := by
  have henters : Enters d c [name] (c.withRoot name) := .withRoot hnew hs
  have hget : (c.withRoot name).roots.get? name = some c.graph.size := by
    rw [Compilation.withRoot, Dictionary.get?_insert, if_pos rfl]
  have hless : (c.withRoot name).unentered d ≤ fuel := by
    have hknown : (c.withRoot name).known = insert name c.known := by
      rw [henters.known, Finset.union_comm]
      rfl
    have hlt := unentered_lt hs hnew hknown
    omega
  obtain ⟨opened, hfields⟩ := Fuelled.ofSchema (s := s) (k := c.graph.size)
    (fun properties _ => fuelled_addNamed hroot properties _)
    (fun schema _ => fuelled_addField hroot schema _ _) hless
  have henter : enter d fuel name s c =
      ((do addProperties (Compiler.root d fuel) c.graph.size s.properties
           addAdditional (Compiler.root d fuel) c.graph.size s.additional) >>=
        fun _ => pure c.graph.size) (c.withRoot name) := by
    have hstep : entering name c = .ok c.graph.size (c.withRoot name) := rfl
    rw [enter, run_bind hstep, bind_assoc]
  generalize (do addProperties (Compiler.root d fuel) c.graph.size s.properties
                 addAdditional (Compiler.root d fuel) c.graph.size s.additional) = x
    at hfields henter
  have hrun : Runs d [.root name] c ([name] ++ opened) (ending (x (c.withRoot name))) := by
    refine .next (perform_root_of_defined hnew hs) ?_
    rwa [List.append_nil]
  cases hx : x (c.withRoot name) with
  | ok _ c' =>
      rw [hx] at hrun hfields
      have hgives : enter d fuel name s c = .ok c.graph.size c' := henter.trans (run_bind hx)
      refine ⟨⟨[name] ++ opened, ?_⟩, fun hok => ?_⟩
      · rw [hgives]
        exact hrun
      · cases hgives.symm.trans hok
        exact hfields.enters.kept name _ hget
  | error why c' =>
      rw [hx] at hrun
      have hfails : enter d fuel name s c = .error why c' := henter.trans (run_bind_error hx)
      refine ⟨⟨[name] ++ opened, ?_⟩, fun hok => absurd (hfails.symm.trans hok) (by simp)⟩
      rw [hfails]
      exact hrun

/-- **The compiler works off an agenda, and never runs out of fuel.** -/
theorem roots (d : Dictionary Schema) (fuel : Nat) : Roots d fuel (Compiler.root d fuel) := by
  -- a name that is entered is one less to be entered, with one less of fuel
  induction fuel with
  | zero =>
      intro name c hfuel
      cases hnew : c.roots.get? name with
      | some r => exact serves_of_known hnew
      | none =>
          cases hs : d.get? name with
          | none => exact serves_of_missing hnew hs
          | some s => exact absurd (unentered_pos hs hnew) (Nat.not_lt_of_le hfuel)
  | succ fuel ih =>
      intro name c hfuel
      cases hnew : c.roots.get? name with
      | some r => exact serves_of_known hnew
      | none =>
          cases hs : d.get? name with
          | none => exact serves_of_missing hnew hs
          | some s =>
              have heq : Compiler.root d (fuel + 1) name c = enter d fuel name s c := by
                rw [root_eq, hnew, hs]
              exact (serves_enter ih hs hnew hfuel).congr heq

/-! ## What a run costs -/

/-- How many schemas are written in the definitions that have no root. -/
def untouched (d : Dictionary Schema) (c : Compilation) : Nat :=
  ∑ name ∈ d.keys.toFinset \ c.known, Schema.sizeOf d name

/-- The names that are opened are definitions that had no root, and each is paid for once. -/
theorem Enters.sum_le {opened : List String} {c' : Compilation} (h : Enters d c opened c') :
    (opened.map (Schema.sizeOf d)).sum ≤ untouched d c := by
  rw [← List.sum_toFinset _ h.nodup, untouched]
  refine Finset.sum_le_sum_of_subset fun name hname => ?_
  rw [List.mem_toFinset] at hname
  obtain ⟨s, hs⟩ := h.defined name hname
  exact mem_unentered hs (h.new name hname)

end Compiler

namespace Repository

open Compiler

variable {r : Repository} {name : String}

/-- A repository that is asked for the tree of a name answers as compiling ends, and becomes what is
left of it then. -/
inductive Answers (r : Repository) (name : String) :
    Outcome → Except SchemaError Tree × Repository → Prop where
  /-- The tree has the root of the name. -/
  | tree {c : Compilation} {root : NodeId} : c.roots.get? name = some root →
      Answers r name (.ok () c)
        (.ok ⟨c.graph, root⟩, { r with graph := c.graph, roots := c.roots })
  /-- There is no tree, and the graph is cut back. -/
  | error (why : SchemaError) (c : Compilation) :
      Answers r name (.error why c)
        (.error why,
          { r with
            graph := c.graph.truncate r.graph.size
            roots := c.entered.foldl Dictionary.erase c.roots })

/-- To be asked for a tree is to compile. A name that has a root is compiled at once. -/
theorem tree_answers (r : Repository) (name : String) :
    ∃ opened outcome, Runs r.definitions [.root name] r.compilation opened outcome ∧
      Answers r name outcome (r.tree name) := by
  have hfuel := r.compilation.unentered_le_length r.definitions
  have hserves : Serves r.definitions name _ r.compilation := Compiler.roots _ _ hfuel
  obtain ⟨opened, hrun⟩ := hserves.settles
  refine ⟨opened, _, hrun, ?_⟩
  rw [Repository.tree]
  cases hget : r.roots.get? name with
  | some root =>
      have hknown : Compiler.root r.definitions r.definitions.length name r.compilation =
          .ok root r.compilation := by
        rw [root_eq, show r.compilation.roots.get? name = some root from hget]
      rw [hknown]
      exact .tree hget
  | none =>
      dsimp only
      rw [show (⟨r.graph, r.roots, []⟩ : Compilation) = r.compilation from rfl]
      cases hroot : Compiler.root r.definitions r.definitions.length name r.compilation with
      | ok root c => exact .tree (hserves.root hroot)
      | error why c => exact .error why c

/-- **To ask for a tree takes finitely many steps, opens every schema at most once, and none that
was compiled before.** Whatever schemas refer to each other, working off the agenda comes to an end,
and to only one. Twice the number of schemas that are written in the definitions without a root
bounds how many nodes are made. -/
theorem tree_effort (r : Repository) (name : String) :
    ∃ opened outcome, Runs r.definitions [.root name] r.compilation opened outcome ∧
      (∀ opened' outcome', Runs r.definitions [.root name] r.compilation opened' outcome' →
        opened' = opened ∧ outcome' = outcome) ∧
      Answers r name outcome (r.tree name) ∧
      opened.Nodup ∧
      (∀ name' ∈ opened, r.roots.get? name' = none ∧ ∃ s, r.definitions.get? name' = some s) ∧
      r.graph.size ≤ outcome.state.graph.size ∧
      outcome.state.graph.size - r.graph.size ≤ 2 * untouched r.definitions r.compilation := by
  obtain ⟨opened, outcome, hrun, hanswers⟩ := r.tree_answers name
  have henters := hrun.enters
  obtain ⟨hle, hsize⟩ := hrun.size_le
  refine ⟨opened, outcome, hrun, fun _ _ hrun' => hrun.unique hrun', hanswers, henters.nodup,
    fun name' hmem => ⟨henters.new name' hmem, henters.defined name' hmem⟩, hle, ?_⟩
  -- the task for a root weighs nothing, so the definitions that are opened pay for all
  have hweights : weights [.root name] = 0 := rfl
  have hstart : r.compilation.graph.size = r.graph.size := rfl
  have hsum := henters.sum_le
  omega

end Repository

end FieldSelection
