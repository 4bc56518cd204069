import FieldSelection.Proofs.Dictionary
import FieldSelection.Proofs.Filtering.Projection
import FieldSelection.Proofs.Json.Document

/-!
# Filtering before and after sorting

A reader of values sorts: an object keeps its members in the order of their names, and of
several members of one name the last. A reader of events leaves all as it is. The filter looks at
one member at a time, so where no name is there twice it makes no difference whether a document
is sorted before it is filtered or after.

What the filter leaves has no new names in its objects, and is not nested deeper.
-/

namespace FieldSelection

open Json

namespace Json.Value

/-- The value as a reader of values has it, with the members of its objects in order. -/
def sorted (v : Value) : Value := v.told.value

/-- A member with its value sorted. -/
def sortedMember (member : String × Value) : String × Value := (member.1, member.2.sorted)

theorem itemValues_toldItems (items : List Value) :
    Document.itemValues (toldItems items) = items.map sorted := by
  induction items with
  | nil => rfl
  | cons item rest ih => rw [toldItems, Document.itemValues, ih]; rfl

theorem memberValues_toldMembers (members : List (String × Value)) :
    Document.memberValues (toldMembers members) = members.map sortedMember := by
  induction members with
  | nil => rfl
  | cons member rest ih => rw [toldMembers, Document.memberValues, ih]; rfl

theorem sorted_array (items : List Value) : (array items).sorted = array (items.map sorted) := by
  rw [sorted, told, Document.value, itemValues_toldItems]

theorem sorted_object (members : List (String × Value)) :
    (object members).sorted = ofMembers (members.map sortedMember) := by
  rw [sorted, told, Document.value, memberValues_toldMembers]

theorem sorted_of_isScalar {v : Value} (h : v.isScalar = true) : v.sorted = v := by
  cases v with
  | array | object => exact absurd h (by simp [isScalar])
  | null | bool | number | string => rfl

theorem emptied_sorted (v : Value) : v.sorted.emptied = v.emptied := by
  cases v with
  | array items => rw [sorted_array, emptied, emptied]
  | object members => rw [sorted_object, ofMembers, emptied, emptied]
  | null | bool | number | string => rfl

mutual

theorem sorted_sorted : ∀ v : Value, v.sorted.sorted = v.sorted
  | .array items => by rw [sorted_array, sorted_array, sorted_sortedItems]
  | .object members => by
      rw [sorted_object, ofMembers, sorted_object, ofMembers]
      have hmap := Dictionary.ofList_map sorted (members.map sortedMember)
      rw [show ((members.map sortedMember).map fun entry => (entry.1, entry.2.sorted)) =
        members.map sortedMember from sorted_sortedMembers members] at hmap
      show object (Dictionary.ofList
        ((Dictionary.ofList (members.map sortedMember)).map fun entry =>
          (entry.1, entry.2.sorted))) = _
      rw [← hmap, Dictionary.ofList_of_ascending (Dictionary.ascending_ofList _)]
  | .null | .bool _ | .number _ | .string _ => rfl

theorem sorted_sortedItems : ∀ items : List Value,
    (items.map sorted).map sorted = items.map sorted
  | [] => rfl
  | item :: rest => by
      rw [List.map_cons, List.map_cons, sorted_sorted item, sorted_sortedItems rest]

theorem sorted_sortedMembers : ∀ members : List (String × Value),
    (members.map sortedMember).map sortedMember = members.map sortedMember
  | [] => rfl
  | (name, value) :: rest => by
      rw [List.map_cons, List.map_cons, sorted_sortedMembers rest, sortedMember, sortedMember,
        sorted_sorted value]

end

/-! ## The names in each object, and how deep it all is -/

mutual

/-- The names of each object, in their order, are like this. -/
def EachObject (P : List String → Prop) : Value → Prop
  | .array items => EachObjectOfItems P items
  | .object members => P (members.map Prod.fst) ∧ EachObjectOfMembers P members
  | _ => True

/-- The same of each object inside the elements of an array. -/
def EachObjectOfItems (P : List String → Prop) : List Value → Prop
  | [] => True
  | item :: rest => item.EachObject P ∧ EachObjectOfItems P rest

/-- The same of each object inside the members of an object. -/
def EachObjectOfMembers (P : List String → Prop) : List (String × Value) → Prop
  | [] => True
  | (_, value) :: rest => value.EachObject P ∧ EachObjectOfMembers P rest

end

mutual

theorem EachObject.imp {P Q : List String → Prop} (hPQ : ∀ names, P names → Q names) :
    ∀ v : Value, v.EachObject P → v.EachObject Q
  | .array items, h => EachObject.impItems hPQ items h
  | .object members, h => ⟨hPQ _ h.1, EachObject.impMembers hPQ members h.2⟩
  | .null, _ | .bool _, _ | .number _, _ | .string _, _ => trivial

theorem EachObject.impItems {P Q : List String → Prop} (hPQ : ∀ names, P names → Q names) :
    ∀ items : List Value, EachObjectOfItems P items → EachObjectOfItems Q items
  | [], _ => trivial
  | item :: rest, h => ⟨EachObject.imp hPQ item h.1, EachObject.impItems hPQ rest h.2⟩

theorem EachObject.impMembers {P Q : List String → Prop} (hPQ : ∀ names, P names → Q names) :
    ∀ members : List (String × Value), EachObjectOfMembers P members →
      EachObjectOfMembers Q members
  | [], _ => trivial
  | (_, value) :: rest, h => ⟨EachObject.imp hPQ value h.1, EachObject.impMembers hPQ rest h.2⟩

end

mutual

/-- How many containers lie in each other. -/
def depth : Value → Nat
  | .array items => depthOfItems items + 1
  | .object members => depthOfMembers members + 1
  | _ => 0

/-- The depth of the deepest element. -/
def depthOfItems : List Value → Nat
  | [] => 0
  | item :: rest => max item.depth (depthOfItems rest)

/-- The depth of the deepest member. -/
def depthOfMembers : List (String × Value) → Nat
  | [] => 0
  | (_, value) :: rest => max value.depth (depthOfMembers rest)

end

theorem depth_of_isScalar {v : Value} (h : v.isScalar = true) : v.depth = 0 := by
  cases v with
  | array | object => exact absurd h (by simp [isScalar])
  | null | bool | number | string => rfl

theorem ofKept_map {α β : Type} {container : List α → Value} {container' : List β → Value}
    (f : List α → List β) (hnil : ∀ xs, f xs = [] ↔ xs = []) (sort : Value → Value)
    (hsort : ∀ xs, sort (container xs) = container' (f xs)) (xs : List α) :
    (ofKept container xs).map sort = ofKept container' (f xs) := by
  cases xs with
  | nil => rw [(hnil []).mpr rfl]; rfl
  | cons x xs =>
      have hne : f (x :: xs) ≠ [] := fun h => absurd ((hnil _).mp h) (by simp)
      obtain ⟨y, ys, hy⟩ := List.exists_cons_of_ne_nil hne
      have hcons := hsort (x :: xs)
      rw [hy] at hcons ⊢
      exact congrArg some hcons

end Json.Value

namespace Context

open Value

variable {g : Graph}

mutual

/-- **To keep a part of a sorted value is to sort what is kept of the value.** -/
theorem project_sorted : ∀ (v : Value) (c : Context), v.EachObject List.Nodup →
    c.project g v.sorted = (c.project g v).map sorted
  | .array items, c, h => by
      rw [sorted_array, project, project]
      by_cases hc : c = .all
      · rw [if_pos hc, if_pos hc, Option.map_some, sorted_array]
      · rw [if_neg hc, if_neg hc, projectItems_eq, projectItems_eq, filterMap_project items c h]
        exact (ofKept_map (List.map sorted) (by simp) sorted sorted_array _).symm
  | .object members, c, h => by
      rw [sorted_object, ofMembers, project, project]
      by_cases hc : c = .all
      · rw [if_pos hc, if_pos hc, Option.map_some, sorted_object, ofMembers]
      · rw [if_neg hc, if_neg hc, projectMembers_eq, projectMembers_eq]
        have hnodup : ((members.map sortedMember).map Prod.fst).Nodup := by
          rw [List.map_map]
          exact h.1
        rw [Dictionary.ofList_filterMap (fun _ _ => fst_of_projectMember) hnodup,
          filterMap_projectMember members c h.2]
        have hnil : ∀ ms : List (String × Value),
            Dictionary.ofList (ms.map sortedMember) = [] ↔ ms = [] := by
          intro ms
          rw [Dictionary.ofList_eq_nil_iff, List.map_eq_nil_iff]
        exact (ofKept_map _ hnil sorted sorted_object _).symm
  | .null, _, _ | .bool _, _, _ | .number _, _, _ | .string _, _, _ => by
      rw [sorted_of_isScalar rfl, project_of_isScalar rfl]
      split <;> rfl

theorem filterMap_project : ∀ (items : List Value) (c : Context),
    EachObjectOfItems List.Nodup items →
    (items.map sorted).filterMap (c.project g) = (items.filterMap (c.project g)).map sorted
  | [], _, _ => rfl
  | item :: rest, c, h => by
      rw [List.map_cons, List.filterMap_cons, List.filterMap_cons, project_sorted item c h.1,
        filterMap_project rest c h.2]
      cases c.project g item <;> rfl

theorem filterMap_projectMember : ∀ (members : List (String × Value)) (c : Context),
    EachObjectOfMembers List.Nodup members →
    (members.map sortedMember).filterMap (c.projectMember g) =
      (members.filterMap (c.projectMember g)).map sortedMember
  | [], _, _ => rfl
  | (name, value) :: rest, c, h => by
      have hmember : c.projectMember g (name, value.sorted) =
          (c.projectMember g (name, value)).map sortedMember := by
        rw [projectMember, projectMember]
        cases c.field g name with
        | none => rfl
        | some c' =>
            simp only [Option.bind_some]
            rw [project_sorted value c' h.1]
            cases c'.project g value <;> rfl
      rw [List.map_cons, List.filterMap_cons, List.filterMap_cons, sortedMember, hmember,
        filterMap_projectMember rest c h.2]
      cases c.projectMember g (name, value) <;> rfl

end

/-! ## Names and depth of what is kept -/

theorem projectMembers_names (c : Context) (members : List (String × Value)) :
    ((c.projectMembers g members).map Prod.fst).Sublist (members.map Prod.fst) := by
  rw [projectMembers_eq]
  induction members with
  | nil => exact List.Sublist.refl _
  | cons member rest ih =>
      rw [List.filterMap_cons]
      cases hkept : c.projectMember g member with
      | none => exact ih.trans (List.sublist_cons_self _ _)
      | some kept =>
          rw [List.map_cons, List.map_cons, fst_of_projectMember hkept]
          exact ih.cons_cons _

/-- A rule for the names of an object that still holds when some are left out. -/
def Hereditary (P : List String → Prop) : Prop :=
  ∀ xs ys : List String, xs.Sublist ys → P ys → P xs

variable {P : List String → Prop}

mutual

theorem eachObject_project (hP : Hereditary P) : ∀ (v : Value) {c : Context} {kept : Value},
    v.EachObject P → c.project g v = some kept → kept.EachObject P
  | .array items, c, kept, h, hkept => by
      rw [project] at hkept
      split at hkept
      · cases hkept
        exact h
      · obtain ⟨-, rfl⟩ := eq_of_ofKept hkept
        exact eachObject_projectItems hP items h
  | .object members, c, kept, h, hkept => by
      rw [project] at hkept
      split at hkept
      · cases hkept
        exact h
      · obtain ⟨-, rfl⟩ := eq_of_ofKept hkept
        exact ⟨hP _ _ (projectMembers_names c members) h.1,
          eachObject_projectMembers hP members h.2⟩
  | .null, _, _, _, hkept | .bool _, _, _, _, hkept | .number _, _, _, _, hkept
  | .string _, _, _, _, hkept => by
      rw [project_of_isScalar rfl] at hkept
      split at hkept
      · cases hkept
        exact trivial
      · exact absurd hkept (by simp)

theorem eachObject_projectItems (hP : Hereditary P) : ∀ (items : List Value) {c : Context},
    EachObjectOfItems P items → EachObjectOfItems P (c.projectItems g items)
  | [], _, _ => trivial
  | item :: rest, c, h => by
      rw [projectItems]
      have hrest := eachObject_projectItems hP rest (c := c) h.2
      cases hitem : c.project g item with
      | none => exact hrest
      | some kept => exact ⟨eachObject_project hP item h.1 hitem, hrest⟩

theorem eachObject_projectMembers (hP : Hereditary P) :
    ∀ (members : List (String × Value)) {c : Context}, EachObjectOfMembers P members →
      EachObjectOfMembers P (c.projectMembers g members)
  | [], _, _ => trivial
  | (name, value) :: rest, c, h => by
      rw [projectMembers]
      have hrest := eachObject_projectMembers hP rest (c := c) h.2
      cases hfield : c.field g name with
      | none => exact hrest
      | some c' =>
          cases hvalue : c'.project g value with
          | none => simpa [hvalue] using hrest
          | some kept =>
              have hboth : EachObjectOfMembers P ((name, kept) :: c.projectMembers g rest) :=
                ⟨eachObject_project hP value h.1 hvalue, hrest⟩
              simpa [hvalue] using hboth

end

mutual

theorem depth_project : ∀ (v : Value) {c : Context} {kept : Value},
    c.project g v = some kept → kept.depth ≤ v.depth
  | .array items, c, kept, hkept => by
      rw [project] at hkept
      split at hkept
      · cases hkept
        exact Nat.le_refl _
      · obtain ⟨-, rfl⟩ := eq_of_ofKept hkept
        exact Nat.succ_le_succ (depth_projectItems items)
  | .object members, c, kept, hkept => by
      rw [project] at hkept
      split at hkept
      · cases hkept
        exact Nat.le_refl _
      · obtain ⟨-, rfl⟩ := eq_of_ofKept hkept
        exact Nat.succ_le_succ (depth_projectMembers members)
  | .null, _, _, hkept | .bool _, _, _, hkept | .number _, _, _, hkept
  | .string _, _, _, hkept => by
      rw [project_of_isScalar rfl] at hkept
      split at hkept
      · cases hkept
        exact Nat.le_refl _
      · exact absurd hkept (by simp)

theorem depth_projectItems : ∀ (items : List Value) {c : Context},
    depthOfItems (c.projectItems g items) ≤ depthOfItems items
  | [], _ => Nat.le_refl _
  | item :: rest, c => by
      rw [projectItems, depthOfItems]
      have hrest := depth_projectItems rest (c := c)
      cases hitem : c.project g item with
      | none => exact hrest.trans (Nat.le_max_right _ _)
      | some kept =>
          have hkept := depth_project item hitem
          show max kept.depth (depthOfItems (c.projectItems g rest)) ≤ _
          omega

theorem depth_projectMembers : ∀ (members : List (String × Value)) {c : Context},
    depthOfMembers (c.projectMembers g members) ≤ depthOfMembers members
  | [], _ => Nat.le_refl _
  | (name, value) :: rest, c => by
      have hrest := depth_projectMembers rest (c := c)
      have hskip : depthOfMembers (c.projectMembers g rest) ≤
          depthOfMembers ((name, value) :: rest) := hrest.trans (Nat.le_max_right _ _)
      rw [projectMembers]
      cases hfield : c.field g name with
      | none => exact hskip
      | some c' =>
          cases hvalue : c'.project g value with
          | none => simpa [hvalue] using hskip
          | some kept =>
              have hkept := depth_project value hvalue
              have hboth : max kept.depth (depthOfMembers (c.projectMembers g rest)) ≤
                  max value.depth (depthOfMembers rest) := by omega
              simpa [hvalue, depthOfMembers] using hboth

end

end Context

/-! ## Documents -/

namespace Tree

variable (t : Tree)

/-- **It makes no difference whether a document is sorted before it is filtered or after.** -/
theorem sorted_project {v : Value} (h : v.EachObject List.Nodup) :
    (t.project v.sorted).sorted = (t.project v).sorted := by
  rw [t.project_eq v.sorted, t.project_eq v, Context.project_sorted v _ h, v.emptied_sorted]
  cases (Context.ofNode t.graph t.root).project t.graph v with
  | none => rfl
  | some kept => exact kept.sorted_sorted

theorem eachObject_project {P : List String → Prop}
    (hP : Context.Hereditary P) {v : Value} (h : v.EachObject P) :
    (t.project v).EachObject P := by
  refine t.forall_project (fun kept => Context.eachObject_project hP v h) ?_
  cases v with
  | object members => exact ⟨hP _ _ (List.nil_sublist _) h.1, trivial⟩
  | array | null | bool | number | string => exact trivial

theorem depth_project (v : Value) : (t.project v).depth ≤ v.depth := by
  refine t.forall_project (Q := fun w => w.depth ≤ v.depth) (fun kept => Context.depth_project v) ?_
  cases v with
  | array | object => exact Nat.succ_le_succ (Nat.zero_le _)
  | null | bool | number | string => exact Nat.le_refl _

end Tree

end FieldSelection
