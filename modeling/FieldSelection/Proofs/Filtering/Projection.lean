import FieldSelection.Filtering

/-!
# What a tree keeps of a value

The filter sees a document as events, one at a time. Here the same selection is said of the
value as a whole, by recursion: a context keeps a value entirely, or in part, or not at all.
A container of which nothing is kept is not kept itself.

`Context.matched` counts along the same recursion: a value that is kept entirely counts once,
and so does a scalar that is kept by itself.
-/

namespace FieldSelection

open Json

namespace Json.Value

/-- Whether a value has no place for values inside. -/
def isScalar : Value → Bool
  | .array _ => false
  | .object _ => false
  | _ => true

/-- The container of what was kept, if anything was. -/
def ofKept {α : Type} (container : List α → Value) : List α → Option Value
  | [] => none
  | kept => some (container kept)

/-- What is left of a value at least where it is the whole document: of a container an empty one
of its kind. -/
def emptied : Value → Value
  | .array _ => .array []
  | .object _ => .object []
  | scalar => scalar

theorem emptied_of_isScalar {v : Value} (h : v.isScalar = true) : v.emptied = v := by
  cases v with
  | array => exact absurd h (by simp [isScalar])
  | object => exact absurd h (by simp [isScalar])
  | null | bool | number | string => rfl

@[simp] theorem emptied_emptied (v : Value) : v.emptied.emptied = v.emptied := by
  cases v <;> rfl

theorem eq_of_ofKept {α : Type} {container : List α → Value} {kept : List α} {w : Value}
    (h : ofKept container kept = some w) : kept ≠ [] ∧ w = container kept := by
  cases kept with
  | nil => exact absurd h (by simp [ofKept])
  | cons x xs => exact ⟨List.cons_ne_nil x xs, (Option.some.inj h).symm⟩

theorem ofKept_of_ne_nil {α : Type} (container : List α → Value) {kept : List α}
    (h : kept ≠ []) : ofKept container kept = some (container kept) := by
  cases kept with
  | nil => exact absurd rfl h
  | cons => rfl

theorem events_of_isScalar {v : Value} (h : v.isScalar = true) : v.events = [.scalar v] := by
  cases v with
  | array => exact absurd h (by simp [isScalar])
  | object => exact absurd h (by simp [isScalar])
  | null | bool | number | string => rfl

theorem events_ne_nil (v : Value) : v.events ≠ [] := by
  cases v with
  | array | object => simp [events]
  | null | bool | number | string => simp [events]

theorem itemEvents_append (xs ys : List Value) :
    itemEvents (xs ++ ys) = itemEvents xs ++ itemEvents ys := by
  induction xs with
  | nil => rfl
  | cons x xs ih => rw [List.cons_append, itemEvents, itemEvents, ih, List.append_assoc]

theorem memberEvents_append (xs ys : List (String × Value)) :
    memberEvents (xs ++ ys) = memberEvents xs ++ memberEvents ys := by
  induction xs with
  | nil => rfl
  | cons x xs ih => simp only [List.cons_append, memberEvents, ih, List.append_assoc]

end Json.Value

namespace Context

mutual

/-- What a context keeps of a value, if anything. -/
def project (g : Graph) (c : Context) : Value → Option Value
  | .array items =>
    if c = .all then some (.array items) else Value.ofKept .array (projectItems g c items)
  | .object members =>
    if c = .all then some (.object members) else Value.ofKept .object (projectMembers g c members)
  | scalar => if c.keepsScalar g then some scalar else none

/-- What a context keeps of the elements of an array. -/
def projectItems (g : Graph) (c : Context) : List Value → List Value
  | [] => []
  | item :: rest => (project g c item).toList ++ projectItems g c rest

/-- What a context keeps of the fields of an object: those whose name leads to a context that
keeps something of the value. -/
def projectMembers (g : Graph) (c : Context) : List (String × Value) → List (String × Value)
  | [] => []
  | (name, value) :: rest =>
    ((c.field g name).bind fun c => (project g c value).map fun kept => (name, kept)).toList
      ++ projectMembers g c rest

end

mutual

/-- How many matches a value has: those inside it, or one if it is kept as a whole. -/
def matched (g : Graph) (c : Context) : Value → Nat
  | .array items => if c = .all then 1 else matchedItems g c items
  | .object members => if c = .all then 1 else matchedMembers g c members
  | _ => if c.keepsScalar g then 1 else 0

/-- How many matches there are in the elements of an array. -/
def matchedItems (g : Graph) (c : Context) : List Value → Nat
  | [] => 0
  | item :: rest => matched g c item + matchedItems g c rest

/-- How many matches there are in the fields of an object. -/
def matchedMembers (g : Graph) (c : Context) : List (String × Value) → Nat
  | [] => 0
  | (name, value) :: rest =>
    ((c.field g name).map fun c => matched g c value).getD 0 + matchedMembers g c rest

end

end Context

/-- The document that a tree makes of a value. Of a container there is always something left,
if only an empty one of its kind, and a value without values inside stays as it is. -/
def Tree.project (t : Tree) (v : Value) : Value :=
  let kept := (Context.ofNode t.graph t.root).project t.graph v
  match v with
  | .array _ => kept.getD (.array [])
  | .object _ => kept.getD (.object [])
  | scalar => scalar

namespace Context

variable {g : Graph} {c : Context}

theorem project_of_isScalar {v : Value} (h : v.isScalar = true) :
    c.project g v = if c.keepsScalar g then some v else none := by
  cases v with
  | array => exact absurd h (by simp [Value.isScalar])
  | object => exact absurd h (by simp [Value.isScalar])
  | null | bool | number | string => rfl

theorem matched_of_isScalar {v : Value} (h : v.isScalar = true) :
    c.matched g v = if c.keepsScalar g then 1 else 0 := by
  cases v with
  | array => exact absurd h (by simp [Value.isScalar])
  | object => exact absurd h (by simp [Value.isScalar])
  | null | bool | number | string => rfl

/-- What is kept as a whole is kept as it is. -/
theorem project_all (v : Value) : project g .all v = some v := by
  cases v with
  | array | object => rw [project, if_pos rfl]
  | null | bool | number | string => rfl

theorem projectItems_all (items : List Value) : projectItems g .all items = items := by
  induction items with
  | nil => rfl
  | cons item rest ih => rw [projectItems, project_all, ih]; rfl

theorem projectMembers_all (members : List (String × Value)) :
    projectMembers g .all members = members := by
  induction members with
  | nil => rfl
  | cons member rest ih =>
      obtain ⟨name, value⟩ := member
      rw [projectMembers, ih]
      simp [field, project_all]

mutual

/-- There is a match exactly where something is kept. -/
theorem matched_eq_zero_iff (c : Context) : ∀ v : Value,
    c.matched g v = 0 ↔ c.project g v = none
  | .array items => by
      have hitems := matchedItems_eq_zero_iff c items
      rw [matched, project]
      by_cases hc : c = .all
      · simp [hc]
      · rw [if_neg hc, if_neg hc, hitems]
        cases projectItems g c items <;> simp [Value.ofKept]
  | .object members => by
      have hmembers := matchedMembers_eq_zero_iff c members
      rw [matched, project]
      by_cases hc : c = .all
      · simp [hc]
      · rw [if_neg hc, if_neg hc, hmembers]
        cases projectMembers g c members <;> simp [Value.ofKept]
  | .null | .bool _ | .number _ | .string _ => by
      rw [matched_of_isScalar rfl, project_of_isScalar rfl]
      split <;> simp

theorem matchedItems_eq_zero_iff (c : Context) : ∀ items : List Value,
    c.matchedItems g items = 0 ↔ c.projectItems g items = []
  | [] => by simp [matchedItems, projectItems]
  | item :: rest => by
      simp [matchedItems, projectItems, matched_eq_zero_iff c item,
        matchedItems_eq_zero_iff c rest]

theorem matchedMembers_eq_zero_iff (c : Context) : ∀ members : List (String × Value),
    c.matchedMembers g members = 0 ↔ c.projectMembers g members = []
  | [] => by simp [matchedMembers, projectMembers]
  | (name, value) :: rest => by
      cases hf : c.field g name with
      | none => simp [matchedMembers, projectMembers, hf, matchedMembers_eq_zero_iff c rest]
      | some c' =>
          simp [matchedMembers, projectMembers, hf, matched_eq_zero_iff c' value,
            matchedMembers_eq_zero_iff c rest]

end

/-! ## Element by element -/

/-- What a context keeps of one member. -/
def projectMember (g : Graph) (c : Context) (member : String × Value) : Option (String × Value) :=
  (c.field g member.1).bind fun c => (c.project g member.2).map fun kept => (member.1, kept)

theorem projectItems_eq (c : Context) (items : List Value) :
    c.projectItems g items = items.filterMap (c.project g) := by
  induction items with
  | nil => rfl
  | cons item rest ih =>
      rw [projectItems, ih, List.filterMap_cons]
      cases c.project g item <;> rfl

theorem projectMembers_eq (c : Context) (members : List (String × Value)) :
    c.projectMembers g members = members.filterMap (c.projectMember g) := by
  induction members with
  | nil => rfl
  | cons member rest ih =>
      obtain ⟨name, value⟩ := member
      rw [projectMembers, ih, List.filterMap_cons]
      have hmember : projectMember g c (name, value) =
          (c.field g name).bind fun c => (c.project g value).map fun kept => (name, kept) := rfl
      rw [← hmember]
      cases projectMember g c (name, value) <;> rfl

theorem fst_of_projectMember {c : Context} {member kept : String × Value}
    (h : c.projectMember g member = some kept) : kept.1 = member.1 := by
  obtain ⟨c', -, h⟩ := Option.bind_eq_some_iff.mp h
  obtain ⟨value, -, rfl⟩ := Option.map_eq_some_iff.mp h
  rfl

theorem projectItems_append (c : Context) (xs ys : List Value) :
    c.projectItems g (xs ++ ys) = c.projectItems g xs ++ c.projectItems g ys := by
  rw [projectItems_eq, projectItems_eq, projectItems_eq, List.filterMap_append]

theorem projectMembers_append (c : Context) (xs ys : List (String × Value)) :
    c.projectMembers g (xs ++ ys) = c.projectMembers g xs ++ c.projectMembers g ys := by
  rw [projectMembers_eq, projectMembers_eq, projectMembers_eq, List.filterMap_append]

end Context

namespace Tree

/-- What is kept of a document, if anything. A value without values inside is kept in any case. -/
def kept (t : Tree) : Value → Option Value
  | .array items => (Context.ofNode t.graph t.root).project t.graph (.array items)
  | .object members => (Context.ofNode t.graph t.root).project t.graph (.object members)
  | scalar => some scalar

/-- How many matches a document has. -/
def matched (t : Tree) : Value → Nat
  | .array items => (Context.ofNode t.graph t.root).matched t.graph (.array items)
  | .object members => (Context.ofNode t.graph t.root).matched t.graph (.object members)
  | _ => 1

theorem project_eq_kept (t : Tree) (v : Value) : t.project v = (t.kept v).getD v.emptied := by
  cases v <;> rfl

/-- What is left of a document is what the context of the root keeps of it, if anything. -/
theorem project_eq (t : Tree) (v : Value) :
    t.project v = ((Context.ofNode t.graph t.root).project t.graph v).getD v.emptied := by
  cases v with
  | array | object => rfl
  | null | bool | number | string =>
      rw [Context.project_of_isScalar rfl]
      split <;> rfl

/-- What holds of all that the root may keep and of what is left if it keeps nothing holds of
what is left of a document. -/
theorem forall_project {Q : Value → Prop} (t : Tree) {v : Value}
    (hkept : ∀ kept, (Context.ofNode t.graph t.root).project t.graph v = some kept → Q kept)
    (hempty : Q v.emptied) : Q (t.project v) := by
  rw [t.project_eq]
  cases h : (Context.ofNode t.graph t.root).project t.graph v with
  | none => exact hempty
  | some kept => exact hkept kept h

theorem matched_eq_zero_iff (t : Tree) (v : Value) : t.matched v = 0 ↔ t.kept v = none := by
  cases v with
  | array | object => exact Context.matched_eq_zero_iff _ _
  | null | bool | number | string => simp [matched, kept]

end Tree

end FieldSelection
