import FieldSelection.Proofs.Filtering.Copying

/-!
# Filtering what was filtered

A field that is left has its name still, so the second time it leads to the same context as the
first time. What a context keeps of a value is therefore kept whole by the same context: nothing
is left out of it that was not left out before, and no container loses what it was kept for.

Of a document of which nothing is kept there remains an empty container. The second time it is
dropped, or kept if the tree keeps everything, and is the same in both cases.
-/

namespace FieldSelection

open Json

namespace Context

variable {g : Graph}

mutual

/-- **What a context keeps of a value it keeps as it is.** -/
theorem project_of_project (c : Context) : ∀ (v : Value) {kept : Value},
    c.project g v = some kept → c.project g kept = some kept
  | .array items, kept, h => by
      by_cases hall : c = .all
      · rw [hall, project_all]
      · rw [project, if_neg hall] at h
        obtain ⟨hne, rfl⟩ := Value.eq_of_ofKept h
        rw [project, if_neg hall, projectItems_projectItems c items,
          Value.ofKept_of_ne_nil _ hne]
  | .object members, kept, h => by
      by_cases hall : c = .all
      · rw [hall, project_all]
      · rw [project, if_neg hall] at h
        obtain ⟨hne, rfl⟩ := Value.eq_of_ofKept h
        rw [project, if_neg hall, projectMembers_projectMembers c members,
          Value.ofKept_of_ne_nil _ hne]
  | .null, _, h | .bool _, _, h | .number _, _, h | .string _, _, h => by
      have hkept := h
      rw [project_of_isScalar rfl] at h
      split at h
      · cases h
        exact hkept
      · exact absurd h (by simp)

theorem projectItems_projectItems (c : Context) : ∀ items : List Value,
    c.projectItems g (c.projectItems g items) = c.projectItems g items
  | [] => rfl
  | item :: rest => by
      rw [projectItems, projectItems_append, projectItems_projectItems c rest]
      congr 1
      cases hitem : c.project g item with
      | none => rfl
      | some kept =>
          have hagain := project_of_project c item hitem
          simp [projectItems, hagain]

theorem projectMembers_projectMembers (c : Context) : ∀ members : List (String × Value),
    c.projectMembers g (c.projectMembers g members) = c.projectMembers g members
  | [] => rfl
  | (name, value) :: rest => by
      rw [projectMembers, projectMembers_append, projectMembers_projectMembers c rest]
      congr 1
      -- the name leads to the same context both times
      cases hfield : c.field g name with
      | none => rfl
      | some c' =>
          cases hvalue : c'.project g value with
          | none => simp [hvalue, projectMembers]
          | some kept =>
              have hagain := project_of_project c' value hvalue
              simp [hvalue, projectMembers, hfield, hagain]

end

/-- An empty container is dropped or kept, and so is left as it is if it is the document. -/
theorem getD_project_emptied (c : Context) (v : Value) :
    (c.project g v.emptied).getD v.emptied = v.emptied := by
  cases v with
  | array | object =>
      rw [Value.emptied, project]
      split <;> rfl
  | null | bool | number | string =>
      rw [Value.emptied_of_isScalar rfl, project_of_isScalar rfl]
      split <;> rfl

end Context

/-- What a tree leaves of a document it leaves as it is. -/
theorem Tree.project_project (t : Tree) (v : Value) : t.project (t.project v) = t.project v := by
  refine t.forall_project (Q := fun w => t.project w = w) (fun kept hkept => ?_) ?_
  · rw [t.project_eq, Context.project_of_project _ v hkept, Option.getD_some]
  · rw [t.project_eq, Value.emptied_emptied]
    exact Context.getD_project_emptied _ v

/-- **Filtering is idempotent.** If the events that come of filtering a document are filtered
through the same tree, the recorder is told the same once more. -/
theorem copyFiltered_idempotent (t : Tree) (v : Value) :
    ∃ f f', copyFiltered (.ofValue v) ({} : Recorder) t = .accepted f ∧
      copyFiltered ⟨f.inner.events, none⟩ ({} : Recorder) t = .accepted f' ∧
      f'.inner.records = f.inner.records := by
  obtain ⟨state, hcopy⟩ := copyFiltered_told t v
  obtain ⟨state', hagain⟩ := copyFiltered_told t (t.project v)
  have hevents : (Recorder.told ((t.project v).events.map .event ++ [.closed])).events =
      (t.project v).events := by
    rw [Recorder.events_told]
    exact List.append_nil _
  rw [t.project_project] at hagain
  refine ⟨_, ⟨t, state', _⟩, hcopy, ?_, rfl⟩
  rw [hevents]
  exact hagain

end FieldSelection
