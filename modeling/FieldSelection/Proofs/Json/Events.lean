import FieldSelection.Proofs.Filtering.Projection

/-!
# A document is known by its events

The first event of a value tells its kind, and brackets come in pairs. So where a value ends in
a sequence of events is settled by the events themselves, and two values with the same events
are one value.
-/

namespace FieldSelection.Json.Value

/-- A value that begins with a scalar event is that scalar. -/
theorem eq_of_events_append {v w : Value} {xs ys : List Event}
    (h : .scalar v :: xs = w.events ++ ys) : v = w ∧ xs = ys := by
  cases w with
  | array | object => exact absurd h (by simp [events])
  | null | bool | number | string =>
      simp only [events, List.singleton_append, List.cons.injEq, Event.scalar.injEq] at h
      exact h

/-- No value begins where a container ends. -/
theorem events_append_ne_stop (v : Value) (kind : Container) (xs ys : List Event) :
    v.events ++ xs ≠ .stop kind :: ys := by
  cases v <;> simp [events]

mutual

/-- A value ends where its events end. -/
theorem events_append_inj : ∀ (v w : Value) {xs ys : List Event},
    v.events ++ xs = w.events ++ ys → v = w ∧ xs = ys
  | .array items, w, xs, ys, h => by
      cases w with
      | array items' =>
          simp only [events, List.cons_append, List.append_assoc, List.cons.injEq, true_and,
            List.nil_append] at h
          obtain ⟨rfl, rfl⟩ := itemEvents_append_inj items items' h
          exact ⟨rfl, rfl⟩
      | object | null | bool | number | string => exact absurd h (by simp [events])
  | .object members, w, xs, ys, h => by
      cases w with
      | object members' =>
          simp only [events, List.cons_append, List.append_assoc, List.cons.injEq, true_and,
            List.nil_append] at h
          obtain ⟨rfl, rfl⟩ := memberEvents_append_inj members members' h
          exact ⟨rfl, rfl⟩
      | array | null | bool | number | string => exact absurd h (by simp [events])
  | .null, w, xs, ys, h | .bool _, w, xs, ys, h | .number _, w, xs, ys, h
  | .string _, w, xs, ys, h => by
      rw [events_of_isScalar rfl, List.singleton_append] at h
      exact eq_of_events_append h

/-- The elements of an array end where the array ends. -/
theorem itemEvents_append_inj : ∀ (items items' : List Value) {kind : Container}
    {xs ys : List Event},
    itemEvents items ++ .stop kind :: xs = itemEvents items' ++ .stop kind :: ys →
      items = items' ∧ xs = ys
  | [], [], kind, xs, ys, h => ⟨rfl, (List.cons.inj h).2⟩
  | [], item' :: rest', kind, xs, ys, h => by
      -- one array ends where the other still has an element
      rw [itemEvents, itemEvents, List.append_assoc] at h
      exact absurd h.symm (events_append_ne_stop item' kind _ _)
  | item :: rest, [], kind, xs, ys, h => by
      rw [itemEvents, itemEvents, List.append_assoc] at h
      exact absurd h (events_append_ne_stop item kind _ _)
  | item :: rest, item' :: rest', kind, xs, ys, h => by
      rw [itemEvents, itemEvents, List.append_assoc, List.append_assoc] at h
      obtain ⟨rfl, hrest⟩ := events_append_inj item item' h
      obtain ⟨rfl, htail⟩ := itemEvents_append_inj rest rest' hrest
      exact ⟨rfl, htail⟩

theorem memberEvents_append_inj : ∀ (members members' : List (String × Value)) {kind : Container}
    {xs ys : List Event},
    memberEvents members ++ .stop kind :: xs = memberEvents members' ++ .stop kind :: ys →
      members = members' ∧ xs = ys
  | [], [], kind, xs, ys, h => ⟨rfl, (List.cons.inj h).2⟩
  | [], (name', value') :: rest', kind, xs, ys, h => absurd h (by simp [memberEvents])
  | (name, value) :: rest, [], kind, xs, ys, h => absurd h (by simp [memberEvents])
  | (name, value) :: rest, (name', value') :: rest', kind, xs, ys, h => by
      simp only [memberEvents, List.cons_append, List.append_assoc, List.cons.injEq,
        Event.field.injEq] at h
      obtain ⟨rfl, h⟩ := h
      -- the names are the same, so the values begin at the same place
      obtain ⟨rfl, hrest⟩ := events_append_inj value value' h
      obtain ⟨rfl, htail⟩ := memberEvents_append_inj rest rest' hrest
      exact ⟨rfl, htail⟩

end

/-- **Two values with the same events are the same.** -/
theorem events_inj {v w : Value} (h : v.events = w.events) : v = w := by
  have happend : v.events ++ [] = w.events ++ [] := by rw [h]
  exact (events_append_inj v w happend).1

end FieldSelection.Json.Value
