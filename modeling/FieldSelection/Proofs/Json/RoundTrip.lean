import FieldSelection.Proofs.Json.Document
import FieldSelection.Proofs.Json.ReadBack
import Mathlib.Data.List.Infix

/-!
# Events survive being written and read

A reader can tell what it is given only if the containers do not lie too deep and no object
begins like a number. Both can be said of the events alone: by the containers that are open after
each of them, and by two events that must not follow each other. For the events of a value this is
what the reader asks of the value, so whatever sequence of events a writer takes as a document is
told again, event by event, from what was written.
-/

namespace FieldSelection.Json

/-- Whether no more than so many containers are open at any time. -/
def NestsWithin (limit : Nat) (told : List Event) : Prop :=
  ∀ begun n, begun <+: told → ({} : Nesting).run begun = some n → n.places.length ≤ limit

/-- Whether no object begins with the name that makes it a number. -/
def NamesNoNumber (told : List Event) : Prop :=
  ¬ [.start .object, .field numberName] <:+: told

theorem NamesNoNumber.of_infix {told part : List Event} (h : NamesNoNumber told)
    (hpart : part <:+: told) : NamesNoNumber part :=
  fun hnumber => h (hnumber.trans hpart)

namespace Value

open Nesting

mutual

/-- At some point of a value all containers that lie in each other are open. -/
theorem exists_deepest : ∀ (v : Value) {n m : Nesting}, n.next = some m →
    ∃ begun k, begun <+: v.events ∧ n.run begun = some k ∧
      k.places.length = n.places.length + v.depth
  | .array items, n, m, h => by
      have hstart : n.run [.start .array] = some (m.enter .array) := by simp [run, step, h]
      obtain ⟨begun, k, hbegun, hrun, hlength⟩ := exists_deepest_items items m
      refine ⟨.start .array :: begun, k, ?_, run_trans hstart hrun, ?_⟩
      · rw [events]
        exact List.cons_prefix_cons.mpr ⟨rfl, hbegun.trans (List.prefix_append _ _)⟩
      · rw [hlength, length_places_next h, depth, Nat.add_assoc, Nat.add_comm 1]
  | .object members, n, m, h => by
      have hstart : n.run [.start .object] = some (m.enter .object) := by simp [run, step, h]
      obtain ⟨begun, k, hbegun, hrun, hlength⟩ := exists_deepest_members members m
      refine ⟨.start .object :: begun, k, ?_, run_trans hstart hrun, ?_⟩
      · rw [events]
        exact List.cons_prefix_cons.mpr ⟨rfl, hbegun.trans (List.prefix_append _ _)⟩
      · rw [hlength, length_places_next h, depth, Nat.add_assoc, Nat.add_comm 1]
  | .null, n, _, _ | .bool _, n, _, _ | .number _, n, _, _ | .string _, n, _, _ =>
      ⟨[], n, List.nil_prefix, rfl, rfl⟩

theorem exists_deepest_items : ∀ (items : List Value) (m : Nesting),
    ∃ begun k, begun <+: itemEvents items ∧ (m.enter .array).run begun = some k ∧
      k.places.length = m.places.length + 1 + depthOfItems items
  | [], m => ⟨[], m.enter .array, List.nil_prefix, rfl, rfl⟩
  | item :: rest, m => by
      rw [itemEvents, depthOfItems]
      rcases Nat.le_total (depthOfItems rest) item.depth with hle | hle
      · obtain ⟨begun, k, hbegun, hrun, hlength⟩ :=
          exists_deepest item (n := m.enter .array) rfl
        refine ⟨begun, k, hbegun.trans (List.prefix_append _ _), hrun, ?_⟩
        rw [hlength, Nat.max_eq_left hle]
        rfl
      · have hitem : (m.enter .array).run item.events = some (m.enter .array) := by
          rw [← item.told_events]
          simpa [toldItems, Document.itemEvents] using run_itemEvents [item.told] m
        obtain ⟨begun, k, hbegun, hrun, hlength⟩ := exists_deepest_items rest m
        refine ⟨item.events ++ begun, k, ?_, run_trans hitem hrun, ?_⟩
        · exact (List.prefix_append_right_inj _).mpr hbegun
        · rw [hlength, Nat.max_eq_right hle]

theorem exists_deepest_members : ∀ (members : List (String × Value)) (m : Nesting),
    ∃ begun k, begun <+: memberEvents members ∧ (m.enter .object).run begun = some k ∧
      k.places.length = m.places.length + 1 + depthOfMembers members
  | [], m => ⟨[], m.enter .object, List.nil_prefix, rfl, rfl⟩
  | (name, value) :: rest, m => by
      rw [memberEvents, depthOfMembers]
      rcases Nat.le_total (depthOfMembers rest) value.depth with hle | hle
      · -- the name is told, and then a value is due
        have hnamed : (m.enter .object).run [.field name] =
            some { m with places := .object true :: m.places } := rfl
        obtain ⟨begun, k, hbegun, hrun, hlength⟩ :=
          exists_deepest value (n := { m with places := .object true :: m.places }) rfl
        refine ⟨.field name :: begun, k, ?_, run_trans hnamed hrun, ?_⟩
        · exact List.cons_prefix_cons.mpr ⟨rfl, hbegun.trans (List.prefix_append _ _)⟩
        · rw [hlength, Nat.max_eq_left hle]
          rfl
      · have hmember : (m.enter .object).run (.field name :: value.events) =
            some (m.enter .object) := by
          rw [← value.told_events]
          simpa [Document.memberEvents] using run_memberEvents [(name, value.told)] m
        obtain ⟨begun, k, hbegun, hrun, hlength⟩ := exists_deepest_members rest m
        refine ⟨.field name :: (value.events ++ begun), k, ?_, run_trans hmember hrun, ?_⟩
        · exact List.cons_prefix_cons.mpr ⟨rfl, (List.prefix_append_right_inj _).mpr hbegun⟩
        · rw [hlength, Nat.max_eq_right hle]

end

theorem depth_le_of_nestsWithin {limit : Nat} {v : Value} (h : NestsWithin limit v.events) :
    v.depth ≤ limit := by
  obtain ⟨begun, k, hbegun, hrun, hlength⟩ := exists_deepest v (n := {}) rfl
  have hle := h begun k hbegun hrun
  rwa [hlength, List.length_nil, Nat.zero_add] at hle

mutual

/-- An object that begins like a number shows in the events. -/
theorem eachObject_of_namesNoNumber : ∀ v : Value, NamesNoNumber v.events →
    v.EachObject NotANumber
  | .array items, h => by
      refine eachObject_items_of_namesNoNumber items (h.of_infix ?_)
      exact (List.prefix_append _ _).isInfix.trans (List.suffix_cons _ _).isInfix
  | .object members, h => by
      refine ⟨fun hname => ?_, eachObject_members_of_namesNoNumber members (h.of_infix ?_)⟩
      · cases members with
        | nil => exact absurd hname (by simp)
        | cons member rest =>
            obtain ⟨name, value⟩ := member
            cases hname
            exact h (List.IsPrefix.isInfix ⟨_, rfl⟩)
      · exact (List.prefix_append _ _).isInfix.trans (List.suffix_cons _ _).isInfix
  | .null, _ | .bool _, _ | .number _, _ | .string _, _ => trivial

theorem eachObject_items_of_namesNoNumber : ∀ items : List Value,
    NamesNoNumber (itemEvents items) → EachObjectOfItems NotANumber items
  | [], _ => trivial
  | item :: rest, h =>
      ⟨eachObject_of_namesNoNumber item (h.of_infix (List.prefix_append _ _).isInfix),
        eachObject_items_of_namesNoNumber rest (h.of_infix (List.suffix_append _ _).isInfix)⟩

theorem eachObject_members_of_namesNoNumber : ∀ members : List (String × Value),
    NamesNoNumber (memberEvents members) → EachObjectOfMembers NotANumber members
  | [], _ => trivial
  | (name, value) :: rest, h => by
      have hboth : NamesNoNumber (value.events ++ memberEvents rest) :=
        h.of_infix (List.suffix_cons _ _).isInfix
      exact ⟨eachObject_of_namesNoNumber value (hboth.of_infix (List.prefix_append _ _).isInfix),
        eachObject_members_of_namesNoNumber rest
          (hboth.of_infix (List.suffix_append _ _).isInfix)⟩

end

end Value

/-- **What is written is told again, event by event.** A writer takes the events of a document and
can be closed behind it, and the text that it wrote is told as the same events, in each layout. -/
theorem stream_written (layout : Layout) {told : List Event} (hcomplete : Complete told)
    (hplain : Plain told) (hdepth : NestsWithin depthLimit told) (hnumber : NamesNoNumber told) :
    ∃ w, Sink.writeAll ({ layout } : Writer) told = .accepted w ∧ Sink.close w = .accepted w ∧
      stream w.output.written = ⟨told, none⟩ := by
  obtain ⟨v, rfl⟩ := (complete_iff_of_plain hplain).mp hcomplete
  obtain ⟨w, hwrite, hclose, htaken⟩ := Writer.writes_document layout v []
  have htext : w.output.written = v.text layout 0 := by
    rw [Output.written, htaken, List.append_nil, List.reverse_reverse]
  refine ⟨w, hwrite, hclose, ?_⟩
  rw [htext]
  exact stream_text layout (Value.depth_le_of_nestsWithin hdepth)
    (Value.eachObject_of_namesNoNumber v hnumber)

/-- A name comes twice, one value is an empty object, and there are digits and characters of all
kinds. -/
theorem stream_written_kinds :
    let told : List Event :=
      [.start .object, .field "a", .start .array,
        .scalar (.number ⟨true, ⟨0, []⟩, some ⟨5, [0]⟩, some (true, ⟨0, [7]⟩), by decide⟩),
        .start .object, .stop .object, .scalar .null, .stop .array,
        .field "a", .scalar (.string "\"é\n\\"), .field numberName, .scalar (.bool true),
        .stop .object]
    (Complete told ∧ Plain told ∧ NestsWithin depthLimit told ∧ NamesNoNumber told) ∧
      (∃ w, Sink.writeAll ({ layout := .compact } : Writer) told = .accepted w ∧
        Sink.close w = .accepted w ∧ stream w.output.written = ⟨told, none⟩) ∧
      ∃ w, Sink.writeAll ({ layout := .pretty } : Writer) told = .accepted w ∧
        Sink.close w = .accepted w ∧ stream w.output.written = ⟨told, none⟩ := by
  intro told
  have hcomplete : Complete told := by
    refine ⟨.object [("a", .array [.whole _, .object [], .whole .null]), ("a", .whole _),
      (numberName, .whole _)], rfl⟩
  have hplain : Plain told := by
    intro v hv
    simp only [told, List.mem_cons, Event.scalar.injEq, reduceCtorEq, List.not_mem_nil, or_false,
      false_or] at hv
    rcases hv with rfl | rfl | rfl | rfl <;> rfl
  have hdepth : NestsWithin depthLimit told := by
    have hall : ∀ begun ∈ told.inits, ∀ n ∈ ({} : Nesting).run begun,
        n.places.length ≤ depthLimit := by decide +kernel
    exact fun begun n hbegun hrun => hall begun ((List.mem_inits _ _).mpr hbegun) n hrun
  have hnumber : NamesNoNumber told := by
    show ¬ _ <:+: told
    decide +kernel
  exact ⟨⟨hcomplete, hplain, hdepth, hnumber⟩,
    stream_written .compact hcomplete hplain hdepth hnumber,
    stream_written .pretty hcomplete hplain hdepth hnumber⟩

end FieldSelection.Json
