import FieldSelection.Proofs.Json.Collecting
import FieldSelection.Proofs.Json.Encoding
import FieldSelection.Proofs.Json.ReadBack

/-!
# Filtering a text and filtering its value

A text is filtered in its own order, event by event, and written again. A value is filtered in
the order of its names, and put together again. Both come to the projection of the document that
the text tells: the one writes it, and the other gives it sorted. What is written is read back,
and reading sorts it.
-/

namespace FieldSelection

open Json

/-- To filter a value gives its projection, sorted. -/
theorem filterValue_eq (t : Tree) (v : Value) : filterValue v t = .ok (t.project v).sorted := by
  obtain ⟨state, hcopy⟩ := copyFiltered_ofValue t v (Assembly.writeAll_value _) rfl
  rw [filterValue, hcopy]
  rfl

/-- To filter a text writes the projection of the document that it tells. -/
theorem filterText_of_stream (t : Tree) (layout : Layout) {text : List UInt8} {d : Value}
    (h : stream text = .ofValue d) :
    ∃ out, filterText text layout {} t = (out, none) ∧
      out.written = (t.project d).text layout 0 := by
  obtain ⟨w, hwrite, hclose, htaken⟩ := Writer.writes_document layout (t.project d) []
  obtain ⟨state, hcopy⟩ := copyFiltered_ofValue t d hwrite hclose
  refine ⟨w.output, ?_, ?_⟩
  · simp only [filterText, h, hcopy]
    rfl
  · rw [Output.written, htaken, List.append_nil, List.reverse_reverse]

theorem notANumber_of_not_mem {v : Value} (h : v.EachObject (numberName ∉ ·)) :
    v.EachObject NotANumber :=
  Value.EachObject.imp (fun _ hnot hhead => hnot (List.mem_of_mem_head? hhead)) v h

theorem hereditary_not_mem (name : String) : Context.Hereditary (name ∉ ·) :=
  fun _ _ hsub hnot hmem => hnot (hsub.mem hmem)

/-- **Filtering a text and filtering its value agree.** A text that is read as a value tells a
document, which is the value once it is sorted. If no object of it has a name twice, or the name
of those that stand for numbers, then to filter the text succeeds, what is written is the
encoding of a string, and that string is read as what comes of filtering the value. -/
theorem filterText_agrees (t : Tree) {text : List UInt8} {v : Value}
    (h : Value.parse text = .ok v) :
    ∃ d : Value, stream text = .ofValue d ∧ d.sorted = v ∧
      (d.EachObject List.Nodup → d.EachObject (numberName ∉ ·) →
        ∃ (out : Output) (s : String) (w : Value), filterText text .compact {} t = (out, none) ∧
          out.written = Text.bytes s ∧ Value.parse (Text.bytes s) = .ok w ∧
          filterValue v t = .ok w) := by
  obtain ⟨d, hstream, hsorted, hdepth⟩ := stream_of_parse h
  refine ⟨d, hstream, hsorted, fun hnodup hnumber => ?_⟩
  obtain ⟨out, hfilter, hwritten⟩ := filterText_of_stream t .compact hstream
  obtain ⟨s, hs⟩ := isText_text .compact (t.project d) 0
  have hkept : (t.project d).EachObject NotANumber :=
    notANumber_of_not_mem (t.eachObject_project (hereditary_not_mem numberName) hnumber)
  have hback : stream (Text.bytes s) = .ofValue (t.project d) := by
    rw [← hs]
    exact stream_text .compact ((t.depth_project d).trans hdepth) hkept
  refine ⟨out, s, (t.project d).sorted, hfilter, hwritten.trans hs, parse_of_stream hback, ?_⟩
  rw [← hsorted, filterValue_eq, t.sorted_project hnodup]

theorem canonical_one : (⟨1, by decide⟩ : Digit) = 0 → ([] : List Digit) = [] :=
  Whole.canonical_single _

/-- A volume whose fields are not in the order of their names. -/
def volume : Value :=
  .object [("title", .string "Tea"),
    ("id", .number ⟨false, ⟨⟨1, by decide⟩, []⟩, none, none, canonical_one⟩),
    ("authors", .array [.string "A", .object [("name", .null)]])]

/-- The volume is read from an indented text, and filtered down to the names of its authors and
its title, in whatever order they stand. -/
theorem filterText_agrees_volume :
    let fields := Tree.ofPaths [[.name "authors", .name "name"], [.name "title"]]
    let text := volume.text .pretty 0
    Value.parse text = .ok volume.sorted ∧
      ∃ (out : Output) (s : String) (w : Value), filterText text .compact {} fields = (out, none) ∧
        out.written = Text.bytes s ∧ Value.parse (Text.bytes s) = .ok w ∧
        filterValue volume.sorted fields = .ok w := by
  intro fields text
  have hnodup : volume.EachObject List.Nodup := by
    simp [volume, Value.EachObject, Value.EachObjectOfItems, Value.EachObjectOfMembers]
  have hnumber : volume.EachObject (numberName ∉ ·) := by
    simp [volume, Value.EachObject, Value.EachObjectOfItems, Value.EachObjectOfMembers, numberName]
  have hstream : stream text = .ofValue volume := by
    refine stream_text .pretty (by decide) ?_
    exact notANumber_of_not_mem hnumber
  have hread : Value.parse text = .ok volume.sorted := parse_of_stream hstream
  obtain ⟨d, hd, -, hagree⟩ := filterText_agrees fields hread
  have hevents : volume.events = d.events := congrArg Source.events (hstream.symm.trans hd)
  cases Value.events_inj hevents
  exact ⟨hread, hagree hnodup hnumber⟩

end FieldSelection
