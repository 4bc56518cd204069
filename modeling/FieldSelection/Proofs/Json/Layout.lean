import FieldSelection.Json.Writer
import FieldSelection.Proofs.Filtering.Copying
import FieldSelection.Proofs.Json.Document

/-!
# The text of a value in a layout

A writer keeps a stack of open containers. `Value.text` says by recursion what comes of it: each
value on its own, with what stands in front of it and at the end of each container.
`Document.text` says the same of a document that is told; there a container that is handed over
as a whole stands without blanks, whatever the layout.

The invariant is about one document. Where a value is due, the writer writes what stands in front
of it and its text, and goes on as behind any value; only whether the container just closed had
something in it is left from the inside.
-/

namespace FieldSelection.Json

namespace Value

mutual

/-- What is written for a value of which the lines inside are indented like this. -/
def text (layout : Layout) (indent : Nat) : Value → List UInt8
  | .array items =>
    byte '[' :: (textOfItems layout (indent + 1) true items ++
      ((if items.isEmpty then [] else Writer.newLine layout indent) ++ [byte ']']))
  | .object members =>
    byte '\x7b' :: (textOfMembers layout (indent + 1) true members ++
      ((if members.isEmpty then [] else Writer.newLine layout indent) ++ [byte '\x7d']))
  | scalar => scalar.scalarBytes

/-- The elements with what stands between them. Before the first one there is no comma. -/
def textOfItems (layout : Layout) (indent : Nat) (first : Bool) : List Value → List UInt8
  | [] => []
  | item :: rest =>
    Writer.separator layout first indent ++
      (item.text layout indent ++ textOfItems layout indent false rest)

/-- The members, each with its name in front, and what stands between them. -/
def textOfMembers (layout : Layout) (indent : Nat) (first : Bool) :
    List (String × Value) → List UInt8
  | [] => []
  | (name, value) :: rest =>
    Writer.separator layout first indent ++ (quoted name ++ (Writer.assignment layout ++
      (value.text layout indent ++ textOfMembers layout indent false rest)))

end

theorem text_of_isScalar {v : Value} (h : v.isScalar = true) (layout : Layout) (indent : Nat) :
    v.text layout indent = v.scalarBytes := by
  cases v with
  | array | object => exact absurd h (by simp [isScalar])
  | null | bool | number | string => rfl

theorem compact_of_isScalar {v : Value} (h : v.isScalar = true) : v.compact = v.scalarBytes := by
  cases v with
  | array | object => exact absurd h (by simp [isScalar])
  | null | bool | number | string => rfl

end Value

namespace Document

mutual

/-- What is written for a document of which the lines inside are indented like this. -/
def text (layout : Layout) (indent : Nat) : Document → List UInt8
  | .whole v => v.compact
  | .array items =>
    byte '[' :: (textOfItems layout (indent + 1) true items ++
      ((if items.isEmpty then [] else Writer.newLine layout indent) ++ [byte ']']))
  | .object members =>
    byte '\x7b' :: (textOfMembers layout (indent + 1) true members ++
      ((if members.isEmpty then [] else Writer.newLine layout indent) ++ [byte '\x7d']))

/-- The elements with what stands between them, as for those of a value. -/
def textOfItems (layout : Layout) (indent : Nat) (first : Bool) : List Document → List UInt8
  | [] => []
  | item :: rest =>
    Writer.separator layout first indent ++
      (item.text layout indent ++ textOfItems layout indent false rest)

/-- The members with what stands between them, as for those of a value. -/
def textOfMembers (layout : Layout) (indent : Nat) (first : Bool) :
    List (String × Document) → List UInt8
  | [] => []
  | (name, document) :: rest =>
    Writer.separator layout first indent ++ (quoted name ++ (Writer.assignment layout ++
      (document.text layout indent ++ textOfMembers layout indent false rest)))

end

end Document

namespace Value

variable (layout : Layout)

mutual

theorem told_text : ∀ (v : Value) (indent : Nat), v.told.text layout indent = v.text layout indent
  | .array items, indent => by
      rw [told, Document.text, toldItems_text items, text]
      cases items <;> rfl
  | .object members, indent => by
      rw [told, Document.text, toldMembers_text members, text]
      cases members with
      | nil => rfl
      | cons member rest => obtain ⟨name, value⟩ := member; rfl
  | .null, indent | .bool _, indent | .number _, indent | .string _, indent => by
      rw [text_of_isScalar rfl, ← compact_of_isScalar rfl]
      rfl

theorem toldItems_text : ∀ (items : List Value) (indent : Nat) (first : Bool),
    Document.textOfItems layout indent first (toldItems items) =
      textOfItems layout indent first items
  | [], _, _ => rfl
  | item :: rest, indent, first => by
      rw [toldItems, Document.textOfItems, told_text item, toldItems_text rest, textOfItems]

theorem toldMembers_text : ∀ (members : List (String × Value)) (indent : Nat) (first : Bool),
    Document.textOfMembers layout indent first (toldMembers members) =
      textOfMembers layout indent first members
  | [], _, _ => rfl
  | (name, value) :: rest, indent, first => by
      rw [toldMembers, Document.textOfMembers, told_text value, toldMembers_text rest,
        textOfMembers]

end

end Value

namespace Writer

open Document

variable {layout : Layout} {s s' s'' : State}

/-- The writer takes these events, and hands these bytes to an output that takes everything. -/
def Writes (layout : Layout) (s : State) (told : List Event) (bytes : List UInt8) (s' : State) :
    Prop :=
  ∀ taken, Sink.writeAll (⟨layout, s, ⟨taken, none⟩⟩ : Writer) told =
    .accepted ⟨layout, s', ⟨bytes.reverse ++ taken, none⟩⟩

theorem Writes.nil : Writes layout s [] [] s := fun _ => rfl

theorem Writes.append {told more : List Event} {bytes bytes' : List UInt8}
    (h : Writes layout s told bytes s') (h' : Writes layout s' more bytes' s'') :
    Writes layout s (told ++ more) (bytes ++ bytes') s'' := by
  intro taken
  rw [Sink.writeAll_append (h taken), h', List.reverse_append, List.append_assoc]

theorem Writes.congr {told : List Event} {bytes bytes' : List UInt8}
    (h : Writes layout s told bytes s') (hbytes : bytes = bytes') (hs : s' = s'') :
    Writes layout s told bytes' s'' := by
  rw [← hbytes, ← hs]
  exact h

/-- The bytes of chunks. -/
def bytesOf (chunks : List Chunk) : List UInt8 := chunks.flatMap Chunk.bytes

theorem put_all (chunks : List Chunk) (s s' : State) (taken : List UInt8) :
    (⟨layout, s, ⟨taken, none⟩⟩ : Writer).put s' chunks =
      .accepted ⟨layout, s', ⟨(bytesOf chunks).reverse ++ taken, none⟩⟩ := by
  induction chunks generalizing taken with
  | nil => rfl
  | cons chunk rest ih =>
      show (⟨layout, s, ⟨chunk.bytes.reverse ++ taken, none⟩⟩ : Writer).put s' rest = _
      rw [ih]
      simp [bytesOf]

theorem writes_of_step {event : Event} {chunks : List Chunk}
    (h : step layout s event = .written chunks s') :
    Writes layout s [event] (bytesOf chunks) s' := by
  intro taken
  have hwrite : Sink.write (⟨layout, s, ⟨taken, none⟩⟩ : Writer) event =
      .accepted ⟨layout, s', ⟨(bytesOf chunks).reverse ++ taken, none⟩⟩ := by
    show write _ event = _
    rw [write]
    simp only [h]
    exact put_all chunks s s' taken
  rw [Sink.writeAll, hwrite]
  rfl

theorem writes_start {kind : Container} {chunks : List Chunk}
    (h : beginValue layout s = .written chunks s') :
    Writes layout s [.start kind] (bytesOf chunks ++ [kind.startByte])
      ⟨Open.new kind :: s'.frames, s'.rootWritten, s'.indent + 1, false⟩ := by
  have hstep : step layout s (.start kind) = .written
      (chunks ++
        [⟨[kind.startByte], false, { s' with indent := s'.indent + 1, hasValue := false }⟩])
      ⟨Open.new kind :: s'.frames, s'.rootWritten, s'.indent + 1, false⟩ := by
    simp [step, start, h, Step.andThen]
  have hwrites := writes_of_step hstep
  simpa [bytesOf] using hwrites

theorem writes_stop_array (empty : Bool) (outer : List Open) (rootWritten : Bool) (indent : Nat)
    (hasValue : Bool) :
    Writes layout ⟨.array empty :: outer, rootWritten, indent + 1, hasValue⟩ [.stop .array]
      ((if hasValue then newLine layout indent else []) ++ [byte ']'])
      (endValue ⟨outer, rootWritten, indent, hasValue⟩) := by
  have hwrites : Writes layout ⟨.array empty :: outer, rootWritten, indent + 1, hasValue⟩
      [.stop .array] _ _ := writes_of_step rfl
  simpa [bytesOf, Container.stopByte] using hwrites

theorem writes_stop_object (empty : Bool) (outer : List Open) (rootWritten : Bool) (indent : Nat)
    (hasValue : Bool) :
    Writes layout ⟨.object empty false :: outer, rootWritten, indent + 1, hasValue⟩
      [.stop .object] ((if hasValue then newLine layout indent else []) ++ [byte '\x7d'])
      (endValue ⟨outer, rootWritten, indent, hasValue⟩) := by
  have hwrites : Writes layout ⟨.object empty false :: outer, rootWritten, indent + 1, hasValue⟩
      [.stop .object] _ _ := writes_of_step rfl
  simpa [bytesOf, Container.stopByte] using hwrites

theorem writes_field (name : String) (empty : Bool) (outer : List Open) (rootWritten : Bool)
    (indent : Nat) (hasValue : Bool) :
    Writes layout ⟨.object empty false :: outer, rootWritten, indent, hasValue⟩ [.field name]
      (separator layout empty indent ++ (quoted name ++ assignment layout))
      ⟨.object false true :: outer, rootWritten, indent, hasValue⟩ := by
  have hwrites : Writes layout ⟨.object empty false :: outer, rootWritten, indent, hasValue⟩
      [.field name] _ _ := writes_of_step rfl
  simpa [bytesOf] using hwrites

theorem writes_scalar {chunks : List Chunk} (v : Value)
    (h : beginValue layout s = .written chunks s') :
    Writes layout s [.scalar v] (bytesOf chunks ++ v.compact) (endValue s') := by
  have hstep : step layout s (.scalar v) =
      .written (chunks ++ [⟨v.compact, true, s'⟩]) (endValue s') := by
    simp [step, scalar, h, Step.andThen]
  have hwrites := writes_of_step hstep
  simpa [bytesOf] using hwrites

mutual

/-- **Where a value is due, the writer writes the text of the document.** -/
theorem writes_text : ∀ (d : Document) {s s' : State} {chunks : List Chunk},
    beginValue layout s = .written chunks s' →
    ∃ hasValue, Writes layout s d.events (bytesOf chunks ++ d.text layout s'.indent)
      (endValue { s' with hasValue })
  | .whole v, s, s', chunks, h => ⟨s'.hasValue, writes_scalar v h⟩
  | .array items, s, s', chunks, h => by
      have hstart : Writes layout s [.start .array] _ _ := writes_start h
      have hitems := writes_textOfItems items true s'.frames s'.rootWritten (s'.indent + 1) false
      have hstop : Writes layout _ _ _ _ := writes_stop_array (true && items.isEmpty) s'.frames
        s'.rootWritten s'.indent (false || !items.isEmpty)
      refine ⟨_, (hstart.append (hitems.append hstop)).congr ?_ rfl⟩
      cases items <;> simp [text, Container.startByte]
  | .object members, s, s', chunks, h => by
      have hstart : Writes layout s [.start .object] _ _ := writes_start h
      have hmembers := writes_textOfMembers members true s'.frames s'.rootWritten (s'.indent + 1)
        false
      have hstop : Writes layout _ _ _ _ := writes_stop_object (true && members.isEmpty) s'.frames
        s'.rootWritten s'.indent (false || !members.isEmpty)
      refine ⟨_, (hstart.append (hmembers.append hstop)).congr ?_ rfl⟩
      cases members <;> simp [text, Container.startByte]

theorem writes_textOfItems : ∀ (items : List Document) (empty : Bool) (outer : List Open)
    (rootWritten : Bool) (indent : Nat) (hasValue : Bool),
    Writes layout ⟨.array empty :: outer, rootWritten, indent, hasValue⟩ (itemEvents items)
      (textOfItems layout indent empty items)
      ⟨.array (empty && items.isEmpty) :: outer, rootWritten, indent, hasValue || !items.isEmpty⟩
  | [], empty, outer, rootWritten, indent, hasValue =>
      Writes.nil.congr rfl (by simp)
  | item :: rest, empty, outer, rootWritten, indent, hasValue => by
      have hbegin : beginValue layout ⟨.array empty :: outer, rootWritten, indent, hasValue⟩ =
          .written _ ⟨.array false :: outer, rootWritten, indent, hasValue⟩ := rfl
      obtain ⟨_, hitem⟩ := writes_text item hbegin
      have hrest := writes_textOfItems rest false outer rootWritten indent true
      refine (hitem.append hrest).congr ?_ ?_
      · simp [bytesOf, textOfItems]
      · simp

theorem writes_textOfMembers : ∀ (members : List (String × Document)) (empty : Bool)
    (outer : List Open) (rootWritten : Bool) (indent : Nat) (hasValue : Bool),
    Writes layout ⟨.object empty false :: outer, rootWritten, indent, hasValue⟩
      (memberEvents members) (textOfMembers layout indent empty members)
      ⟨.object (empty && members.isEmpty) false :: outer, rootWritten, indent,
        hasValue || !members.isEmpty⟩
  | [], empty, outer, rootWritten, indent, hasValue =>
      Writes.nil.congr rfl (by simp)
  | (name, document) :: rest, empty, outer, rootWritten, indent, hasValue => by
      have hfield : Writes layout _ _ _ _ :=
        writes_field name empty outer rootWritten indent hasValue
      have hbegin : beginValue layout ⟨.object false true :: outer, rootWritten, indent, hasValue⟩ =
          .written [] ⟨.object false true :: outer, rootWritten, indent, hasValue⟩ := rfl
      obtain ⟨_, hvalue⟩ := writes_text document hbegin
      have hrest := writes_textOfMembers rest false outer rootWritten indent true
      refine (hfield.append (hvalue.append hrest)).congr ?_ ?_
      · simp [bytesOf, textOfMembers]
      · simp

end

/-- **A writer writes a document as its text**, and can be closed behind it. -/
theorem writes_told (layout : Layout) (d : Document) (taken : List UInt8) :
    ∃ w, Sink.writeAll ({ layout, output := { taken } } : Writer) d.events = .accepted w ∧
      Sink.close w = .accepted w ∧ w.output.taken = (d.text layout 0).reverse ++ taken := by
  have hbegin : beginValue layout {} = .written [] {} := rfl
  obtain ⟨_, hwrites⟩ := writes_text d hbegin
  exact ⟨_, hwrites taken, rfl, rfl⟩

theorem writes_document (layout : Layout) (v : Value) (taken : List UInt8) :
    ∃ w, Sink.writeAll ({ layout, output := { taken } } : Writer) v.events = .accepted w ∧
      Sink.close w = .accepted w ∧ w.output.taken = (v.text layout 0).reverse ++ taken := by
  rw [← v.told_events, ← v.told_text]
  exact writes_told layout v.told taken

end Writer

end FieldSelection.Json
