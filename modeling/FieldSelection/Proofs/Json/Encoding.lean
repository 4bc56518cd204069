import FieldSelection.Proofs.Json.Layout

/-!
# What is written is UTF-8

All that stands around the strings of a document is ASCII, and each character of a string is
written as an escape, which is ASCII too, or in UTF-8. So the text of a value is the encoding of
a string.
-/

namespace FieldSelection.Json

open Value Writer

/-- These bytes are those of a string. -/
def IsText (bytes : List UInt8) : Prop := ∃ s : String, bytes = Text.bytes s

theorem isText_nil : IsText [] := ⟨"", rfl⟩

theorem IsText.append {xs ys : List UInt8} (hx : IsText xs) (hy : IsText ys) :
    IsText (xs ++ ys) := by
  obtain ⟨s, rfl⟩ := hx
  obtain ⟨s', rfl⟩ := hy
  exact ⟨s ++ s', (Text.bytes_append s s').symm⟩

theorem isText_utf8EncodeChar (c : Char) : IsText (String.utf8EncodeChar c) :=
  ⟨String.singleton c, by simp [Text.bytes]⟩

theorem utf8EncodeChar_ascii : ∀ n < 0x80,
    String.utf8EncodeChar (Char.ofNat n) = [UInt8.ofNat n] := by decide

theorem isText_of_ascii {bs : List UInt8} (h : ∀ b ∈ bs, b.toNat < 0x80) : IsText bs := by
  induction bs with
  | nil => exact isText_nil
  | cons b bs ih =>
      have hfirst : IsText [b] := by
        have hchar := utf8EncodeChar_ascii b.toNat (h b List.mem_cons_self)
        rw [UInt8.ofNat_toNat] at hchar
        rw [← hchar]
        exact isText_utf8EncodeChar _
      exact hfirst.append (ih fun b hb => h b (List.mem_cons_of_mem _ hb))

theorem isText_byte {b : UInt8} (h : b.toNat < 0x80) : IsText [b] :=
  isText_of_ascii (by simpa using h)

theorem IsText.cons {b : UInt8} {bs : List UInt8} (h : IsText bs) (hb : b.toNat < 0x80) :
    IsText (b :: bs) := (isText_byte hb).append h

/-! ## Scalars -/

theorem hexByte_ascii : ∀ n < 0x10, (hexByte n).toNat < 0x80 := by decide

theorem isText_quotedChar (c : Char) : IsText (quotedChar c) := by
  rw [quotedChar]
  cases hletter : escapeLetter? c with
  | some letter =>
      refine isText_of_ascii fun b hb => ?_
      rw [escapeLetter?] at hletter
      repeat' split at hletter
      all_goals first
        | (cases hletter
           simp only [List.mem_cons, List.not_mem_nil, or_false] at hb
           rcases hb with rfl | rfl <;> decide)
        | exact absurd hletter (by simp)
  | none =>
      simp only
      split
      · have hfirst : ∀ b ∈ ascii "\\u00", b.toNat < 0x80 := by decide +kernel
        refine (isText_of_ascii hfirst).append (isText_of_ascii fun b hb => ?_)
        simp only [List.mem_cons, List.not_mem_nil, or_false] at hb
        rcases hb with rfl | rfl <;> exact hexByte_ascii _ (by omega)
      · exact isText_utf8EncodeChar c

theorem isText_quoted (text : String) : IsText (quoted text) := by
  have hcontent : ∀ cs : List Char, IsText (cs.flatMap quotedChar) := by
    intro cs
    induction cs with
    | nil => exact isText_nil
    | cons c cs ih => exact (isText_quotedChar c).append ih
  exact ((hcontent text.toList).append (isText_byte (by decide))).cons (by decide)

theorem isText_digits (ds : Digits) : IsText ds.bytes := by
  have hdigit : ∀ d : Digit, d.toByte.toNat < 0x80 := by decide
  refine isText_of_ascii fun b hb => ?_
  obtain ⟨d, -, rfl⟩ := List.mem_map.mp hb
  exact hdigit d

theorem isText_number (n : Number) : IsText n.bytes := by
  obtain ⟨negative, w, f, e, hcanonical⟩ := n
  refine IsText.append (IsText.append (IsText.append ?_ (isText_digits w)) ?_) ?_
  · cases negative with
    | true => exact isText_byte (by decide)
    | false => exact isText_nil
  · cases f with
    | none => exact isText_nil
    | some ds => exact (isText_digits ds).cons (by decide)
  · cases e with
    | none => exact isText_nil
    | some e =>
        obtain ⟨sign, ds⟩ := e
        cases sign <;> exact ((isText_digits ds).cons (by decide)).cons (by decide)

theorem isText_scalarBytes (v : Value) : IsText v.scalarBytes := by
  cases v with
  | null => exact isText_of_ascii (by decide +kernel)
  | bool b => cases b <;> exact isText_of_ascii (by decide +kernel)
  | number n => exact isText_number n
  | string text => exact isText_quoted text
  | array | object => exact isText_nil

/-! ## Layouts -/

theorem isText_newLine (layout : Layout) (indent : Nat) : IsText (newLine layout indent) := by
  cases layout with
  | compact => exact isText_nil
  | pretty =>
      refine IsText.cons (isText_of_ascii fun b hb => ?_) (by decide)
      rw [List.eq_of_mem_replicate hb]
      decide

theorem isText_separator (layout : Layout) (first : Bool) (indent : Nat) :
    IsText (separator layout first indent) := by
  refine IsText.append ?_ (isText_newLine layout indent)
  cases first with
  | true => exact isText_nil
  | false => exact isText_byte (by decide)

theorem isText_assignment (layout : Layout) : IsText (assignment layout) := by
  cases layout <;> exact isText_of_ascii (by decide +kernel)

theorem isText_lead (layout : Layout) (indent : Nat) (empty : Bool) :
    IsText (if empty then [] else newLine layout indent) := by
  cases empty with
  | true => exact isText_nil
  | false => exact isText_newLine layout indent

mutual

/-- **The text of a value is UTF-8.** -/
theorem isText_text (layout : Layout) : ∀ (v : Value) (indent : Nat),
    IsText (v.text layout indent)
  | .array items, indent => by
      rw [text]
      exact ((isText_textOfItems layout items (indent + 1) true).append
        ((isText_lead layout indent _).append (isText_byte (by decide)))).cons (by decide)
  | .object members, indent => by
      rw [text]
      exact ((isText_textOfMembers layout members (indent + 1) true).append
        ((isText_lead layout indent _).append (isText_byte (by decide)))).cons (by decide)
  | .null, _ | .bool _, _ | .number _, _ | .string _, _ => by
      rw [text_of_isScalar rfl]
      exact isText_scalarBytes _

theorem isText_textOfItems (layout : Layout) : ∀ (items : List Value) (indent : Nat)
    (first : Bool), IsText (textOfItems layout indent first items)
  | [], _, _ => isText_nil
  | item :: rest, indent, first =>
      (isText_separator layout first indent).append
        ((isText_text layout item indent).append (isText_textOfItems layout rest indent false))

theorem isText_textOfMembers (layout : Layout) : ∀ (members : List (String × Value))
    (indent : Nat) (first : Bool), IsText (textOfMembers layout indent first members)
  | [], _, _ => isText_nil
  | (name, value) :: rest, indent, first =>
      (isText_separator layout first indent).append ((isText_quoted name).append
        ((isText_assignment layout).append ((isText_text layout value indent).append
          (isText_textOfMembers layout rest indent false))))

end

end FieldSelection.Json
