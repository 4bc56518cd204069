import FieldSelection.Json.Stream
import FieldSelection.Proofs.Filtering.Sorting
import FieldSelection.Proofs.Json.Layout
import FieldSelection.Proofs.Json.Lexeme

/-!
# What a writer writes is read back

The reader of events skips the blanks that a layout puts in front of a value, a name or an end,
and meets the same punctuation that the writer puts there. So the text of a value is told as the
events of the value, in each layout, in front of anything that does not go on with a number.

One thing is in the way: an object whose first name is `numberName` would be read as a number.
-/

namespace FieldSelection.Json

open Value Writer Telling

/-! ## Blanks -/

theorem skipBlanks_append {blanks : List UInt8} (h : ∀ b ∈ blanks, isBlank b = true)
    (text : List UInt8) : skipBlanks (blanks ++ text) = skipBlanks text := by
  rw [skipBlanks, skipBlanks, List.dropWhile_append_of_pos h]

theorem skipBlanks_cons {b : UInt8} (h : isBlank b = false) (text : List UInt8) :
    skipBlanks (b :: text) = b :: text := List.dropWhile_cons_of_neg (by simp [h])

theorem isBlank_newLine (layout : Layout) (indent : Nat) :
    ∀ b ∈ newLine layout indent, isBlank b = true := by
  cases layout with
  | compact => simp [newLine]
  | pretty =>
      intro b hb
      rcases List.mem_cons.mp hb with rfl | hb
      · decide
      · rw [List.eq_of_mem_replicate hb]
        decide

theorem ofReading_ok {α : Type} (x : α) (next : α → Telling) : ofReading (.ok x) next = next x :=
  rfl

theorem andThen_ok (told : List Event) (rest : List UInt8) (next : List UInt8 → Telling) :
    (⟨told, .ok rest⟩ : Telling).andThen next = ⟨told ++ (next rest).events, (next rest).rest⟩ :=
  rfl

/-- A value is told from behind the blanks in front of it. -/
theorem tell_congr {depth : Nat} {text text' : List UInt8}
    (h : skipBlanks text = skipBlanks text') : tell depth text = tell depth text' := by
  cases depth <;> rw [tell, tell, h]

theorem endsNumber_cons {b : UInt8} (h : isBlank b = true ∨ b ∈ [byte ',', byte ']', byte '\x7d'])
    (rest : List UInt8) : EndsNumber (b :: rest) := by
  have hends : ∀ b ∈ [0x20, 0x09, 0x0A, 0x0D, byte ',', byte ']', byte '\x7d'],
      digit? b = none ∧ b ≠ byte '.' ∧ b ≠ byte 'e' ∧ b ≠ byte 'E' := by decide +kernel
  have hmem : b ∈ [0x20, 0x09, 0x0A, 0x0D, byte ',', byte ']', byte '\x7d'] := by
    rcases h with hblank | hmem
    · simp only [isBlank, Bool.or_eq_true, beq_iff_eq] at hblank
      rcases hblank with ((rfl | rfl) | rfl) | rfl <;> simp
    · simp only [List.mem_cons, List.not_mem_nil, or_false] at hmem
      rcases hmem with rfl | rfl | rfl <;> simp
  rintro _ ⟨⟩
  exact hends b hmem

theorem endsNumber_append {blanks rest : List UInt8} (h : ∀ b ∈ blanks, isBlank b = true)
    (hrest : EndsNumber rest) : EndsNumber (blanks ++ rest) := by
  cases blanks with
  | nil => exact hrest
  | cons b blanks => exact endsNumber_cons (Or.inl (h b List.mem_cons_self)) _

/-! ## Punctuation -/

theorem nextElement_separator {b : UInt8} (hblank : isBlank b = false) (hend : b ≠ byte ']')
    (layout : Layout) (first : Bool) (indent : Nat) (rest : List UInt8) :
    nextElement first (separator layout first indent ++ b :: rest) =
      .ok (.element (b :: rest)) := by
  have hskip : skipBlanks (newLine layout indent ++ b :: rest) = b :: rest := by
    rw [skipBlanks_append (isBlank_newLine layout indent), skipBlanks_cons hblank]
  cases first with
  | true =>
      show nextElement true (newLine layout indent ++ b :: rest) = _
      rw [nextElement, hskip]
      simp [hend]
  | false =>
      show nextElement false (byte ',' :: (newLine layout indent ++ b :: rest)) = _
      rw [nextElement, skipBlanks_cons (by decide)]
      simp only [hskip]
      simp [hend]
      decide

theorem nextElement_end {blanks : List UInt8} (h : ∀ b ∈ blanks, isBlank b = true) (first : Bool)
    (rest : List UInt8) : nextElement first (blanks ++ byte ']' :: rest) = .ok (.done rest) := by
  rw [nextElement, skipBlanks_append h, skipBlanks_cons (by decide)]
  rfl

theorem nextMember_separator (layout : Layout) (first : Bool) (indent : Nat) (name : String)
    (rest : List UInt8) :
    nextMember first (separator layout first indent ++ (quoted name ++ rest)) =
      .ok (.member name rest) := by
  have hname : nextMember.named (name.toList.flatMap quotedChar ++ byte '"' :: rest) =
      .ok (.member name rest) := by
    rw [nextMember.named, string_quoted]
    rfl
  have hquoted : quoted name ++ rest =
      byte '"' :: (name.toList.flatMap quotedChar ++ byte '"' :: rest) := by
    simp [quoted]
  have hskip : skipBlanks (newLine layout indent ++ (quoted name ++ rest)) =
      byte '"' :: (name.toList.flatMap quotedChar ++ byte '"' :: rest) := by
    rw [skipBlanks_append (isBlank_newLine layout indent), hquoted, skipBlanks_cons (by decide)]
  cases first with
  | true =>
      show nextMember true (newLine layout indent ++ (quoted name ++ rest)) = _
      rw [nextMember, hskip]
      exact hname
  | false =>
      show nextMember false (byte ',' :: (newLine layout indent ++ (quoted name ++ rest))) = _
      rw [nextMember, skipBlanks_cons (by decide)]
      simp only [hskip]
      exact hname

theorem nextMember_end {blanks : List UInt8} (h : ∀ b ∈ blanks, isBlank b = true) (first : Bool)
    (rest : List UInt8) :
    nextMember first (blanks ++ byte '\x7d' :: rest) = .ok (.done rest) := by
  rw [nextMember, skipBlanks_append h, skipBlanks_cons (by decide)]
  rfl

/-- Behind the colon, only blanks stand in front of the value. -/
theorem colon_assignment (layout : Layout) (text : List UInt8) :
    ∃ rest, colon (assignment layout ++ text) = .ok rest ∧ skipBlanks rest = skipBlanks text := by
  cases layout with
  | compact => exact ⟨text, rfl, rfl⟩
  | pretty => exact ⟨byte ' ' :: text, rfl, rfl⟩

/-! ## Values -/

/-- What is written for a value begins with no blank, and not like the end of an array. -/
theorem text_first (v : Value) (layout : Layout) (indent : Nat) :
    ∃ b bs, v.text layout indent = b :: bs ∧ isBlank b = false ∧ b ≠ byte ']' := by
  have hscalar : v.isScalar = true →
      ∃ b bs, v.text layout indent = b :: bs ∧ isBlank b = false ∧ b ≠ byte ']' := by
    intro hv
    obtain ⟨b, bs, hbytes, hblank, -, -, hend⟩ := scalarBytes_first hv
    exact ⟨b, bs, by rw [text_of_isScalar hv, hbytes], hblank, hend⟩
  cases v with
  | array | object => exact ⟨_, _, by rw [text], by decide⟩
  | null | bool | number | string => exact hscalar rfl

theorem length_textOfItems (items : List Value) (layout : Layout) (indent : Nat) (first : Bool) :
    items.length ≤ (textOfItems layout indent first items).length := by
  induction items generalizing first with
  | nil => exact Nat.zero_le _
  | cons item rest ih =>
      obtain ⟨b, bs, htext, -, -⟩ := text_first item layout indent
      have hrest := ih false
      rw [textOfItems, htext]
      simp only [List.length_append, List.length_cons]
      omega

theorem length_textOfMembers (members : List (String × Value)) (layout : Layout) (indent : Nat)
    (first : Bool) : members.length ≤ (textOfMembers layout indent first members).length := by
  induction members generalizing first with
  | nil => exact Nat.zero_le _
  | cons member rest ih =>
      obtain ⟨name, value⟩ := member
      have hrest := ih false
      rw [textOfMembers, quoted]
      simp only [List.length_append, List.length_cons]
      omega

theorem tell_scalar {v : Value} (hv : v.isScalar = true) (depth : Nat) {rest : List UInt8}
    (h : EndsNumber rest) : tell depth (v.scalarBytes ++ rest) = ⟨v.events, .ok rest⟩ := by
  obtain ⟨b, bs, hbytes, hblank, harray, hobject, -⟩ := scalarBytes_first hv
  have hread := scalar_scalarBytes hv h
  rw [hbytes, List.cons_append] at hread ⊢
  rw [events_of_isScalar hv]
  cases depth <;> rw [tell, skipBlanks_cons hblank] <;>
    simp [harray, hobject, hread, ofReading, after, silent]

/-- In front of a value that is not the first there is a comma, and in front of an end there are
blanks at most. -/
theorem endsNumber_items (items : List Value) (layout : Layout) (indent : Nat)
    {blanks : List UInt8} (h : ∀ b ∈ blanks, isBlank b = true) (rest : List UInt8) :
    EndsNumber (textOfItems layout indent false items ++ (blanks ++ byte ']' :: rest)) := by
  cases items with
  | nil =>
      show EndsNumber (blanks ++ byte ']' :: rest)
      exact endsNumber_append h (endsNumber_cons (by simp) rest)
  | cons item more => exact endsNumber_cons (b := byte ',') (by simp) _

theorem endsNumber_members (members : List (String × Value)) (layout : Layout) (indent : Nat)
    {blanks : List UInt8} (h : ∀ b ∈ blanks, isBlank b = true) (rest : List UInt8) :
    EndsNumber (textOfMembers layout indent false members ++ (blanks ++ byte '\x7d' :: rest)) := by
  cases members with
  | nil =>
      show EndsNumber (blanks ++ byte '\x7d' :: rest)
      exact endsNumber_append h (endsNumber_cons (by simp) rest)
  | cons member more => exact endsNumber_cons (b := byte ',') (by simp) _

/-- What stands in front of the end of a container. -/
theorem isBlank_lead (layout : Layout) (indent : Nat) (empty : Bool) :
    ∀ b ∈ (if empty then [] else newLine layout indent), isBlank b = true := by
  cases empty with
  | true => simp
  | false => exact isBlank_newLine layout indent

/-- An object with names like these is not taken for a number. -/
def NotANumber (names : List String) : Prop := names.head? ≠ some numberName

mutual

/-- **The text of a value is told as its events.** -/
theorem tell_text (layout : Layout) : ∀ (v : Value) (depth indent : Nat) (rest : List UInt8),
    v.depth ≤ depth → v.EachObject NotANumber → EndsNumber rest →
    tell depth (v.text layout indent ++ rest) = ⟨v.events, .ok rest⟩
  | .array items, 0, indent, rest, hdepth, _, _ => absurd hdepth (Nat.not_succ_le_zero _)
  | .array items, depth + 1, indent, rest, hdepth, hnames, _ => by
      -- the reader has as much fuel as there is text, and each item takes some of it
      have hlength := length_textOfItems items layout (indent + 1) true
      have hitems := tell_textOfItems layout items depth (indent + 1)
        ((textOfItems layout (indent + 1) true items ++
          ((if items.isEmpty then [] else newLine layout indent) ++ byte ']' :: rest)).length + 1)
        true _ rest (Nat.le_of_succ_le_succ hdepth) hnames
        (by rw [List.length_append]; omega) (isBlank_lead layout indent items.isEmpty)
      have htext : (Value.array items).text layout indent ++ rest =
          byte '[' :: (textOfItems layout (indent + 1) true items ++
            ((if items.isEmpty then [] else newLine layout indent) ++ byte ']' :: rest)) := by
        simp [text]
      rw [htext, tell, skipBlanks_cons (by decide)]
      simp only
      rw [if_pos (by decide), hitems]
      rfl
  | .object members, 0, indent, rest, hdepth, _, _ => absurd hdepth (Nat.not_succ_le_zero _)
  | .object members, depth + 1, indent, rest, hdepth, hnames, _ => by
      have hlength := length_textOfMembers members layout (indent + 1) true
      have hblanks := isBlank_lead layout indent members.isEmpty
      have htext : (Value.object members).text layout indent ++ rest =
          byte '\x7b' :: (textOfMembers layout (indent + 1) true members ++
            ((if members.isEmpty then [] else newLine layout indent) ++ byte '\x7d' :: rest)) := by
        simp [text]
      have hmembers := tell_textOfMembers layout members depth (indent + 1)
        (textOfMembers layout (indent + 1) true members ++
          ((if members.isEmpty then [] else newLine layout indent) ++ byte '\x7d' :: rest)).length
        true _ rest (Nat.le_of_succ_le_succ hdepth) hnames.2
        (by rw [List.length_append]; omega) hblanks
      rw [htext, tell, skipBlanks_cons (by decide)]
      simp only
      rw [if_neg (by decide), if_pos (by decide)]
      cases members with
      | nil =>
          rw [textOfMembers, List.nil_append, nextMember_end hblanks]
          rfl
      | cons member more =>
          -- the first name is looked at before any member is told
          obtain ⟨name, value⟩ := member
          have hname : name ≠ numberName := fun h => hnames.1 (congrArg some h)
          rw [textOfMembers] at hmembers ⊢
          simp only [List.append_assoc] at hmembers ⊢
          rw [nextMember_separator, ofReading_ok] at hmembers ⊢
          simp only
          rw [if_neg hname, hmembers]
          rfl
  | .null, depth, indent, rest, _, _, h => tell_scalar (v := .null) rfl depth h
  | .bool b, depth, indent, rest, _, _, h => tell_scalar (v := .bool b) rfl depth h
  | .number n, depth, indent, rest, _, _, h => tell_scalar (v := .number n) rfl depth h
  | .string s, depth, indent, rest, _, _, h => tell_scalar (v := .string s) rfl depth h

theorem tell_textOfItems (layout : Layout) : ∀ (items : List Value) (depth indent fuel : Nat)
    (first : Bool) (blanks rest : List UInt8), depthOfItems items ≤ depth →
    EachObjectOfItems NotANumber items → items.length < fuel →
    (∀ b ∈ blanks, isBlank b = true) →
    tellElements (tell depth) fuel first
        (textOfItems layout indent first items ++ (blanks ++ byte ']' :: rest)) =
      ⟨itemEvents items ++ [.stop .array], .ok rest⟩
  | _, _, _, 0, _, _, _, _, _, hfuel, _ => absurd hfuel (Nat.not_lt_zero _)
  | [], depth, indent, fuel + 1, first, blanks, rest, _, _, _, hblanks => by
      rw [textOfItems, List.nil_append, tellElements, nextElement_end hblanks]
      rfl
  | item :: more, depth, indent, fuel + 1, first, blanks, rest, hdepth, hnames, hfuel,
      hblanks => by
      obtain ⟨hitem, hmore⟩ := Nat.max_le.mp hdepth
      have htold := tell_text layout item depth indent _ hitem hnames.1
        (endsNumber_items more layout indent hblanks rest)
      have hrest := tell_textOfItems layout more depth indent fuel false blanks rest hmore
        hnames.2 (Nat.lt_of_succ_lt_succ hfuel) hblanks
      have hnext : nextElement first (separator layout first indent ++ (item.text layout indent ++
          (textOfItems layout indent false more ++ (blanks ++ byte ']' :: rest)))) =
          .ok (.element (item.text layout indent ++
            (textOfItems layout indent false more ++ (blanks ++ byte ']' :: rest)))) := by
        obtain ⟨b, bs, htext, hblank, hend⟩ := text_first item layout indent
        rw [htext]
        exact nextElement_separator hblank hend layout first indent _
      rw [textOfItems, List.append_assoc, List.append_assoc, tellElements, hnext, ofReading_ok]
      simp only
      rw [htold, andThen_ok, hrest, itemEvents, List.append_assoc]

theorem tell_textOfMembers (layout : Layout) : ∀ (members : List (String × Value))
    (depth indent fuel : Nat) (first : Bool) (blanks rest : List UInt8),
    depthOfMembers members ≤ depth → EachObjectOfMembers NotANumber members →
    members.length ≤ fuel → (∀ b ∈ blanks, isBlank b = true) →
    ofReading (nextMember first
        (textOfMembers layout indent first members ++ (blanks ++ byte '\x7d' :: rest)))
        (tellMembers (tell depth) fuel) =
      ⟨memberEvents members ++ [.stop .object], .ok rest⟩
  | [], depth, indent, fuel, first, blanks, rest, _, _, _, hblanks => by
      rw [textOfMembers, List.nil_append, nextMember_end hblanks]
      cases fuel <;> rfl
  | _ :: _, _, _, 0, _, _, _, _, _, hfuel, _ => absurd hfuel (Nat.not_succ_le_zero _)
  | (name, value) :: more, depth, indent, fuel + 1, first, blanks, rest, hdepth, hnames, hfuel,
      hblanks => by
      obtain ⟨hvalue, hmore⟩ := Nat.max_le.mp hdepth
      have htold := tell_text layout value depth indent _ hvalue hnames.1
        (endsNumber_members more layout indent hblanks rest)
      have hrest := tell_textOfMembers layout more depth indent fuel false blanks rest hmore
        hnames.2 (Nat.le_of_succ_le_succ hfuel) hblanks
      obtain ⟨behind, hcolon, hskip⟩ := colon_assignment layout (value.text layout indent ++
        (textOfMembers layout indent false more ++ (blanks ++ byte '\x7d' :: rest)))
      rw [← tell_congr hskip] at htold
      rw [textOfMembers]
      simp only [List.append_assoc]
      rw [nextMember_separator, ofReading_ok, tellMembers, hcolon, ofReading_ok, htold, andThen_ok,
        hrest]
      simp [after, memberEvents]

end

/-- **A document that is written is told again**, in each layout. -/
theorem stream_text (layout : Layout) {v : Value} (hdepth : v.depth ≤ depthLimit)
    (hnames : v.EachObject NotANumber) : stream (v.text layout 0) = .ofValue v := by
  have htold := tell_text layout v depthLimit 0 [] hdepth hnames endsNumber_nil
  rw [List.append_nil] at htold
  simp [stream, andThen, htold, ofReading, endOfDocument, skipBlanks, silent, Source.ofValue]

end FieldSelection.Json
