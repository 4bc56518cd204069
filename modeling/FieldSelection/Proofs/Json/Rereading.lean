import FieldSelection.Proofs.Json.Compact
import FieldSelection.Proofs.Json.ReadBack
import FieldSelection.Proofs.Json.Record
import FieldSelection.Schema

/-!
# Reading what was written

A reader reads something back from a value if it gives that, whenever it stands in front of the text
of the value, in each layout and with anything behind it. A record is read back from an object if
each of its fields is read back from a member, or has no member and is absent. The readers pass on
the record so far, so this is said of a field and two records: the one that it is read into, and the
one that comes of it.

Nothing is said of numbers, which a reader does not know the end of. There are none in what is read
here.
-/

namespace FieldSelection.Json

open Value Writer

variable {α ρ : Type} {read : Reader α} {v : Value} {x : α}

/-- From the text of a value the reader reads this. -/
def ReadsBack (read : Reader α) (v : Value) (x : α) : Prop :=
  ∀ (layout : Layout) (indent : Nat) (text rest : List UInt8),
    skipBlanks text = skipBlanks (v.text layout indent ++ rest) → read text = .ok (x, rest)

/-- The text of a value has no blanks in front. -/
theorem skipBlanks_text (v : Value) (layout : Layout) (indent : Nat) (rest : List UInt8) :
    skipBlanks (v.text layout indent ++ rest) = v.text layout indent ++ rest := by
  obtain ⟨b, bs, htext, hblank, _⟩ := text_first v layout indent
  rw [htext, List.cons_append, skipBlanks_cons hblank]

/-! ## Strings and values that may be absent -/

theorem readsBack_string (wanted : Wanted) (s : String) :
    ReadsBack (wantedString wanted) (.string s) s := by
  intro layout indent text rest h
  have hquoted : (Value.string s).text layout indent ++ rest =
      byte '"' :: (s.toList.flatMap quotedChar ++ byte '"' :: rest) := by
    rw [text_of_isScalar rfl]
    simp [scalarBytes, quoted]
  rw [wantedString, h, skipBlanks_text, hquoted]
  exact string_quoted s rest

/-- Only what is written for null begins like it. -/
theorem text_first_of_ne_null (hv : v ≠ .null) (layout : Layout) (indent : Nat) :
    ∃ b bs, v.text layout indent = b :: bs ∧ (b == byte 'n') = false := by
  cases v with
  | null => exact absurd rfl hv
  | bool b => cases b <;> exact ⟨_, _, rfl, by decide⟩
  | number n =>
      obtain ⟨b, bs, hbytes, hfirst⟩ := number_first n
      obtain ⟨hmarks, -⟩ := number_not_marked hfirst
      exact ⟨b, bs, hbytes, by simpa using fun h => hmarks (by simp [h, marks])⟩
  | string => exact ⟨_, _, text_of_isScalar rfl layout indent, by decide⟩
  | array | object => exact ⟨_, _, by rw [text], by decide⟩

theorem readsBack_optional (h : ReadsBack read v x) (hv : v ≠ .null) :
    ReadsBack (optional read) v (some x) := by
  intro layout indent text rest htext
  obtain ⟨b, bs, hbytes, hb⟩ := text_first_of_ne_null hv layout indent
  have hskip := skipBlanks_text v layout indent rest
  have hread := h layout indent (b :: (bs ++ rest)) rest (by rw [hbytes]; rfl)
  rw [optional, htext, hskip, hbytes, List.cons_append]
  simp only [hb, hread]
  rfl

/-! ## Members -/

/-- The next member is found, and behind its colon there is its value. -/
theorem nextMember_text (name : String) (v : Value) (more : List (String × Value))
    (layout : Layout) (indent : Nat) (first : Bool) (behind : List UInt8) :
    ∃ named text,
      nextMember first (textOfMembers layout indent first ((name, v) :: more) ++ behind) =
        .ok (.member name named) ∧
      colon named = .ok text ∧
      skipBlanks text = skipBlanks
        (v.text layout indent ++ (textOfMembers layout indent false more ++ behind)) := by
  obtain ⟨text, hcolon, hskip⟩ := colon_assignment layout
    (v.text layout indent ++ (textOfMembers layout indent false more ++ behind))
  refine ⟨_, text, ?_, hcolon, hskip⟩
  rw [textOfMembers]
  simp only [List.append_assoc]
  exact nextMember_separator layout first indent name _

/-- An object is its members and its end. -/
theorem text_object (members : List (String × Value)) (layout : Layout) (indent : Nat)
    (rest : List UInt8) :
    ∃ blanks, (∀ b ∈ blanks, isBlank b = true) ∧
      (Value.object members).text layout indent ++ rest =
        byte '\x7b' :: (textOfMembers layout (indent + 1) true members ++
          (blanks ++ byte '\x7d' :: rest)) :=
  ⟨_, isBlank_lead layout indent members.isEmpty, by simp [text]⟩

/-- There are no more members than bytes. -/
theorem length_members_le (members : List (String × Value)) (layout : Layout) (indent : Nat)
    (behind : List UInt8) :
    members.length ≤ (textOfMembers layout indent true members ++ behind).length := by
  have hlength := length_textOfMembers members layout indent true
  rw [List.length_append]
  omega

/-! ## Dictionaries -/

/-- The members of an object are read back one after the other. -/
theorem readsBack_members {json : α → Value} (layout : Layout) (indent : Nat)
    {blanks : List UInt8} (hblanks : ∀ b ∈ blanks, isBlank b = true) (rest : List UInt8) :
    ∀ (d : List (String × α)) (fuel : Nat) (first : Bool),
      (∀ entry ∈ d, ReadsBack read (json entry.2) entry.2) → d.length ≤ fuel →
      (nextMember first (textOfMembers layout indent first
        (d.map fun entry => (entry.1, json entry.2)) ++ (blanks ++ byte '\x7d' :: rest)) >>=
          membersFrom read fuel) = .ok (d, rest)
  | [], fuel, first, _, _ => by
      rw [List.map_nil, textOfMembers, List.nil_append, nextMember_end hblanks]
      cases fuel <;> rfl
  | _ :: _, 0, _, _, hfuel => absurd hfuel (Nat.not_succ_le_zero _)
  | (name, x) :: more, fuel + 1, first, h, hfuel => by
      have hmore := readsBack_members layout indent hblanks rest more fuel false
        (fun entry hentry => h entry (List.mem_cons_of_mem _ hentry)) (Nat.le_of_succ_le_succ hfuel)
      obtain ⟨next, hnext', hmembers⟩ := bind_eq_ok hmore
      obtain ⟨named, text, hnext, hcolon, hskip⟩ := nextMember_text name (json x)
        (more.map fun entry => (entry.1, json entry.2)) layout indent first
        (blanks ++ byte '\x7d' :: rest)
      have hread := h (name, x) List.mem_cons_self _ _ _ _ hskip
      rw [List.map_cons, hnext]
      show membersFrom read (fuel + 1) (.member name named) = _
      simp only [membersFrom, hcolon, hread, hnext', hmembers, bind, Except.bind]
      rfl

/-- **A dictionary is read back** if its entries are. -/
theorem readsBack_dictionary {json : α → Value} {d : Dictionary α} (hd : d.Ascending)
    (h : ∀ entry ∈ d, ReadsBack read (json entry.2) entry.2) :
    ReadsBack (dictionary (some read)) (.object (d.map fun entry => (entry.1, json entry.2)))
      d := by
  intro layout indent text rest htext
  obtain ⟨blanks, hblanks, hobject⟩ := text_object (d.map fun entry => (entry.1, json entry.2))
    layout indent rest
  -- each member takes at least a byte, so the fuel is enough
  have hfuel := length_members_le (d.map fun entry => (entry.1, json entry.2)) layout (indent + 1)
    (blanks ++ byte '\x7d' :: rest)
  rw [List.length_map] at hfuel
  have hmembers := readsBack_members layout (indent + 1) hblanks rest d _ true h hfuel
  obtain ⟨next, hnext, hmembers⟩ := bind_eq_ok hmembers
  rw [dictionary, htext, skipBlanks_text, hobject]
  simp only [beq_self_eq_true, if_true, hnext, hmembers, bind, Except.bind]
  rw [Dictionary.ofList_of_ascending hd]
  rfl

/-! ## Records -/

/-- These fields, read from the members with these values one after the other, make of one record
another. A field without a value has no member, and is passed over. -/
inductive Fills : List (RecordField ρ) → List (String × Option Value) → ρ → ρ → Prop where
  /-- There are no fields. -/
  | nil {r : ρ} : Fills [] [] r r
  /-- The field is there. -/
  | present {field : RecordField ρ} {fields : List (RecordField ρ)} {v : Value}
      {values : List (String × Option Value)} {r r' r'' : ρ} :
      ReadsBack (field.read r) v r' → Fills fields values r' r'' →
      Fills (field :: fields) ((field.name, some v) :: values) r r''
  /-- The field is absent. -/
  | absent {field : RecordField ρ} {fields : List (RecordField ρ)}
      {values : List (String × Option Value)} {r r' : ρ} :
      Fills fields values r r' →
      Fills (field :: fields) ((field.name, none) :: values) r r'

theorem readsBack_ofReader {name : String} {set : ρ → α → ρ} (h : ReadsBack read v x) (r : ρ) :
    ReadsBack ((RecordField.ofReader name read set).read r) v (set r x) := by
  intro layout indent text rest htext
  have hread := h layout indent text rest htext
  rw [RecordField.ofReader]
  simp only [hread]
  rfl

/-- A field that may be absent is there, or it leaves the record as it is. -/
theorem Fills.optional {name : String} {set : ρ → Option α → ρ} {json : α → Value}
    {fields : List (RecordField ρ)} {values : List (String × Option Value)} {x? : Option α}
    {r r' : ρ} (hread : ∀ x, x? = some x → ReadsBack read (json x) x ∧ json x ≠ .null)
    (hnone : set r none = r) (h : Fills fields values (set r x?) r') :
    Fills (.ofReader name (Json.optional read) set :: fields) ((name, x?.map json) :: values)
      r r' := by
  cases x? with
  | none =>
      rw [hnone] at h
      exact .absent h
  | some x =>
      obtain ⟨hback, hne⟩ := hread x rfl
      exact .present (readsBack_ofReader (readsBack_optional hback hne) r) h

/-- A string that may be absent is never written as null. -/
theorem Fills.optionalString {name : String} {wanted : Wanted} {set : ρ → Option String → ρ}
    {fields : List (RecordField ρ)} {values : List (String × Option Value)} {x? : Option String}
    {r r' : ρ} (hnone : set r none = r) (h : Fills fields values (set r x?) r') :
    Fills (.ofReader name (Json.optional (wantedString wanted)) set :: fields)
      ((name, x?.map .string) :: values) r r' :=
  .optional (fun s _ => ⟨readsBack_string wanted s, by simp⟩) hnone h

/-- The first field of a name is found by it. -/
theorem find?_name {fields : List (RecordField ρ)} (hnodup : (fields.map RecordField.name).Nodup)
    {field : RecordField ρ} (hmem : field ∈ fields) :
    fields.find? (·.name == field.name) = some field := by
  induction fields with
  | nil => exact absurd hmem List.not_mem_nil
  | cons first rest ih =>
      obtain ⟨hfirst, hrest⟩ := List.nodup_cons.mp hnodup
      rcases List.mem_cons.mp hmem with rfl | hmem
      · rw [List.find?_cons_of_pos (by simp)]
      · have hne : first.name ≠ field.name := fun heq =>
          hfirst (heq ▸ List.mem_map_of_mem hmem)
        rw [List.find?_cons_of_neg (by simpa using hne)]
        exact ih hrest hmem

/-- The members of a record are read back one after the other, as long as no name was read
before. -/
theorem readsBack_fields {all : List (RecordField ρ)} (hall : (all.map RecordField.name).Nodup)
    (layout : Layout) (indent : Nat) {blanks : List UInt8}
    (hblanks : ∀ b ∈ blanks, isBlank b = true) (rest : List UInt8)
    {fields : List (RecordField ρ)} {values : List (String × Option Value)} {r r' : ρ}
    (h : Fills fields values r r') :
    ∀ (fuel : Nat) (first : Bool) (seen : List String), fields.Sublist all →
      (∀ field ∈ fields, field.name ∉ seen) → (Schema.presentFields values).length ≤ fuel →
      (nextMember first (textOfMembers layout indent first (Schema.presentFields values) ++
          (blanks ++ byte '\x7d' :: rest)) >>= recordMembers all fuel seen r) = .ok (r', rest) := by
  induction h with
  | nil =>
      intro fuel first seen _ _ _
      rw [Schema.presentFields, List.filterMap_nil, textOfMembers, List.nil_append,
        nextMember_end hblanks]
      cases fuel <;> rfl
  | @absent field fields values r r' _ ih =>
      intro fuel first seen hsub hseen hfuel
      exact ih fuel first seen (List.sublist_of_cons_sublist hsub)
        (fun f hf => hseen f (List.mem_cons_of_mem _ hf)) hfuel
  | @present field fields v values r r₁ r' hback _ ih =>
      intro fuel first seen hsub hseen hfuel
      have hpresent : Schema.presentFields ((field.name, some v) :: values) =
          (field.name, v) :: Schema.presentFields values := rfl
      rw [hpresent] at hfuel ⊢
      obtain ⟨fuel, rfl⟩ : ∃ more, fuel = more + 1 := ⟨fuel - 1, by
        rw [List.length_cons] at hfuel
        omega⟩
      -- the fields behind this one have other names
      have hnames : field.name ∉ fields.map RecordField.name :=
        (List.nodup_cons.mp (hall.sublist (hsub.map RecordField.name))).1
      have hmore := ih fuel false (field.name :: seen) (List.sublist_of_cons_sublist hsub)
        (fun f hf => by
          rw [List.mem_cons, not_or]
          exact ⟨fun heq => hnames (heq ▸ List.mem_map_of_mem hf),
            hseen f (List.mem_cons_of_mem _ hf)⟩)
        (Nat.le_of_succ_le_succ hfuel)
      obtain ⟨next, hnext', hmembers⟩ := bind_eq_ok hmore
      obtain ⟨named, text, hnext, hcolon, hskip⟩ := nextMember_text field.name v
        (Schema.presentFields values) layout indent first (blanks ++ byte '\x7d' :: rest)
      have hread := hback _ _ _ _ hskip
      have hfind := find?_name hall (hsub.subset List.mem_cons_self)
      have hnew := hseen field List.mem_cons_self
      rw [hnext]
      show recordMembers all (fuel + 1) seen r (.member field.name named) = _
      rw [recordMembers]
      simp only [hfind, if_neg hnew, hcolon, hread, hnext', hmembers, bind, Except.bind]

/-- **A record is read back** if its fields have distinct names and are filled in from its
members. -/
theorem readsBack_record {name : String} {fields : List (RecordField ρ)}
    {values : List (String × Option Value)} {absent r : ρ}
    (hnames : (fields.map RecordField.name).Nodup) (h : Fills fields values absent r) :
    ReadsBack (record name (some fields) absent) (.object (Schema.presentFields values)) r := by
  intro layout indent text rest htext
  obtain ⟨blanks, hblanks, hobject⟩ := text_object (Schema.presentFields values) layout indent rest
  have hfuel := length_members_le (Schema.presentFields values) layout (indent + 1)
    (blanks ++ byte '\x7d' :: rest)
  have hmembers := readsBack_fields hnames layout (indent + 1) hblanks rest h _ true []
    (List.Sublist.refl _) (by simp) hfuel
  obtain ⟨next, hnext, hmembers⟩ := bind_eq_ok hmembers
  have hbrackets : (byte '\x7b' == byte '[') = false := by decide
  rw [record, htext, skipBlanks_text, hobject]
  simp only [beq_self_eq_true, hbrackets, Bool.false_or, if_true, hnext, hmembers, bind,
    Except.bind]
  rfl

end FieldSelection.Json
