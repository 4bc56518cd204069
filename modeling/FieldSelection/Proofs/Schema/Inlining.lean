import FieldSelection.Proofs.Schema.Validation

/-!
# Definitions in place of references

A reference stands for the fields that the schema of its name has of its own. So a definition can
be written in place of a reference to it if a field with this definition has the same fields below
it, as an object does. It can be written in place anywhere below a definition, also in the one that
is referred to, and no path shows the difference.

The two families of definitions are compared along a path. Fields go in pairs, with the same label
and schemas that are the same but for the reference, and this is kept by each step down, since what
is below a field depends on the fields that are paired and on nothing else.

A definition that is no object has other fields below it in place than it has of its own. The items
of an array take its place there, and where anything is possible there is nothing to list.
-/

namespace FieldSelection

namespace Schema

/-- Whether one schema is another one with a schema `s` in place of one reference to a name. -/
inductive Inlined (name : String) (s : Schema) : Schema → Schema → Prop where
  /-- The reference itself is replaced. -/
  | here : Inlined name s (naming name) s
  /-- It is replaced in the schema of a property. -/
  | property {y p p' : Schema} {key : String} {before after : List (String × Schema)} :
      y.properties = some (before ++ (key, p) :: after) → Inlined name s p p' →
      Inlined name s y { y with properties := some (before ++ (key, p') :: after) }
  /-- It is replaced in the schema of all other fields. -/
  | additional {y p p' : Schema} : y.additional = some p → Inlined name s p p' →
      Inlined name s y { y with additional := some p' }
  /-- It is replaced in the schema of the items. -/
  | items {y p p' : Schema} : y.items = some p → Inlined name s p p' →
      Inlined name s y { y with items := some p' }

/-- Whether two fields have the same label, and the same schema but for the reference. -/
def PairedField (name : String) (s : Schema) (field field' : Segment × Schema) : Prop :=
  field.1 = field'.1 ∧ (field.2 = field'.2 ∨ Inlined name s field.2 field'.2)

/-- Whether this is so for the fields of two lists, one by one. -/
abbrev PairedFields (name : String) (s : Schema) :
    List (Segment × Schema) → List (Segment × Schema) → Prop :=
  List.Forall₂ (PairedField name s)

variable {d d' : Dictionary Schema} {name : String} {s y y' : Schema}

theorem pairedFields_refl (fields : List (Segment × Schema)) : PairedFields name s fields fields :=
  List.forall₂_same.mpr fun _ _ => ⟨rfl, Or.inl rfl⟩

theorem pairedFields_property {p p' : Schema} {key : String} {before after : List (String × Schema)}
    (hy : y.properties = some (before ++ (key, p) :: after)) (hp : Inlined name s p p') :
    PairedFields name s y.fields
      { y with properties := some (before ++ (key, p') :: after) }.fields := by
  refine List.rel_append ?_ (pairedFields_refl _)
  rw [hy]
  simp only [Option.getD_some, namedFields, List.map_append, List.map_cons]
  exact List.rel_append (pairedFields_refl _) (.cons ⟨rfl, Or.inr hp⟩ (pairedFields_refl _))

theorem pairedFields_additional {p p' : Schema} (hy : y.additional = some p)
    (hp : Inlined name s p p') :
    PairedFields name s y.fields { y with additional := some p' }.fields := by
  refine List.rel_append (pairedFields_refl _) ?_
  rw [hy]
  exact .cons ⟨rfl, Or.inr hp⟩ .nil

/-- A schema that is not the reference itself has paired fields. -/
theorem Inlined.pairedFields (h : Inlined name s y y') (hne : y ≠ naming name) :
    PairedFields name s y.fields y'.fields := by
  cases h with
  | here => exact absurd rfl hne
  | property hy hp => exact pairedFields_property hy hp
  | additional hy hp => exact pairedFields_additional hy hp
  | items => exact pairedFields_refl _

/-! ## What is below a field -/

/-- Whether the same is below two fields but for the reference. -/
def PairedBelow (d d' : Dictionary Schema) (name : String) (s y y' : Schema) : Prop :=
  Option.Rel (PairedFields name s) (y.content.below d) (y'.content.below d')

section

variable (hnames : ∀ target, PairedFields name s (fieldsOf d target) (fieldsOf d' target))

include hnames

theorem pairedBelow_refl (y : Schema) : PairedBelow d d' name s y y := by
  rw [PairedBelow]
  cases y.content with
  | anything => exact .none
  | fields fields => exact .some (pairedFields_refl fields)
  | reference target => exact .some (hnames target)

/-- What is below a field is said by its kind, its fields and its items. -/
theorem pairedBelow_of_kind
    (hkind : kindOf y'.reference y'.type = kindOf y.reference y.type)
    (hfields : PairedFields name s y.fields y'.fields)
    (hitems : Option.Rel (PairedBelow d d' name s) y.items y'.items) :
    PairedBelow d d' name s y y' := by
  cases h : kindOf y.reference y.type with
  | error flaw =>
      rw [PairedBelow, content_of_error h, content_of_error (hkind.trans h)]
      exact .some .nil
  | ok kind =>
      cases kind with
      | reference target =>
          rw [PairedBelow, content_of_reference h, content_of_reference (hkind.trans h)]
          exact .some (hnames target)
      | array =>
          generalize hi : y.items = items at hitems
          generalize hi' : y'.items = items' at hitems
          cases hitems with
          | none =>
              rw [PairedBelow, content_of_array_without_items h hi,
                content_of_array_without_items (hkind.trans h) hi']
              exact .some .nil
          | some hbelow =>
              rw [PairedBelow, content_of_array h hi, content_of_array (hkind.trans h) hi']
              exact hbelow
      | object =>
          rw [PairedBelow, content_of_object h, content_of_object (hkind.trans h)]
          exact .some hfields
      | any =>
          rw [PairedBelow, content_of_any h, content_of_any (hkind.trans h)]
          exact .none
      | primitive =>
          rw [PairedBelow, content_of_primitive h, content_of_primitive (hkind.trans h)]
          exact .some .nil

/-- **Below a field, the reference makes no difference** if `s` has the fields there that the
reference stands for. -/
theorem Inlined.pairedBelow (hs : s.content = .fields (fieldsOf d name))
    (h : Inlined name s y y') : PairedBelow d d' name s y y' := by
  have hsame : ∀ items : Option Schema, Option.Rel (PairedBelow d d' name s) items items := by
    rintro (_ | items)
    · exact .none
    · exact .some (pairedBelow_refl hnames items)
  induction h with
  | here =>
      have hcontent : (naming name).content = .reference name := content_of_reference rfl
      rw [PairedBelow, hs, hcontent]
      exact .some (pairedFields_refl _)
  | property hy hp =>
      exact pairedBelow_of_kind hnames rfl (pairedFields_property hy hp) (hsame _)
  | additional hy hp =>
      exact pairedBelow_of_kind hnames rfl (pairedFields_additional hy hp) (hsame _)
  | items hy hp ih =>
      refine pairedBelow_of_kind hnames rfl (pairedFields_refl _) ?_
      rw [hy]
      exact .some ih

/-- **A path is followed through the one family as through the other.** -/
theorem follows_iff_of_pairedFields (hs : s.content = .fields (fieldsOf d name)) (path : Path) :
    ∀ {fields fields' : List (Segment × Schema)}, PairedFields name s fields fields' →
      (follows d fields path = true ↔ follows d' fields' path = true) := by
  induction path with
  | nil =>
      intro fields fields' _
      rw [follows, follows]
  | cons segment rest ih =>
      intro fields fields' hfields
      rw [follows, follows, List.any_eq_true, List.any_eq_true]
      refine exists_mem_iff_of_forall₂ hfields fun field field' hfield => ?_
      obtain ⟨hlabel, hschema⟩ := hfield
      have hbelow : PairedBelow d d' name s field.2 field'.2 := by
        rcases hschema with heq | hinlined
        · rw [heq]
          exact pairedBelow_refl hnames _
        · exact hinlined.pairedBelow hnames hs
      rw [PairedBelow, below_content, below_content] at hbelow
      rw [Bool.and_eq_true, Bool.and_eq_true, hlabel]
      refine and_congr_right fun _ => ?_
      generalize field.2.fieldsBelow d = below at hbelow
      generalize field'.2.fieldsBelow d' = below' at hbelow
      cases hbelow with
      | none => exact Iff.rfl
      | some hpaired => exact ih hpaired

end

/-! ## Replacing one reference in a family -/

section

variable {place : String} {x x' : Schema}

theorem pairedFields_fieldsOf (hx : d.get? place = some x) (hne : x ≠ naming name)
    (hinlined : Inlined name s x x') (target : String) :
    PairedFields name s (fieldsOf d target) (fieldsOf (d.insert place x') target) := by
  rw [fieldsOf, fieldsOf, Dictionary.get?_insert]
  by_cases htarget : target = place
  · rw [if_pos htarget, htarget, hx]
    exact hinlined.pairedFields hne
  · rw [if_neg htarget]
    exact pairedFields_refl _

theorem Inlined.hasDistinctNames (h : Inlined name s y y') (hs : s.HasDistinctNames)
    (hy : y.HasDistinctNames) : y'.HasDistinctNames := by
  induction h with
  | here => exact hs
  | property hproperties _ ih =>
      obtain ⟨hnamed, hothers⟩ := hasDistinctNames_iff.mp hy
      obtain ⟨hnodup, hbelow⟩ := hnamed _ hproperties
      rw [haveDistinctNames_iff, List.forall_mem_append, List.forall_mem_cons] at hbelow
      refine hasDistinctNames_iff.mpr ⟨?_, hothers⟩
      rintro _ ⟨⟩
      refine ⟨by simpa using hnodup, ?_⟩
      rw [haveDistinctNames_iff, List.forall_mem_append, List.forall_mem_cons]
      exact ⟨hbelow.1, ih hbelow.2.1, hbelow.2.2⟩
  | additional hadditional _ ih =>
      obtain ⟨hnamed, hothers, hitems⟩ := hasDistinctNames_iff.mp hy
      refine hasDistinctNames_iff.mpr ⟨hnamed, ?_, hitems⟩
      rintro _ ⟨⟩
      exact ih (hothers _ hadditional)
  | items hitems _ ih =>
      obtain ⟨hnamed, hothers, hbelow⟩ := hasDistinctNames_iff.mp hy
      refine hasDistinctNames_iff.mpr ⟨hnamed, hothers, ?_⟩
      rintro _ ⟨⟩
      exact ih (hbelow _ hitems)

theorem DistinctNames.insert (hd : DistinctNames d) (hx : x'.HasDistinctNames) :
    DistinctNames (d.insert place x') := by
  intro target t ht
  rw [Dictionary.get?_insert] at ht
  split at ht
  · cases ht
    exact hx
  · exact hd target t ht

end

end Schema

namespace Repository

open Schema

variable {d : Dictionary Schema} {place name asked : String} {s x x' : Schema}
  {r r' : Repository} {t t' : Tree}

/-- A schema can be put in place of a reference if it has the fields that the definition has of its
own. -/
theorem contains_eq_of_content (hd : DistinctNames d) (hx : d.get? place = some x)
    (hne : x ≠ naming name) (hinlined : Inlined name s x x') (hs : s.HasDistinctNames)
    (hown : s.content = .fields (fieldsOf d name)) (hr : r.Reachable d)
    (hr' : r'.Reachable (d.insert place x')) (ht : (r.tree asked).1 = .ok t)
    (ht' : (r'.tree asked).1 = .ok t') (path : Path) :
    t.contains (.ofPath path) = t'.contains (.ofPath path) := by
  have hd' : DistinctNames (d.insert place x') :=
    hd.insert (hinlined.hasDistinctNames hs (hd place x hx))
  have hstands := ((hr.sound hd).tree hd asked).2 t ht
  have hstands' := ((hr'.sound hd').tree hd' asked).2 t' ht'
  have hnames := pairedFields_fieldsOf hx hne hinlined
  rw [Bool.eq_iff_iff, hstands.contains_iff, hstands'.contains_iff]
  exact follows_iff_of_pairedFields hnames hown path (hnames asked)

/-- **A reference stands for an object**: whatever the definition is, an object with its properties
and its additional fields can be written in place of a reference to it. -/
theorem contains_inlined_object (hd : DistinctNames d) (hx : d.get? place = some x)
    (hs : d.get? name = some s) (hne : x ≠ naming name)
    (hinlined : Inlined name { s with type := some "object", reference := none } x x')
    (hr : r.Reachable d) (hr' : r'.Reachable (d.insert place x'))
    (ht : (r.tree asked).1 = .ok t) (ht' : (r'.tree asked).1 = .ok t') (path : Path) :
    t.contains (.ofPath path) = t'.contains (.ofPath path) := by
  have hfields : fieldsOf d name = s.fields := by rw [fieldsOf, hs]; rfl
  have hnames := hasDistinctNames_iff.mp (hd name s hs)
  have hobject : HasDistinctNames { s with type := some "object", reference := none } :=
    hasDistinctNames_iff.mpr hnames
  refine contains_eq_of_content hd hx hne hinlined hobject ?_ hr hr' ht ht' path
  rw [hfields, content_of_object rfl]
  rfl

/-- **A definition can be written in place of a reference to it** if its content is what it has of
its own, as that of an object is. Then the trees of both families contain the same paths, for each
name, below the reference and everywhere else. -/
theorem contains_inlined (hd : DistinctNames d) (hx : d.get? place = some x)
    (hs : d.get? name = some s) (hown : s.content = .fields s.fields) (hne : x ≠ naming name)
    (hinlined : Inlined name s x x') (hr : r.Reachable d)
    (hr' : r'.Reachable (d.insert place x')) (ht : (r.tree asked).1 = .ok t)
    (ht' : (r'.tree asked).1 = .ok t') (path : Path) :
    t.contains (.ofPath path) = t'.contains (.ofPath path) := by
  have hfields : fieldsOf d name = s.fields := by rw [fieldsOf, hs]; rfl
  exact contains_eq_of_content hd hx hne hinlined (hd name s hs) (hfields ▸ hown) hr hr' ht ht' path

/-- A book, which can have a sequel. -/
def book : Schema :=
  { type := some "object"
    properties := some [
      ("author", { type := some "string" }),
      ("sequel", naming "Book")]
    additional := some (naming "Note") }

/-- A book that says in place what its sequel is. The sequel of that refers to this one. -/
def bookInPlace : Schema :=
  { book with properties := some [("author", { type := some "string" }), ("sequel", book)] }

/-- A library of books with notes. -/
def library : Dictionary Schema :=
  [("Book", book), ("Note", { properties := some [("text", { type := some "string" })] })]

theorem distinctNames_library : DistinctNames library := by
  intro name s h
  have hmem := Dictionary.mem_of_get? h
  simp only [library, List.mem_cons, Prod.mk.injEq, List.not_mem_nil, or_false] at hmem
  rcases hmem with ⟨rfl, rfl⟩ | ⟨rfl, rfl⟩ <;>
    simp [book, naming, HasDistinctNames, HaveDistinctNames]

/-- What the tree of this name contains, if there is one. -/
def containsIn? (d : Dictionary Schema) (name : String) (path : Path) : Option Bool :=
  match (tree { definitions := d } name).1 with
  | .ok t => some (t.contains (.ofPath path))
  | .error _ => none

/-- The trees differ when a book is written in place of a reference in its own definition, but both
contain the author of a sequel of a sequel and nothing below an author. -/
theorem contains_inlined_book :
    ∃ t t' : Tree, (tree { definitions := library } "Book").1 = .ok t ∧
      (tree { definitions := library.insert "Book" bookInPlace } "Book").1 = .ok t' ∧
      (t.size, t'.size) = (6, 9) ∧
      (∀ path, t.contains (.ofPath path) = t'.contains (.ofPath path)) ∧
      t'.contains (.ofPath [.name "sequel", .name "sequel", .name "author"]) = true ∧
      t'.contains (.ofPath [.name "sequel", .name "author", .name "sequel"]) = false := by
  have hsize : (tree { definitions := library } "Book").1.map Tree.size = .ok 6 := by
    decide +kernel
  have hsize' : (tree { definitions := library.insert "Book" bookInPlace } "Book").1.map
      Tree.size = .ok 9 := by decide +kernel
  have hproperties : book.properties =
      some ([("author", { type := some "string" })] ++ ("sequel", naming "Book") :: []) := rfl
  have hinlined : Inlined "Book" book book bookInPlace := .property hproperties .here
  have hauthor : containsIn? library "Book" [.name "sequel", .name "sequel", .name "author"] =
      some true := by decide +kernel
  have hbelow : containsIn? library "Book" [.name "sequel", .name "author", .name "sequel"] =
      some false := by decide +kernel
  cases ht : (tree { definitions := library } "Book").1 with
  | error why => rw [ht] at hsize; exact absurd hsize (by simp [Except.map])
  | ok t =>
      cases ht' : (tree { definitions := library.insert "Book" bookInPlace } "Book").1 with
      | error why => rw [ht'] at hsize'; exact absurd hsize' (by simp [Except.map])
      | ok t' =>
          have hsame := contains_inlined distinctNames_library (s := book) rfl rfl
            (content_of_object rfl) (by simp [book, naming]) hinlined .fresh .fresh ht ht'
          rw [containsIn?, ht] at hauthor hbelow
          rw [ht] at hsize
          rw [ht'] at hsize'
          refine ⟨t, t', rfl, rfl, ?_, hsame, ?_, ?_⟩
          · rw [Except.ok.inj hsize, Except.ok.inj hsize']
          · rw [← hsame]
            exact Option.some.inj hauthor
          · rw [← hsame]
            exact Option.some.inj hbelow

/-- A thing with one field. -/
def thing (field s : Schema) : Dictionary Schema :=
  [("Tag", { type := some "object", properties := some [("name", { type := some "string" })] }),
    ("Target", s), ("Thing", { properties := some [("field", field)] })]

/-- Other definitions than objects have other fields in place. Of an array, of anything in either
form and of a reference, a reference has none, and of a primitive that has properties it has
these. -/
theorem contains_inlined_kinds :
    let path : Path := [.name "field", .name "name"]
    let list : Schema := { type := some "array", items := some (naming "Tag") }
    let named : Option (List (String × Schema)) := some [("name", { type := some "string" })]
    (∀ s ∈ [list, { type := some "any" }, {}, naming "Tag"],
        containsIn? (thing (naming "Target") s) "Thing" path = some false ∧
          containsIn? (thing s s) "Thing" path = some true) ∧
      ∀ s ∈ [({ type := some "string", properties := named } : Schema)],
        containsIn? (thing (naming "Target") s) "Thing" path = some true ∧
          containsIn? (thing s s) "Thing" path = some false := by
  decide +kernel

end Repository

end FieldSelection
