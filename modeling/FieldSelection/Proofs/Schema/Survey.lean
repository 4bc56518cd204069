import FieldSelection.Proofs.Schema.Walk
import FieldSelection.Schema.Repository
import Mathlib.Data.Finset.Insert
import Mathlib.Data.Finset.Lattice.Lemmas

/-!
# Which schemas are entered

To compile fields is to go through their schemas in order, and to enter a schema where one of
them refers to it for the first time. What comes of that is the names that are known then, or
the first error that is met. It can be said without the graph, from the definitions and the
names that were known at first.

Names that are known are passed over. So more of them make a difference only if something would
have been met behind them, an error or a name that is not known itself. If there is no such
thing behind the names that were known before, then these make no difference at all.
-/

namespace FieldSelection.Schema

/-- What a field leads to: the names that are known then, and the fields to go through next. -/
def survey (d : Dictionary Schema) (known : Finset String) (label : Segment) (s : Schema) :
    Except SchemaError (Finset String × List (Segment × Schema)) :=
  match kindOf s.reference s.type with
  | .error flaw => .error (.invalidSchema label flaw)
  | .ok (.reference target) =>
    if target ∈ known then .ok (known, [])
    else
      match d.get? target with
      | some s => .ok (insert target known, s.fields)
      | none => .error (.unknownSchema target)
  | .ok .array =>
    match s.items with
    | some items => .ok (known, [(label, items)])
    | none => .error (.invalidSchema label .arrayWithoutItems)
  | .ok .object => .ok (known, s.fields)
  | .ok .any => .ok (known, [])
  | .ok .primitive => .ok (known, [])

/-- What comes of going through fields: the names that are known at the end, or an error. -/
inductive Surveys (d : Dictionary Schema) :
    Finset String → List (Segment × Schema) → Except SchemaError (Finset String) → Prop where
  /-- No fields are left. -/
  | done {known : Finset String} : Surveys d known [] (.ok known)
  /-- The first field is wrong. -/
  | stop {known : Finset String} {label : Segment} {s : Schema}
      {rest : List (Segment × Schema)} {why : SchemaError} :
      survey d known label s = .error why → Surveys d known ((label, s) :: rest) (.error why)
  /-- What the first field leads to comes before the others. -/
  | step {known known' : Finset String} {label : Segment} {s : Schema}
      {below rest : List (Segment × Schema)} {outcome : Except SchemaError (Finset String)} :
      survey d known label s = .ok (known', below) → Surveys d known' (below ++ rest) outcome →
      Surveys d known ((label, s) :: rest) outcome

/-- The schema that refers to another one. -/
def naming (name : String) : Schema := { reference := some name }

variable {d : Dictionary Schema} {known known' more : Finset String} {label : Segment}
  {s : Schema} {fields rest : List (Segment × Schema)}
  {outcome outcome' : Except SchemaError (Finset String)} {name : String}

/-! ## One field -/

theorem survey_of_reference (h : kindOf s.reference s.type = .ok (.reference name)) :
    survey d known label s = survey d known .wildcard (naming name) := by
  rw [survey, h]
  rfl

theorem survey_of_known (h : kindOf s.reference s.type = .ok (.reference name))
    (hname : name ∈ known) : survey d known label s = .ok (known, []) := by
  rw [survey, h]
  exact if_pos hname

theorem survey_of_unknown {s' : Schema} (h : kindOf s.reference s.type = .ok (.reference name))
    (hname : name ∉ known) (hs' : d.get? name = some s') :
    survey d known label s = .ok (insert name known, s'.fields) := by
  rw [survey, h]
  dsimp only
  rw [if_neg hname, hs']

theorem survey_of_missing (h : kindOf s.reference s.type = .ok (.reference name))
    (hname : name ∉ known) (hs' : d.get? name = none) :
    survey d known label s = .error (.unknownSchema name) := by
  rw [survey, h]
  dsimp only
  rw [if_neg hname, hs']

/-- What a field leads to depends on the known names only if its schema is a reference. -/
theorem reference_or_survey_eq (d : Dictionary Schema) (label : Segment) (s : Schema) :
    (∃ name, kindOf s.reference s.type = .ok (.reference name)) ∨
      ∃ below : Except SchemaError (List (Segment × Schema)),
        ∀ known, survey d known label s = below.map fun below => (known, below) := by
  cases hkind : kindOf s.reference s.type with
  | error flaw => exact Or.inr ⟨.error _, fun known => by rw [survey, hkind]; rfl⟩
  | ok kind =>
      cases kind with
      | reference name => exact Or.inl ⟨name, rfl⟩
      | array =>
          cases hitems : s.items with
          | none => exact Or.inr ⟨.error _, fun known => by rw [survey, hkind, hitems]; rfl⟩
          | some items => exact Or.inr ⟨.ok _, fun known => by rw [survey, hkind, hitems]; rfl⟩
      | object => exact Or.inr ⟨.ok _, fun known => by rw [survey, hkind]; rfl⟩
      | any => exact Or.inr ⟨.ok _, fun known => by rw [survey, hkind]; rfl⟩
      | primitive => exact Or.inr ⟨.ok _, fun known => by rw [survey, hkind]; rfl⟩

/-- A field that is right leaves the names known, or adds the one that it refers to. -/
theorem survey_eq_ok (h : survey d known label s = .ok (known', fields)) :
    (known' = known ∧ ∀ more, known ⊆ more → survey d more label s = .ok (more, fields)) ∨
      ∃ name s', kindOf s.reference s.type = .ok (.reference name) ∧ name ∉ known ∧
        d.get? name = some s' ∧ known' = insert name known ∧ fields = s'.fields := by
  rcases reference_or_survey_eq d label s with ⟨name, hkind⟩ | ⟨below, hbelow⟩
  · by_cases hname : name ∈ known
    · rw [survey_of_known hkind hname] at h
      cases h
      exact Or.inl ⟨rfl, fun more hsub => survey_of_known hkind (hsub hname)⟩
    · cases hs' : d.get? name with
      | none =>
          rw [survey_of_missing hkind hname hs'] at h
          exact absurd h (by simp)
      | some s' =>
          rw [survey_of_unknown hkind hname hs'] at h
          cases h
          exact Or.inr ⟨name, s', hkind, hname, hs', rfl, rfl⟩
  · rw [hbelow] at h
    cases below with
    | error why => exact absurd h (by simp [Except.map])
    | ok below =>
        cases h
        exact Or.inl ⟨rfl, fun more _ => hbelow more⟩

/-- A field that is wrong is so whatever is known, or refers to a schema that is missing. -/
theorem survey_eq_error {why : SchemaError} (h : survey d known label s = .error why) :
    (∀ more, survey d more label s = .error why) ∨
      ∃ name, kindOf s.reference s.type = .ok (.reference name) ∧ name ∉ known ∧
        d.get? name = none ∧ why = .unknownSchema name := by
  rcases reference_or_survey_eq d label s with ⟨name, hkind⟩ | ⟨below, hbelow⟩
  · by_cases hname : name ∈ known
    · rw [survey_of_known hkind hname] at h
      exact absurd h (by simp)
    · cases hs' : d.get? name with
      | some s' =>
          rw [survey_of_unknown hkind hname hs'] at h
          exact absurd h (by simp)
      | none =>
          rw [survey_of_missing hkind hname hs'] at h
          exact Or.inr ⟨name, hkind, hname, hs', (Except.error.inj h).symm⟩
  · rw [hbelow] at h
    cases below with
    | ok below => exact absurd h (by simp [Except.map])
    | error why' => exact Or.inl fun more => (hbelow more).trans h

/-! ## Many fields -/

namespace Surveys

/-- There is only one thing that can come of it. -/
theorem unique (h : Surveys d known fields outcome) (h' : Surveys d known fields outcome') :
    outcome = outcome' := by
  induction h generalizing outcome' with
  | done => cases h'; rfl
  | stop hs =>
      cases h' with
      | stop hs' => exact congrArg Except.error (Except.error.inj (hs.symm.trans hs'))
      | step hs' _ => exact absurd (hs.symm.trans hs') (by simp)
  | step hs _ ih =>
      cases h' with
      | stop hs' => exact absurd (hs.symm.trans hs') (by simp)
      | step hs' h' =>
          obtain ⟨rfl, rfl⟩ := Prod.mk.inj (Except.ok.inj (hs.symm.trans hs'))
          exact ih h'

/-- Of a field alone comes what it leads to. -/
theorem congr_survey {label' : Segment} {s' : Schema} (h : Surveys d known [(label, s)] outcome)
    (heq : survey d known label' s' = survey d known label s) :
    Surveys d known [(label', s')] outcome := by
  cases h with
  | stop hs => exact .stop (heq.trans hs)
  | step hs h => exact .step (heq.trans hs) h

/-- Other fields come after those that are right. -/
theorem append (h : Surveys d known fields (.ok known')) (hrest : Surveys d known' rest outcome) :
    Surveys d known (fields ++ rest) outcome := by
  generalize hout : Except.ok known' = out at h
  induction h with
  | done =>
      cases hout
      exact hrest
  | stop => exact absurd hout (by simp)
  | step hs _ ih =>
      rw [List.cons_append]
      refine .step hs ?_
      rw [← List.append_assoc]
      exact ih hout

/-- They play no part after those that are wrong. -/
theorem append_error {why : SchemaError} (h : Surveys d known fields (.error why))
    (rest : List (Segment × Schema)) : Surveys d known (fields ++ rest) (.error why) := by
  generalize hout : Except.error why = out at h ⊢
  induction h with
  | done => exact absurd hout (by simp)
  | stop hs => exact .stop hs
  | step hs _ ih =>
      rw [List.cons_append]
      refine .step hs ?_
      rw [← List.append_assoc]
      exact ih hout

/-- What comes of fields in front of others. -/
theorem split (h : Surveys d known (fields ++ rest) outcome) :
    (∃ known', Surveys d known fields (.ok known') ∧ Surveys d known' rest outcome) ∨
      ∃ why, outcome = .error why ∧ Surveys d known fields (.error why) := by
  generalize hall : fields ++ rest = all at h
  induction h generalizing fields with
  | done =>
      obtain ⟨rfl, rfl⟩ := List.append_eq_nil_iff.mp hall
      exact Or.inl ⟨_, .done, .done⟩
  | stop hs =>
      cases fields with
      | nil =>
          rw [List.nil_append] at hall
          exact Or.inl ⟨_, .done, hall ▸ .stop hs⟩
      | cons field fields =>
          obtain ⟨rfl, _⟩ := List.cons.inj hall
          exact Or.inr ⟨_, rfl, .stop hs⟩
  | @step known known' label s below rest' outcome hs h ih =>
      cases fields with
      | nil =>
          rw [List.nil_append] at hall
          exact Or.inl ⟨_, .done, hall ▸ .step hs h⟩
      | cons field fields =>
          obtain ⟨rfl, rfl⟩ := List.cons.inj hall
          have hassoc : below ++ fields ++ rest = below ++ (fields ++ rest) :=
            List.append_assoc _ _ _
          rcases ih hassoc with ⟨known'', hfields, hrest⟩ | ⟨why, hout, hfields⟩
          · exact Or.inl ⟨known'', .step hs hfields, hrest⟩
          · exact Or.inr ⟨why, hout, .step hs hfields⟩

/-- No name is forgotten. -/
theorem subset (h : Surveys d known fields (.ok known')) : known ⊆ known' := by
  generalize hout : Except.ok known' = out at h
  induction h with
  | done =>
      cases hout
      exact Finset.Subset.refl _
  | stop => exact absurd hout (by simp)
  | step hs _ ih =>
      refine Finset.Subset.trans ?_ (ih hout)
      rcases survey_eq_ok hs with ⟨rfl, _⟩ | ⟨name, _, _, _, _, rfl, _⟩
      · exact Finset.Subset.refl _
      · exact Finset.subset_insert name _

/-- Fields behind which all names are known lead to nothing new, whatever else is known. -/
theorem mono (h : Surveys d known fields (.ok known)) (hsub : known ⊆ more) :
    Surveys d more fields (.ok more) := by
  generalize hout : Except.ok known = out at h
  induction h with
  | done => exact .done
  | stop => exact absurd hout (by simp)
  | step hs h ih =>
      cases hout
      rcases survey_eq_ok hs with ⟨rfl, hmore⟩ | ⟨name, _, _, hname, _, rfl, _⟩
      · exact .step (hmore more hsub) (ih hsub rfl)
      · -- a name that is entered would be known at the end, and that is where it began
        exact absurd (h.subset (Finset.mem_insert_self name _)) hname

/-- Fields that lead to nothing new can be left out. -/
theorem of_append (h : Surveys d known (fields ++ rest) outcome)
    (hfields : Surveys d known fields (.ok known)) : Surveys d known rest outcome := by
  rcases h.split with ⟨known', hfields', hrest⟩ | ⟨why, _, hfields'⟩
  · cases hfields.unique hfields'
    exact hrest
  · exact absurd (hfields.unique hfields') (by simp)

end Surveys

/-! ## What is known before -/

/-- Whether there is nothing to be met behind a name: no error, and no name that is unknown. -/
def Settled (d : Dictionary Schema) (known : Finset String) (name : String) : Prop :=
  ∃ s, d.get? name = some s ∧ Surveys d known s.fields (.ok known)

/-- Whether this is so for all names that are known. -/
def Complete (d : Dictionary Schema) (known : Finset String) : Prop :=
  ∀ name ∈ known, Settled d known name

theorem Settled.mono (h : Settled d known name) (hsub : known ⊆ more) : Settled d more name := by
  obtain ⟨s, hs, hfields⟩ := h
  exact ⟨s, hs, hfields.mono hsub⟩

theorem complete_empty (d : Dictionary Schema) : Complete d ∅ :=
  fun name hname => absurd hname (Finset.notMem_empty name)

/-- When all fields were gone through, there is nothing more to be met behind them, nor behind
the names that were entered. -/
theorem Surveys.settled (h : Surveys d known fields (.ok known')) :
    Surveys d known' fields (.ok known') ∧
      ∀ name ∈ known', name ∈ known ∨ Settled d known' name := by
  generalize hout : Except.ok known' = out at h
  induction h with
  | done =>
      cases hout
      exact ⟨.done, fun name hname => Or.inl hname⟩
  | stop => exact absurd hout (by simp)
  | step hs h ih =>
      obtain ⟨hall, hnew⟩ := ih hout
      cases hout
      rcases survey_eq_ok hs with ⟨rfl, hmore⟩ | ⟨name, s', hkind, _, hs', rfl, rfl⟩
      · exact ⟨.step (hmore known' h.subset) hall, hnew⟩
      · have hknown : name ∈ known' := h.subset (Finset.mem_insert_self name _)
        -- the fields of the schema that was entered came first, and they led to nothing new
        obtain ⟨known'', hbelow, hrest⟩ | ⟨why, herror, _⟩ := hall.split
        · have heq : known'' = known' := Finset.Subset.antisymm hrest.subset hbelow.subset
          subst heq
          refine ⟨.step (survey_of_known hkind hknown) hrest, fun name' hname' => ?_⟩
          rcases hnew name' hname' with hbefore | hsettled
          · rcases Finset.mem_insert.mp hbefore with rfl | hbefore
            · exact Or.inr ⟨s', hs', hbelow⟩
            · exact Or.inl hbefore
          · exact Or.inr hsettled
        · exact absurd herror (by simp)

/-- Names stay complete when fields are gone through. -/
theorem Complete.of_surveys (hc : Complete d known) (h : Surveys d known fields (.ok known')) :
    Complete d known' := by
  intro name hname
  rcases h.settled.2 name hname with hbefore | hsettled
  · exact (hc name hbefore).mono h.subset
  · exact hsettled

/-- **Names that are complete make no difference.** The same comes of it whether they are known
from the start or not. -/
theorem Surveys.union (h : Surveys d known fields outcome) (hc : Complete d more) :
    Surveys d (known ∪ more) fields (outcome.map (· ∪ more)) := by
  induction h with
  | done => exact .done
  | stop hs =>
      rcases survey_eq_error hs with hmore | ⟨name, hkind, hname, hs', rfl⟩
      · exact .stop (hmore _)
      · -- a name that is complete has a schema
        have hmem : name ∉ more := by
          intro hmem
          obtain ⟨s', hsome, _⟩ := hc name hmem
          exact absurd (hs'.symm.trans hsome) (by simp)
        exact .stop (survey_of_missing hkind (by simp [hname, hmem]) hs')
  | step hs h ih =>
      rcases survey_eq_ok hs with ⟨rfl, hmore⟩ | ⟨name, s', hkind, hname, hs', rfl, rfl⟩
      · exact .step (hmore _ Finset.subset_union_left) ih
      · by_cases hmem : name ∈ more
        · -- it is passed over, and so are its fields
          rw [Finset.insert_union, Finset.insert_eq_self.mpr (Finset.mem_union_right _ hmem)] at ih
          obtain ⟨s'', hs'', hfields⟩ := hc name hmem
          cases hs'.symm.trans hs''
          have hrest := ih.of_append (hfields.mono Finset.subset_union_right)
          exact .step (survey_of_known hkind (Finset.mem_union_right _ hmem)) hrest
        · rw [Finset.insert_union] at ih
          exact .step (survey_of_unknown hkind (by simp [hname, hmem]) hs') ih

end FieldSelection.Schema
