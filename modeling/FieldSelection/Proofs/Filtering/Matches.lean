import FieldSelection.Proofs.Context.Place
import FieldSelection.Proofs.Filtering.Forwarding

/-!
# What counts as a match

The filter counts while it reads, by a look at the innermost open container. Here the same count
is made of the whole document: its values are listed, each with the names that lead to it and
those of the containers around it, and what the tree keeps at each place is found by the names
alone. The matches are the largest parts that are kept: the containers that are kept as a whole
and the scalars that are written, unless they lie within a container that is kept as a whole.

Two facts make the count of the filter come out the same. Below a container that is kept as a
whole everything lies within it, so nothing more is counted there. And where no container around
a value is kept as a whole, the value is counted for itself.
-/

namespace FieldSelection

open Json Filtering

/-! ## The values within a document -/

namespace Json

/-- A value within a document. -/
structure Occurrence where
  /-- The names that lead to the value. -/
  names : List String
  /-- The names that lead to each of the containers around it, the innermost first. -/
  around : List (List String)
  /-- The value. -/
  value : Value

namespace Value

mutual

/-- A value at a place and all values within it, in document order. -/
def occurrences (names : List String) (around : List (List String)) : Value → List Occurrence
  | .array items =>
    ⟨names, around, .array items⟩ :: occurrencesOfItems names (names :: around) items
  | .object members =>
    ⟨names, around, .object members⟩ :: occurrencesOfMembers names (names :: around) members
  | scalar => [⟨names, around, scalar⟩]

/-- The elements of an array and all values within them. -/
def occurrencesOfItems (names : List String) (around : List (List String)) :
    List Value → List Occurrence
  | [] => []
  | item :: rest => item.occurrences names around ++ occurrencesOfItems names around rest

/-- The values of the fields of an object and all values within them. -/
def occurrencesOfMembers (names : List String) (around : List (List String)) :
    List (String × Value) → List Occurrence
  | [] => []
  | (name, value) :: rest =>
    value.occurrences (names ++ [name]) around ++ occurrencesOfMembers names around rest

end

theorem occurrences_of_isScalar {v : Value} (h : v.isScalar = true) (names : List String)
    (around : List (List String)) : v.occurrences names around = [⟨names, around, v⟩] := by
  cases v with
  | array | object => exact absurd h (by simp [isScalar])
  | null | bool | number | string => rfl

mutual

/-- What is around a value is around all values within it. -/
theorem around_subset : ∀ (v : Value) {names : List String} {around : List (List String)}
    {o : Occurrence}, o ∈ v.occurrences names around → around ⊆ o.around
  | .array items, names, around, o, h => by
      rw [occurrences, List.mem_cons] at h
      cases h with
      | inl heq => rw [heq]; exact List.Subset.refl _
      | inr hitem =>
          exact List.Subset.trans (List.subset_cons_self _ _) (around_subset_items items hitem)
  | .object members, names, around, o, h => by
      rw [occurrences, List.mem_cons] at h
      cases h with
      | inl heq => rw [heq]; exact List.Subset.refl _
      | inr hmember =>
          exact List.Subset.trans (List.subset_cons_self _ _)
            (around_subset_members members hmember)
  | .null, _, _, _, h | .bool _, _, _, _, h | .number _, _, _, _, h | .string _, _, _, _, h => by
      rw [occurrences_of_isScalar rfl, List.mem_singleton] at h
      rw [h]
      exact List.Subset.refl _

theorem around_subset_items : ∀ (items : List Value) {names : List String}
    {around : List (List String)} {o : Occurrence},
    o ∈ occurrencesOfItems names around items → around ⊆ o.around
  | [], _, _, _, h => absurd h List.not_mem_nil
  | item :: rest, names, around, o, h => by
      rw [occurrencesOfItems, List.mem_append] at h
      cases h with
      | inl hitem => exact around_subset item hitem
      | inr hrest => exact around_subset_items rest hrest

theorem around_subset_members : ∀ (members : List (String × Value)) {names : List String}
    {around : List (List String)} {o : Occurrence},
    o ∈ occurrencesOfMembers names around members → around ⊆ o.around
  | [], _, _, _, h => absurd h List.not_mem_nil
  | (_, value) :: rest, names, around, o, h => by
      rw [occurrencesOfMembers, List.mem_append] at h
      cases h with
      | inl hvalue => exact around_subset value hvalue
      | inr hrest => exact around_subset_members rest hrest

end

end Value

end Json

/-! ## What is kept of them -/

namespace Tree

variable (t : Tree)

/-- Whether a value is a scalar that is written: it is the whole document, or the context of its
place keeps it. -/
def writesScalar (o : Occurrence) : Bool :=
  o.value.isScalar &&
    (o.around.isEmpty || (t.contextAt o.names).any (Context.keepsScalar t.graph))

/-- Whether a value is a container that is kept as a whole. -/
def keepsWhole (o : Occurrence) : Bool :=
  !o.value.isScalar && t.contextAt o.names == some .all

/-- Whether a value lies within a container that is kept as a whole. -/
def isWithinWhole (o : Occurrence) : Bool :=
  o.around.any fun names => t.contextAt names == some .all

/-- How many of these values are the largest parts that are kept. -/
def largestAmong (os : List Occurrence) : Nat :=
  os.countP (fun o => t.writesScalar o && !t.isWithinWhole o) +
    os.countP fun o => t.keepsWhole o && !t.isWithinWhole o

end Tree

namespace Tree

variable {t : Tree} {os : List Occurrence} {o : Occurrence}

theorem largestAmong_append (xs ys : List Occurrence) :
    t.largestAmong (xs ++ ys) = t.largestAmong xs + t.largestAmong ys := by
  rw [largestAmong, largestAmong, largestAmong, List.countP_append, List.countP_append]
  omega

/-- Within a container that is kept as a whole there are no larger parts. -/
theorem largestAmong_of_within (h : ∀ o ∈ os, t.isWithinWhole o = true) :
    t.largestAmong os = 0 := by
  have hnone : ∀ p : Occurrence → Bool, os.countP (fun o => p o && !t.isWithinWhole o) = 0 := by
    intro p
    rw [List.countP_eq_zero]
    intro o ho
    simp [h o ho]
  rw [largestAmong, hnone, hnone]

/-- A container counts for itself if it is kept as a whole, and otherwise for what is in it. -/
theorem largestAmong_container {v : Value} {names : List String} {around : List (List String)}
    {n : Nat} (hv : v.isScalar = false) (hout : t.isWithinWhole ⟨names, around, v⟩ = false)
    (hwithin : ∀ o ∈ os, names ∈ o.around)
    (hn : t.contextAt names ≠ some .all → t.largestAmong os = n) :
    t.largestAmong (⟨names, around, v⟩ :: os) =
      if t.contextAt names = some .all then 1 else n := by
  have hscalar : t.writesScalar ⟨names, around, v⟩ = false := by
    rw [writesScalar, hv, Bool.false_and]
  have hcons : t.largestAmong (⟨names, around, v⟩ :: os) =
      t.largestAmong os + if t.contextAt names = some .all then 1 else 0 := by
    rw [largestAmong, largestAmong, List.countP_cons, List.countP_cons]
    by_cases hall : t.contextAt names = some .all
    · simp [hscalar, hout, keepsWhole, hv, hall, Nat.add_assoc]
    · simp [hscalar, keepsWhole, hall]
  rw [hcons]
  by_cases hall : t.contextAt names = some .all
  · have hzero : t.largestAmong os = 0 := by
      refine largestAmong_of_within fun o ho => ?_
      exact List.any_eq_true.mpr ⟨names, hwithin o ho, beq_iff_eq.mpr hall⟩
    rw [hzero, if_pos hall, if_pos hall]
  · rw [hn hall, if_neg hall, if_neg hall, Nat.add_zero]

/-- No container around a value is kept as a whole. -/
def Outside (t : Tree) (around : List (List String)) : Prop :=
  ∀ names ∈ around, t.contextAt names ≠ some .all

theorem Outside.isWithinWhole_eq {names : List String} {around : List (List String)}
    (h : t.Outside around) (v : Value) : t.isWithinWhole ⟨names, around, v⟩ = false := by
  rw [isWithinWhole, List.any_eq_false]
  intro names hnames
  simp [h names hnames]

theorem Outside.cons {names : List String} {around : List (List String)} (h : t.Outside around)
    (hnot : t.contextAt names ≠ some .all) : t.Outside (names :: around) := by
  intro names' hnames
  cases List.mem_cons.mp hnames with
  | inl heq => rw [heq]; exact hnot
  | inr hmem => exact h names' hmem

mutual

/-- **Outside of what is kept as a whole, the largest parts of a value are its matches.** -/
theorem largestAmong_value : ∀ (v : Value) {names : List String} {around : List (List String)},
    (v.isScalar = true → around ≠ []) → t.Outside around →
    t.largestAmong (v.occurrences names around) = matchedOf t (t.contextAt names) v
  | .array items, names, around, _, hout => by
      rw [Value.occurrences, matchedOf_array]
      refine largestAmong_container rfl (hout.isWithinWhole_eq _) (fun o ho => ?_) fun hnot => ?_
      · exact Value.around_subset_items items ho List.mem_cons_self
      · exact largestAmong_items items (hout.cons hnot)
  | .object members, names, around, _, hout => by
      rw [Value.occurrences, matchedOf_object]
      refine largestAmong_container rfl (hout.isWithinWhole_eq _) (fun o ho => ?_) fun hnot => ?_
      · exact Value.around_subset_members members ho List.mem_cons_self
      · exact largestAmong_members members (hout.cons hnot)
  | .null, names, around, hin, hout | .bool _, names, around, hin, hout
  | .number _, names, around, hin, hout | .string _, names, around, hin, hout => by
      have hne := hin rfl
      rw [Value.occurrences_of_isScalar rfl, matchedOf_of_isScalar rfl]
      simp [largestAmong, hout.isWithinWhole_eq, writesScalar, keepsWhole, Value.isScalar, hne]

theorem largestAmong_items : ∀ (items : List Value) {names : List String}
    {around : List (List String)}, t.Outside (names :: around) →
    t.largestAmong (Value.occurrencesOfItems names (names :: around) items) =
      itemMatches t (t.contextAt names) items
  | [], names, around, _ => (itemMatches_nil _).symm
  | item :: rest, names, around, hout => by
      rw [Value.occurrencesOfItems, largestAmong_append, itemMatches_cons,
        if_neg (hout names List.mem_cons_self), largestAmong_items rest hout,
        largestAmong_value item (fun _ => List.cons_ne_nil _ _) hout]

theorem largestAmong_members : ∀ (members : List (String × Value)) {names : List String}
    {around : List (List String)}, t.Outside (names :: around) →
    t.largestAmong (Value.occurrencesOfMembers names (names :: around) members) =
      memberMatches t (t.contextAt names) members
  | [], names, around, _ => (memberMatches_nil _).symm
  | (name, value) :: rest, names, around, hout => by
      rw [Value.occurrencesOfMembers, largestAmong_append, memberMatches_cons,
        if_neg (hout names List.mem_cons_self), largestAmong_members rest hout,
        largestAmong_value value (fun _ => List.cons_ne_nil _ _) hout, contextAt_concat]

end

/-- **The matches of a document are its largest parts that are kept.** -/
theorem largestAmong_document (t : Tree) (v : Value) :
    t.largestAmong (v.occurrences [] []) = t.matched v := by
  have hout : t.Outside [] := fun _ h => absurd h List.not_mem_nil
  cases v with
  | array items => exact largestAmong_value (.array items) (fun h => nomatch h) hout
  | object members => exact largestAmong_value (.object members) (fun h => nomatch h) hout
  | null | bool | number | string =>
      rw [Value.occurrences_of_isScalar rfl]
      simp [largestAmong, hout.isWithinWhole_eq, writesScalar, keepsWhole, Value.isScalar, matched]

end Tree

/-! ## The scalars that are written -/

namespace Json

/-- The scalar of an event, if it is one. -/
def Event.scalar? : Event → Option Value
  | .scalar v => some v
  | _ => none

/-- The scalars among some events. -/
def scalars (events : List Event) : List Value := events.filterMap Event.scalar?

theorem scalars_append (xs ys : List Event) : scalars (xs ++ ys) = scalars xs ++ scalars ys :=
  List.filterMap_append

theorem scalars_field (name : String) (events : List Event) :
    scalars (.field name :: events) = scalars events := List.filterMap_cons_none rfl

theorem scalars_container (kind : Container) (content : List Event) :
    scalars (.start kind :: (content ++ [.stop kind])) = scalars content := by
  rw [scalars, List.filterMap_cons_none rfl, List.filterMap_append]
  exact List.append_nil _

end Json

namespace Filtering

variable {t : Tree}

/-- The name of its field does not matter for the scalars of a value. -/
theorem scalars_keptEvents (field : Option String) (kept : Option Value) :
    scalars (keptEvents field kept) = scalars (Value.itemEvents kept.toList) := by
  rw [← keptEvents_none]
  cases kept with
  | none => rfl
  | some w =>
      cases field with
      | none => rfl
      | some name => exact scalars_field name w.events

theorem scalars_keptOf_array (context : Option Context) (items : List Value) :
    scalars (keptEvents none (keptOf t context (.array items))) =
      scalars (Value.itemEvents (itemsOf t context items)) := by
  rw [keptOf_array]
  split
  · rename_i hall
    rw [hall]
    show scalars (Value.array items).events =
      scalars (Value.itemEvents (Context.projectItems _ _ _))
    rw [Context.projectItems_all, Value.events, scalars_container]
  · cases itemsOf t context items with
    | nil => rfl
    | cons item rest =>
        show scalars (Value.array (item :: rest)).events = _
        rw [Value.events, scalars_container]

theorem scalars_keptOf_object (context : Option Context) (members : List (String × Value)) :
    scalars (keptEvents none (keptOf t context (.object members))) =
      scalars (Value.memberEvents (membersOf t context members)) := by
  rw [keptOf_object]
  split
  · rename_i hall
    rw [hall]
    show scalars (Value.object members).events =
      scalars (Value.memberEvents (Context.projectMembers _ _ _))
    rw [Context.projectMembers_all, Value.events, scalars_container]
  · cases membersOf t context members with
    | nil => rfl
    | cons member rest =>
        show scalars (Value.object (member :: rest)).events = _
        rw [Value.events, scalars_container]

end Filtering

namespace Tree

variable {t : Tree}

/-- The scalars among these values that are written. -/
def writtenScalars (t : Tree) (os : List Occurrence) : List Value :=
  (os.filter t.writesScalar).map Occurrence.value

theorem writtenScalars_append (xs ys : List Occurrence) :
    t.writtenScalars (xs ++ ys) = t.writtenScalars xs ++ t.writtenScalars ys := by
  rw [writtenScalars, List.filter_append, List.map_append]
  rfl

theorem writtenScalars_container {v : Value} (hv : v.isScalar = false) (names : List String)
    (around : List (List String)) (os : List Occurrence) :
    t.writtenScalars (⟨names, around, v⟩ :: os) = t.writtenScalars os := by
  simp [writtenScalars, writesScalar, hv]

mutual

/-- **The scalars that are passed on of a value** are those in it that are written, in order. -/
theorem scalars_value : ∀ (v : Value) {names : List String} {around : List (List String)},
    (v.isScalar = true → around ≠ []) →
    scalars (keptEvents none (keptOf t (t.contextAt names) v)) =
      t.writtenScalars (v.occurrences names around)
  | .array items, names, around, _ => by
      rw [scalars_keptOf_array, Value.occurrences, writtenScalars_container rfl]
      exact scalars_items items
  | .object members, names, around, _ => by
      rw [scalars_keptOf_object, Value.occurrences, writtenScalars_container rfl]
      exact scalars_members members
  | .null, names, around, hin | .bool _, names, around, hin
  | .number _, names, around, hin | .string _, names, around, hin => by
      have hne := hin rfl
      rw [Value.occurrences_of_isScalar rfl, keptOf_of_isScalar rfl]
      split
      · rename_i hkept
        simp [scalars, keptEvents, Value.events, Event.scalar?, writtenScalars, writesScalar,
          Value.isScalar, hkept]
      · rename_i hkept
        simp [scalars, keptEvents, writtenScalars, writesScalar, hkept, hne]

theorem scalars_items : ∀ (items : List Value) {names : List String}
    {around : List (List String)},
    scalars (Value.itemEvents (itemsOf t (t.contextAt names) items)) =
      t.writtenScalars (Value.occurrencesOfItems names (names :: around) items)
  | [], names, around => by
      rw [itemsOf_nil]
      rfl
  | item :: rest, names, around => by
      rw [itemsOf_cons, Value.itemEvents_append, scalars_append, ← keptEvents_none,
        scalars_items rest, Value.occurrencesOfItems, writtenScalars_append,
        ← scalars_value item fun _ => List.cons_ne_nil names around]

theorem scalars_members : ∀ (members : List (String × Value)) {names : List String}
    {around : List (List String)},
    scalars (Value.memberEvents (membersOf t (t.contextAt names) members)) =
      t.writtenScalars (Value.occurrencesOfMembers names (names :: around) members)
  | [], names, around => by
      rw [membersOf_nil]
      rfl
  | (name, value) :: rest, names, around => by
      rw [membersOf_cons, Value.memberEvents_append, scalars_append, ← keptEvents_some,
        scalars_members rest, Value.occurrencesOfMembers, writtenScalars_append,
        ← scalars_value value fun _ => List.cons_ne_nil names around, contextAt_concat,
        scalars_keptEvents, scalars_keptEvents]

end

theorem scalars_document (t : Tree) (v : Value) :
    scalars (keptEvents none (t.kept v)) = t.writtenScalars (v.occurrences [] []) := by
  cases v with
  | array items => exact @scalars_value t (.array items) [] [] fun h => nomatch h
  | object members => exact @scalars_value t (.object members) [] [] fun h => nomatch h
  | null | bool | number | string => rfl

end Tree

/-! ## Whole documents -/

/-- To hand over a value is to hand over its events. -/
theorem Source.into_ofValue {σ : Type} [Sink σ] (v : Value) (s : σ) :
    (Source.ofValue v).into s = Sink.writeAll s v.events := by
  show (Sink.writeAll s v.events).andThen .accepted = Sink.writeAll s v.events
  cases Sink.writeAll s v.events <;> rfl

namespace Filtering

/-- What the filter passes on and where it ends are determined by what it is told. -/
theorem Passes.unique {t : Tree} {s s₁ s₂ : State} {events out₁ out₂ : List Event}
    (h₁ : Passes t s events out₁ s₁) (h₂ : Passes t s events out₂ s₂) :
    out₁ = out₂ ∧ s₁ = s₂ := by
  induction h₁ generalizing out₂ s₂ with
  | nil =>
      cases h₂
      exact ⟨rfl, rfl⟩
  | cons hstep _ ih =>
      cases h₂ with
      | cons hstep' hrest =>
          obtain ⟨rfl, rfl⟩ := Step.passed.inj (hstep.symm.trans hstep')
          obtain ⟨rfl, rfl⟩ := ih hrest
          exact ⟨rfl, rfl⟩

/-- The count does not depend on the sink, as long as this takes all. -/
theorem matchCount_of_into {σ : Type} [Sink σ] {t : Tree} {v : Value} {sink : σ}
    {f : Filtering σ} (h : (Source.ofValue v).into ⟨t, {}, sink⟩ = .accepted f) :
    f.matchCount = t.matched v := by
  rw [Source.into_ofValue] at h
  obtain ⟨s, hrun, hmatched, -⟩ := passes_kept t v
  obtain ⟨_, _, _, hpasses, -, rfl⟩ := passes_of_writeAll h
  obtain ⟨-, rfl⟩ := hrun.unique hpasses
  exact hmatched

/-- A recorder is told what is kept of a document, and at the end an empty container if nothing
matched. -/
theorem recorded_document (t : Tree) (v : Value) :
    ∃ f f', (Source.ofValue v).into (⟨t, {}, {}⟩ : Filtering Recorder) = .accepted f ∧
      f.inner = .told ((keptEvents none (t.kept v)).map .event) ∧
      Sink.close f = .accepted f' ∧
      f'.inner = .told ((keptEvents none (t.kept v)).map .event ++
        (if t.matched v = 0 then v.emptied.events else []).map .event ++ [.closed]) := by
  obtain ⟨s, hrun, -, handoffs, hclose, hend⟩ := passes_kept t v
  have htold := Recorder.writeAll_told [] (keptEvents none (t.kept v))
  rw [← hend]
  exact ⟨_, _, (Source.into_ofValue v _).trans (writeAll_of_passes hrun htold), rfl,
    close_of_step hclose (Recorder.writeAll_told _ _) (Recorder.call_told _ .closed), rfl⟩

end Filtering

/-- **The filter counts the largest parts that are kept.** Whatever the sink, if it takes all
that is passed on of a document, the count is the number of scalars that are written and of
containers that are kept as a whole, but for those within a container that is kept as a whole.
The scalars that a recorder is told before the end are the written ones. Nothing is counted
exactly if the recorder was told nothing, and then it is told an empty container at the end, and
nothing more otherwise. -/
theorem matchCount_eq_largest (t : Tree) (v : Value) :
    let os := v.occurrences [] []
    (∀ (σ : Type) [Sink σ] (sink : σ) (f : Filtering σ),
      (Source.ofValue v).into (⟨t, {}, sink⟩ : Filtering σ) = .accepted f →
      f.matchCount = os.countP (fun o => t.writesScalar o && !t.isWithinWhole o) +
        os.countP fun o => t.keepsWhole o && !t.isWithinWhole o) ∧
    ∃ f f', (Source.ofValue v).into (⟨t, {}, {}⟩ : Filtering Recorder) = .accepted f ∧
      scalars f.inner.events = (os.filter t.writesScalar).map Occurrence.value ∧
      (f.matchCount = 0 ↔ f.inner.records = []) ∧
      Sink.close f = .accepted f' ∧
      f'.inner.records = (if f.inner.records = [] then v.emptied.events.map .event
        else f.inner.records) ++ [.closed] := by
  intro os
  refine ⟨fun σ _ sink f hf => (matchCount_of_into hf).trans (t.largestAmong_document v).symm, ?_⟩
  obtain ⟨f, f', hinto, hinner, hclose, hinner'⟩ := recorded_document t v
  have hevents : f.inner.events = keptEvents none (t.kept v) := by
    have htold := Recorder.events_told (keptEvents none (t.kept v)) []
    rw [List.append_nil, List.filterMap_nil, List.append_nil] at htold
    rw [hinner, htold]
  have hrecords : f.inner.records = (keptEvents none (t.kept v)).map .event := by
    rw [hinner, Recorder.records_told]
  have hnothing : t.matched v = 0 ↔ keptEvents none (t.kept v) = [] := by
    rw [t.matched_eq_zero_iff, keptEvents_eq_nil_iff]
  refine ⟨f, f', hinto, ?_, ?_, hclose, ?_⟩
  · rw [hevents]
    exact t.scalars_document v
  · rw [matchCount_of_into hinto, hnothing, hrecords, List.map_eq_nil_iff]
  · rw [hinner', Recorder.records_told, hrecords]
    by_cases hzero : t.matched v = 0
    · rw [if_pos hzero, hnothing.mp hzero]
      rfl
    · have hsome : (keptEvents none (t.kept v)).map Record.event ≠ [] :=
        fun h => hzero (hnothing.mpr (List.map_eq_nil_iff.mp h))
      rw [if_neg hzero, if_neg hsome, List.map_nil, List.append_nil]

-- What is kept as a whole counts once, whatever lies within it.
example :
    let v := Value.object [("a", .object [("b", .array [.null, .object [("a", .null)]])]),
      ("d", .null), ("e", .object [("a", .null)])]
    let t := Tree.ofPaths [[.name "a"], [.name "e", .name "a"]]
    t.largestAmong (v.occurrences [] []) = 2 := by
  decide +kernel

end FieldSelection
