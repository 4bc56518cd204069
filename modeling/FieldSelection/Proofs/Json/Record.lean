import FieldSelection.Json.Record
import FieldSelection.Proofs.Dictionary

/-!
# What readers give

`Gives` says that whatever a reader gives has a property, wherever it reads. The readers of
records, dictionaries and absent values are made of other readers, and so are their
properties: of a dictionary, every entry has the property of the entries, and no key is there
twice.
-/

namespace FieldSelection.Json

/-- Whatever a reader gives has this property. -/
def Gives {α : Type} (read : Reader α) (P : α → Prop) : Prop :=
  ∀ text x rest, read text = .ok (x, rest) → P x

variable {α ρ : Type} {P : α → Prop} {read : Reader α}

theorem bind_eq_ok {α β : Type} {x : Reading α} {f : α → Reading β} {b : β}
    (h : x >>= f = .ok b) : ∃ a, x = .ok a ∧ f a = .ok b := by
  cases x with
  | error why => exact absurd h (by simp [bind, Except.bind])
  | ok a => exact ⟨a, rfl, h⟩

theorem map_eq_ok {α β : Type} {x : Reading α} {f : α → β} {b : β}
    (h : x.map f = .ok b) : ∃ a, x = .ok a ∧ f a = b := by
  cases x with
  | error why => exact absurd h (by simp [Except.map])
  | ok a => exact ⟨a, rfl, Except.ok.inj h⟩

theorem mapError_eq_ok {ε ε' α : Type} {x : Except ε α} {f : ε → ε'} {a : α}
    (h : x.mapError f = .ok a) : x = .ok a := by
  cases x with
  | error why => exact absurd h (by simp [Except.mapError])
  | ok b => exact congrArg Except.ok (Except.ok.inj h)

theorem mistyped_ne_ok {wanted : Wanted} {text : List UInt8} {x : α} :
    (mistyped wanted text : Reading α) ≠ .ok x := by
  intro h
  rw [mistyped] at h
  split at h
  · exact absurd h (by simp)
  · split at h
    · exact absurd h (by simp)
    · obtain ⟨_, _, h⟩ := bind_eq_ok h
      exact absurd h (by simp)

theorem gives_true : Gives read fun _ => True :=
  fun _ _ _ _ => trivial

/-! ## Values that may be absent -/

theorem gives_optional (h : Gives read P) :
    Gives (optional read) fun x? => ∀ x, x? = some x → P x := by
  intro text x? rest hread x hx
  rw [optional] at hread
  split at hread
  · obtain ⟨⟨y, _⟩, hy, heq⟩ := map_eq_ok hread
    cases heq
    cases hx
    exact h _ _ _ hy
  · split at hread
    · obtain ⟨_, _, heq⟩ := map_eq_ok hread
      cases heq
      exact absurd hx (by simp)
    · obtain ⟨⟨y, _⟩, hy, heq⟩ := map_eq_ok hread
      cases heq
      cases hx
      exact h _ _ _ hy

/-! ## Dictionaries -/

theorem forall_mem_of_membersFrom (h : Gives read P) (fuel : Nat) :
    ∀ {next : NextMember} {members : List (String × α)} {rest : List UInt8},
      membersFrom read fuel next = .ok (members, rest) → ∀ entry ∈ members, P entry.2 := by
  induction fuel with
  | zero =>
      intro next members rest hread
      cases next with
      | done => cases hread; simp
      | member => exact absurd hread (by simp [membersFrom, brokenBefore])
  | succ fuel ih =>
      intro next members rest hread
      cases next with
      | done => cases hread; simp
      | member name text =>
          rw [membersFrom] at hread
          obtain ⟨_, _, hread⟩ := bind_eq_ok hread
          obtain ⟨⟨x, _⟩, hx, hread⟩ := bind_eq_ok hread
          obtain ⟨_, _, hread⟩ := bind_eq_ok hread
          obtain ⟨⟨xs, _⟩, hxs, hread⟩ := bind_eq_ok hread
          cases hread
          intro entry hentry
          rcases List.mem_cons.mp hentry with rfl | hentry
          · exact h _ _ _ hx
          · exact ih hxs entry hentry

/-- Where no more containers may be opened there is no dictionary. -/
theorem gives_dictionary_none {P : Dictionary α → Prop} :
    Gives (dictionary (none : Option (Reader α))) P := by
  intro text d rest hread
  rw [dictionary] at hread
  split at hread
  · exact absurd hread (by simp [brokenBefore])
  · split at hread
    · exact absurd hread (by simp [brokenAt])
    · exact absurd hread mistyped_ne_ok

theorem gives_dictionary (h : Gives read P) :
    Gives (dictionary (some read)) fun d => d.Ascending ∧ ∀ entry ∈ d, P entry.2 := by
  intro text d rest hread
  rw [dictionary] at hread
  split at hread
  · exact absurd hread (by simp [brokenBefore])
  · split at hread
    · obtain ⟨_, _, hread⟩ := bind_eq_ok hread
      obtain ⟨⟨members, _⟩, hmembers, hread⟩ := bind_eq_ok hread
      cases hread
      have hall := forall_mem_of_membersFrom h _ hmembers
      exact ⟨Dictionary.ascending_ofList members,
        fun entry hentry => hall entry (Dictionary.mem_of_mem_ofList hentry)⟩
    · exact absurd hread mistyped_ne_ok

/-! ## Records -/

/-- Whether each field of a record keeps a property of the record. -/
def Preserve (fields : List (RecordField ρ)) (P : ρ → Prop) : Prop :=
  ∀ field ∈ fields, ∀ r, P r → Gives (field.read r) P

theorem preserves_ofReader {P : ρ → Prop} {Q : α → Prop} {name : String} {set : ρ → α → ρ}
    (hread : Gives read Q) (hset : ∀ r x, P r → Q x → P (set r x)) (r : ρ) (hr : P r) :
    Gives ((RecordField.ofReader name read set).read r) P := by
  intro text r' rest h
  obtain ⟨⟨x, _⟩, hx, heq⟩ := map_eq_ok h
  cases heq
  exact hset r x hr (hread _ _ _ hx)

theorem gives_recordElements {P : ρ → Prop} {fields : List (RecordField ρ)}
    (h : Preserve fields P) :
    ∀ {first : Bool} {r : ρ}, P r → Gives (recordElements fields first r) P := by
  induction fields with
  | nil =>
      intro first r hr text r' rest hread
      rw [recordElements] at hread
      obtain ⟨_, _, hread⟩ := bind_eq_ok hread
      cases hread
      exact hr
  | cons field fields ih =>
      intro first r hr text r' rest hread
      rw [recordElements] at hread
      obtain ⟨next, _, hread⟩ := bind_eq_ok hread
      cases next with
      | done =>
          cases hread
          exact hr
      | element text =>
          obtain ⟨⟨r₁, _⟩, hr₁, hread⟩ := bind_eq_ok hread
          have hr₁ := h field List.mem_cons_self r hr _ _ _ hr₁
          exact ih (fun f hf => h f (List.mem_cons_of_mem _ hf)) hr₁ _ _ _ hread

theorem of_recordMembers {P : ρ → Prop} {fields : List (RecordField ρ)} (h : Preserve fields P)
    (fuel : Nat) :
    ∀ {seen : List String} {r r' : ρ} {next : NextMember} {rest : List UInt8}, P r →
      recordMembers fields fuel seen r next = .ok (r', rest) → P r' := by
  induction fuel with
  | zero =>
      intro seen r r' next rest hr hread
      cases next with
      | done => cases hread; exact hr
      | member => exact absurd hread (by simp [recordMembers, brokenBefore])
  | succ fuel ih =>
      intro seen r r' next rest hr hread
      cases next with
      | done => cases hread; exact hr
      | member name text =>
          rw [recordMembers] at hread
          split at hread
          · rename_i field hfield
            split at hread
            · exact absurd hread (by simp)
            · obtain ⟨_, _, hread⟩ := bind_eq_ok hread
              obtain ⟨⟨r₁, _⟩, hr₁, hread⟩ := bind_eq_ok hread
              obtain ⟨_, _, hread⟩ := bind_eq_ok hread
              exact ih (h field (List.mem_of_find?_eq_some hfield) r hr _ _ _ hr₁) hread
          · obtain ⟨_, _, hread⟩ := bind_eq_ok hread
            obtain ⟨_, _, hread⟩ := bind_eq_ok hread
            obtain ⟨_, _, hread⟩ := bind_eq_ok hread
            exact ih hr hread

/-- Where no more containers may be opened there is no record. -/
theorem gives_record_none {P : ρ → Prop} {name : String} {absent : ρ} :
    Gives (record name none absent) P := by
  intro text r rest hread
  rw [record] at hread
  split at hread
  · exact absurd hread (by simp [brokenBefore])
  · split at hread
    · exact absurd hread (by simp [brokenAt])
    · exact absurd hread mistyped_ne_ok

/-- **A record has each property that its fields keep**, if it has it with no field set. -/
theorem gives_record {P : ρ → Prop} {name : String} {fields : List (RecordField ρ)} {absent : ρ}
    (h : Preserve fields P) (habsent : P absent) : Gives (record name (some fields) absent) P := by
  intro text r rest hread
  rw [record] at hread
  split at hread
  · exact absurd hread (by simp [brokenBefore])
  · split at hread
    · dsimp only at hread
      split at hread
      · exact gives_recordElements h habsent _ _ _ hread
      · obtain ⟨_, _, hread⟩ := bind_eq_ok hread
        exact of_recordMembers h _ habsent hread
    · exact absurd hread mistyped_ne_ok

/-! ## Documents -/

theorem of_readDocument (h : Gives read P) {text : List UInt8} {x : α}
    (hread : readDocument read text = .ok x) : P x := by
  rw [readDocument] at hread
  obtain ⟨⟨y, _⟩, hy, hread⟩ := bind_eq_ok (mapError_eq_ok hread)
  obtain ⟨_, _, hread⟩ := bind_eq_ok hread
  cases hread
  exact h _ _ _ hy

end FieldSelection.Json
