import FieldSelection.Json.Stream
import FieldSelection.Proofs.Filtering.Sorting
import FieldSelection.Proofs.Json.Events
import FieldSelection.Proofs.Json.Record

/-!
# Reading a text at once and telling it agree

There are two readers of documents. One gives a value, the other tells events. They take the
same texts, and where one gives a value the other tells a document that is this value when it is
sorted.

Two readings `Agree` if both succeed, with the same rest of the text and results that belong
together, or both fail. Agreement is kept by each way in which the readers are put together, so
the lemma about a reader follows its definition, and one induction on the depth is enough.
-/

namespace FieldSelection.Json

open Value Telling

/-- What one reader gives belongs to what the other tells, and both go on at the same place; or
both find a fault. -/
def Agree {β : Type} (read : Reading (β × List UInt8)) (telling : Telling)
    (belong : β → List Event → Prop) : Prop :=
  (∃ b rest told, read = .ok (b, rest) ∧ telling = ⟨told, .ok rest⟩ ∧ belong b told) ∨
    ∃ why told why', read = .error why ∧ telling = ⟨told, .error why'⟩

namespace Agree

variable {α β γ : Type} {read : Reading (β × List UInt8)} {telling : Telling}
  {belong : β → List Event → Prop} {belong' : γ → List Event → Prop}

theorem ok {b : β} {told : List Event} {rest : List UInt8} (h : belong b told) :
    Agree (.ok (b, rest)) ⟨told, .ok rest⟩ belong := Or.inl ⟨b, rest, told, rfl, rfl, h⟩

theorem error {why why' : Fault Nat} {told : List Event} :
    Agree (.error why) ⟨told, .error why'⟩ belong := Or.inr ⟨why, told, why', rfl, rfl⟩

/-- An event is told in front. -/
theorem after {event : Event} (h : Agree read telling fun b told => belong b (event :: told)) :
    Agree read (telling.after event) belong := by
  rcases h with ⟨b, rest, told, rfl, rfl, h⟩ | ⟨why, told, why', rfl, rfl⟩
  · exact ok h
  · exact error

/-- Both go on with what was read without being told. -/
theorem ofReading {reading : Reading α} {next : α → Reading (β × List UInt8)} {more : α → Telling}
    (h : ∀ x, Agree (next x) (more x) belong) :
    Agree (reading >>= next) (ofReading reading more) belong := by
  cases reading with
  | error why => exact error
  | ok x => exact h x

/-- Both go on where they stopped. -/
theorem andThen {next : β × List UInt8 → Reading (γ × List UInt8)} {more : List UInt8 → Telling}
    (h : Agree read telling belong)
    (hnext : ∀ b told rest, belong b told →
      Agree (next (b, rest)) (more rest) fun c told' => belong' c (told ++ told')) :
    Agree (read >>= next) (telling.andThen more) belong' := by
  rcases h with ⟨b, rest, told, rfl, rfl, h⟩ | ⟨why, told, why', rfl, rfl⟩
  · rcases hnext b told rest h with ⟨c, rest', told', hread, htell, hc⟩ |
      ⟨why, told', why', hread, htell⟩
    · refine Or.inl ⟨c, rest', told ++ told', hread, ?_, hc⟩
      simp only [Telling.andThen, htell]
    · refine Or.inr ⟨why, told ++ told', why', hread, ?_⟩
      simp only [Telling.andThen, htell]
  · exact error

/-- The one reader makes something of what it gives. -/
theorem map (h : Agree read telling belong) (f : β → γ)
    (hf : ∀ b told, belong b told → belong' (f b) told) :
    Agree (read >>= fun (b, rest) => .ok (f b, rest)) telling belong' := by
  rcases h with ⟨b, rest, told, rfl, rfl, h⟩ | ⟨why, told, why', rfl, rfl⟩
  · exact ok (hf b told h)
  · exact error

end Agree

/-- The value is what this document is when it is sorted. -/
def TellsValue (depth : Nat) (v : Value) (told : List Event) : Prop :=
  ∃ d : Value, d.sorted = v ∧ d.events = told ∧ d.depth ≤ depth

/-- The elements are what these are when they are sorted, and an array ends behind them. -/
def TellsItems (depth : Nat) (items : List Value) (told : List Event) : Prop :=
  ∃ ds : List Value, ds.map sorted = items ∧ itemEvents ds ++ [.stop .array] = told ∧
    depthOfItems ds ≤ depth

/-- The members are what these are when each is sorted, and an object ends behind them. -/
def TellsMembers (depth : Nat) (members : List (String × Value)) (told : List Event) : Prop :=
  ∃ ds : List (String × Value), ds.map sortedMember = members ∧
    memberEvents ds ++ [.stop .object] = told ∧ depthOfMembers ds ≤ depth

/-! ## Containers -/

section

variable {depth : Nat} {read : Reader Value} {telling : List UInt8 → Telling}
  (h : ∀ text, Agree (read text) (telling text) (TellsValue depth))

include h

theorem agree_elements (fuel : Nat) (first : Bool) (text : List UInt8) :
    Agree (elements read fuel first text) (tellElements telling fuel first text)
      (TellsItems depth) := by
  induction fuel generalizing first text with
  | zero => exact Agree.error
  | succ fuel ih =>
      rw [elements, tellElements]
      refine Agree.ofReading fun next => ?_
      cases next with
      | done rest => exact Agree.ok ⟨[], rfl, rfl, Nat.zero_le _⟩
      | element text =>
          refine (h text).andThen fun _ _ rest hd => ?_
          obtain ⟨d, rfl, rfl, hdepth⟩ := hd
          refine (ih false rest).map (d.sorted :: ·) fun _ _ hds => ?_
          obtain ⟨ds, rfl, rfl, hdepths⟩ := hds
          exact ⟨d :: ds, rfl, List.append_assoc _ _ _, Nat.max_le.mpr ⟨hdepth, hdepths⟩⟩

theorem agree_members (fuel : Nat) (next : NextMember) :
    Agree (membersFrom read fuel next) (tellMembers telling fuel next) (TellsMembers depth) := by
  induction fuel generalizing next with
  | zero =>
      cases next with
      | done rest => exact Agree.ok ⟨[], rfl, rfl, Nat.zero_le _⟩
      | member name text => exact Agree.error
  | succ fuel ih =>
      cases next with
      | done rest => exact Agree.ok ⟨[], rfl, rfl, Nat.zero_le _⟩
      | member name text =>
          rw [membersFrom, tellMembers]
          refine Agree.after (Agree.ofReading fun text => ?_)
          refine (h text).andThen fun _ _ rest hd => ?_
          obtain ⟨d, rfl, rfl, hdepth⟩ := hd
          refine Agree.ofReading fun next => ?_
          refine (ih next).map ((name, d.sorted) :: ·) fun _ _ hds => ?_
          obtain ⟨ds, rfl, rfl, hdepths⟩ := hds
          refine ⟨(name, d) :: ds, rfl, ?_, Nat.max_le.mpr ⟨hdepth, hdepths⟩⟩
          simp [memberEvents]

end

/-! ## Values -/

/-- Whether a string is there does not depend on what is said if it is not. -/
theorem wantedString_cases (wanted wanted' : Wanted) (text : List UInt8) :
    (∃ x, wantedString wanted text = .ok x ∧ wantedString wanted' text = .ok x) ∨
      ∃ why why', wantedString wanted text = .error why ∧
        wantedString wanted' text = .error why' := by
  have hmistyped : ∀ (w : Wanted) (text : List UInt8),
      ∃ why, (mistyped w text : Reading (String × List UInt8)) = .error why := by
    intro w text
    cases h : (mistyped w text : Reading (String × List UInt8)) with
    | error why => exact ⟨why, rfl⟩
    | ok x => exact absurd h mistyped_ne_ok
  -- only the fault of a text that goes on with something else depends on what is wanted
  rw [wantedString, wantedString]
  cases skipBlanks text with
  | nil => exact Or.inr ⟨_, _, rfl, rfl⟩
  | cons b rest =>
      simp only
      split
      · cases string rest with
        | error why => exact Or.inr ⟨why, why, rfl, rfl⟩
        | ok x => exact Or.inl ⟨x, rfl, rfl⟩
      · obtain ⟨why, hwhy⟩ := hmistyped wanted (b :: rest)
        obtain ⟨why', hwhy'⟩ := hmistyped wanted' (b :: rest)
        exact Or.inr ⟨why, why', hwhy, hwhy'⟩

theorem tellsValue_of_isScalar {v : Value} (hv : v.isScalar = true) (depth : Nat) :
    TellsValue depth v [.scalar v] := by
  refine ⟨v, sorted_of_isScalar hv, events_of_isScalar hv, ?_⟩
  rw [depth_of_isScalar hv]
  exact Nat.zero_le _

/-- An object that stands for a number is read as one by both. -/
theorem agree_number (depth : Nat) (text : List UInt8) :
    Agree (do
        let (digits, rest) ← wantedString .numericString (← colon text)
        let n ← numberOfText digits
        return (.number n, ← endOfRecord rest))
      (ofReading (colon text) fun text =>
        ofReading (wantedString .string text) fun (digits, rest) =>
          ofReading (numberOfText digits) fun n =>
            after (.scalar (.number n)) (silent (endOfRecord rest)))
      (TellsValue depth) := by
  refine Agree.ofReading fun text => ?_
  rcases wantedString_cases .numericString .string text with ⟨⟨digits, rest⟩, hread, htell⟩ |
    ⟨why, why', hread, htell⟩
  · rw [hread, htell]
    show Agree (do
        let n ← numberOfText digits
        return (.number n, ← endOfRecord rest))
      (ofReading (numberOfText digits) fun n =>
        after (.scalar (.number n)) (silent (endOfRecord rest))) (TellsValue depth)
    refine Agree.ofReading fun n => ?_
    have hn : TellsValue depth (.number n) [.scalar (.number n)] :=
      tellsValue_of_isScalar rfl depth
    cases endOfRecord rest with
    | error why => exact Agree.error
    | ok rest' => exact Agree.ok hn
  · rw [hread, htell]
    exact Agree.error

theorem isScalar_of_scalar {text rest : List UInt8} {v : Value}
    (h : scalar text = .ok (v, rest)) : v.isScalar = true := by
  have hmap : ∀ {α : Type} {read : Reading α} {f : α → Value × List UInt8},
      read.map f = .ok (v, rest) → (∀ x, (f x).1.isScalar = true) → v.isScalar = true := by
    intro α read f h hf
    obtain ⟨x, -, hx⟩ := map_eq_ok h
    have hv := hf x
    rwa [hx] at hv
  cases text with
  | nil => exact absurd h (by simp [scalar, brokenBefore])
  | cons b more =>
      rw [scalar] at h
      repeat' split at h
      · exact hmap h fun _ => rfl
      · exact hmap h fun _ => rfl
      · exact hmap h fun _ => rfl
      · exact hmap h fun _ => rfl
      · exact hmap h fun _ => rfl
      · exact absurd h (by simp [brokenAt])

/-- What is no container is read as a whole by both. -/
theorem agree_scalar (depth : Nat) (text : List UInt8) :
    Agree (scalar text)
      (ofReading (scalar text) fun (v, rest) => after (.scalar v) (silent (.ok rest)))
      (TellsValue depth) := by
  cases hscalar : scalar text with
  | error why => exact Agree.error
  | ok x => exact Agree.ok (tellsValue_of_isScalar (isScalar_of_scalar hscalar) depth)

section

variable {depth : Nat} (h : ∀ text, Agree (value depth text) (tell depth text) (TellsValue depth))

include h

theorem agree_array (text : List UInt8) :
    Agree (do
        let (items, rest) ← elements (value depth) (text.length + 1) true text
        return (.array items, rest))
      (after (.start .array) (tellElements (tell depth) (text.length + 1) true text))
      (TellsValue (depth + 1)) := by
  refine Agree.after ((agree_elements h _ true text).map Value.array fun _ _ hds => ?_)
  obtain ⟨ds, rfl, rfl, hdepth⟩ := hds
  exact ⟨.array ds, sorted_array ds, rfl, Nat.succ_le_succ hdepth⟩

theorem agree_object (fuel : Nat) (next : NextMember) :
    Agree (do
        let (members, rest) ← membersFrom (value depth) fuel next
        return (.ofMembers members, rest))
      (after (.start .object) (tellMembers (tell depth) fuel next))
      (TellsValue (depth + 1)) := by
  refine Agree.after ((agree_members h fuel next).map Value.ofMembers fun _ _ hds => ?_)
  obtain ⟨ds, rfl, rfl, hdepth⟩ := hds
  exact ⟨.object ds, sorted_object ds, rfl, Nat.succ_le_succ hdepth⟩

end

/-- **Both readers take the same part of a text**, and the one tells what the other gives. -/
theorem agree_value (depth : Nat) (text : List UInt8) :
    Agree (value depth text) (tell depth text) (TellsValue depth) := by
  induction depth generalizing text with
  | zero =>
      rw [value, tell]
      cases skipBlanks text with
      | nil => exact Agree.error
      | cons b rest =>
          simp only
          split
          · exact Agree.error
          · split
            · exact Agree.error
            · exact agree_scalar 0 _
  | succ depth ih =>
      rw [value, tell]
      cases skipBlanks text with
      | nil => exact Agree.error
      | cons b rest =>
          simp only
          split
          · exact agree_array ih rest
          · split
            · refine Agree.ofReading fun next => ?_
              cases next with
              | done rest' => exact agree_object ih 0 (.done rest')
              | member name more =>
                  -- the first name tells whether the object stands for a number
                  simp only
                  split
                  · exact agree_number _ _
                  · exact agree_object ih _ _
            · exact agree_scalar _ _

/-! ## Whole documents -/

/-- A text that is read as a value is told as a document that is the value once it is sorted. -/
theorem stream_of_parse {text : List UInt8} {v : Value} (h : Value.parse text = .ok v) :
    ∃ d : Value, stream text = .ofValue d ∧ d.sorted = v ∧ d.depth ≤ depthLimit := by
  obtain ⟨⟨v', rest⟩, hread, hend⟩ := bind_eq_ok (mapError_eq_ok h)
  obtain ⟨_, hdone, hv⟩ := bind_eq_ok hend
  cases hv
  rcases agree_value depthLimit text with ⟨_, rest', _, hread', htell, hd⟩ |
    ⟨why, told, why', hread', htell⟩
  · obtain ⟨d, rfl, rfl, hdepth⟩ := hd
    cases hread.symm.trans hread'
    refine ⟨d, ?_, rfl, hdepth⟩
    simp [stream, andThen, htell, ofReading, hdone, silent, Source.ofValue]
  · exact absurd (hread.symm.trans hread') (by simp)

/-- A text that is told as a document is read as a value. -/
theorem parse_of_stream {text : List UInt8} {d : Value} (h : stream text = .ofValue d) :
    Value.parse text = .ok d.sorted := by
  rcases agree_value depthLimit text with ⟨_, rest, _, hread, htell, hd⟩ |
    ⟨why, told, why', hread, htell⟩
  · obtain ⟨d', rfl, rfl, -⟩ := hd
    cases hdone : endOfDocument rest with
    | error why =>
        exact absurd h (by simp [stream, andThen, htell, ofReading, hdone, silent, Source.ofValue])
    | ok u =>
        have hevents : d'.events = d.events := by
          simpa [stream, andThen, htell, ofReading, hdone, silent, Source.ofValue] using h
        cases events_inj hevents
        simp [Value.parse, bind, Except.bind, hread, hdone, pure, Except.pure, Except.mapError]
  · exact absurd h (by simp [stream, andThen, htell, Source.ofValue])

end FieldSelection.Json
