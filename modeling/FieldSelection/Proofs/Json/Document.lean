import FieldSelection.Proofs.Filtering.Projection

/-!
# Which sequences of events tell a document

A sequence of events may break off in the middle of a document. `Nesting` is a machine that
keeps what is needed to tell whether it can still be completed: the containers that are open,
and for an object whether a name waits for its value. A run of the machine succeeds on the
beginnings of documents and on nothing else (`run_isSome_iff`), and no container is open only
before the first and after the last event of a document (`places_eq_nil_iff`).

Completeness of the machine is an invariant about all that was told so far: `Leads` takes it
apart along the open containers, each with what is complete inside of it.
-/

namespace FieldSelection.Json

/-- A document the way it is told: members in their order, and each name as often as it is told.
A scalar event may carry any value, and tells it as a whole. -/
inductive Document where
  /-- A value that is handed over as a whole. -/
  | whole (value : Value)
  /-- Documents in order. -/
  | array (items : List Document)
  /-- Documents with names. -/
  | object (members : List (String × Document))

namespace Document

mutual

/-- A document, told step by step. -/
def events : Document → List Event
  | .whole v => [.scalar v]
  | .array items => .start .array :: (itemEvents items ++ [.stop .array])
  | .object members => .start .object :: (memberEvents members ++ [.stop .object])

/-- The elements of an array, one after the other. -/
def itemEvents : List Document → List Event
  | [] => []
  | item :: rest => item.events ++ itemEvents rest

/-- The members of an object, each with its name in front. -/
def memberEvents : List (String × Document) → List Event
  | [] => []
  | (name, document) :: rest => .field name :: (document.events ++ memberEvents rest)

end

mutual

/-- The value that a document tells. Of several members of one name the last counts. -/
def value : Document → Value
  | .whole v => v
  | .array items => .array (itemValues items)
  | .object members => .ofMembers (memberValues members)

/-- The values of the elements. -/
def itemValues : List Document → List Value
  | [] => []
  | item :: rest => item.value :: itemValues rest

/-- The values of the members under their names, repeated names included. -/
def memberValues : List (String × Document) → List (String × Value)
  | [] => []
  | (name, document) :: rest => (name, document.value) :: memberValues rest

end

theorem itemEvents_append (xs ys : List Document) :
    itemEvents (xs ++ ys) = itemEvents xs ++ itemEvents ys := by
  induction xs with
  | nil => rfl
  | cons x xs ih => rw [List.cons_append, itemEvents, itemEvents, ih, List.append_assoc]

theorem memberEvents_append (xs ys : List (String × Document)) :
    memberEvents (xs ++ ys) = memberEvents xs ++ memberEvents ys := by
  induction xs with
  | nil => rfl
  | cons x xs ih => simp only [List.cons_append, memberEvents, ih, List.append_assoc]

end Document

/-- Some document begins with these events. -/
def Begun (told : List Event) : Prop := ∃ d : Document, told <+: d.events

/-- These events are those of a document, from the first to the last. -/
def Complete (told : List Event) : Prop := ∃ d : Document, told = d.events

theorem begun_nil : Begun [] := ⟨.whole .null, List.nil_prefix⟩

theorem Complete.begun {told : List Event} (h : Complete told) : Begun told := by
  obtain ⟨d, rfl⟩ := h
  exact ⟨d, List.prefix_rfl⟩

theorem complete_empty (kind : Container) : Complete [.start kind, .stop kind] := by
  cases kind with
  | object => exact ⟨.object [], rfl⟩
  | array => exact ⟨.array [], rfl⟩

/-! ## Documents and values -/

namespace Value

mutual

/-- A value as a document that is told down to its scalars. -/
def told : Value → Document
  | .array items => .array (toldItems items)
  | .object members => .object (toldMembers members)
  | scalar => .whole scalar

/-- The elements, each told down to its scalars. -/
def toldItems : List Value → List Document
  | [] => []
  | item :: rest => item.told :: toldItems rest

/-- The members, each told down to its scalars. -/
def toldMembers : List (String × Value) → List (String × Document)
  | [] => []
  | (name, value) :: rest => (name, value.told) :: toldMembers rest

end

mutual

theorem told_events : ∀ v : Value, v.told.events = v.events
  | .array items => by rw [told, Document.events, toldItems_events, events]
  | .object members => by rw [told, Document.events, toldMembers_events, events]
  | .null | .bool _ | .number _ | .string _ => rfl

theorem toldItems_events : ∀ items : List Value,
    Document.itemEvents (toldItems items) = itemEvents items
  | [] => rfl
  | item :: rest => by
      rw [toldItems, Document.itemEvents, told_events item, toldItems_events rest, itemEvents]

theorem toldMembers_events : ∀ members : List (String × Value),
    Document.memberEvents (toldMembers members) = memberEvents members
  | [] => rfl
  | (name, value) :: rest => by
      rw [toldMembers, Document.memberEvents, told_events value, toldMembers_events rest,
        memberEvents]

end

end Value

/-- No scalar event hides a container. -/
def Plain (told : List Event) : Prop := ∀ v, Event.scalar v ∈ told → v.isScalar = true

/-- The event with null in place of a hidden container. -/
def Event.plain : Event → Event
  | .scalar v => .scalar (if v.isScalar then v else .null)
  | event => event

theorem Plain.map {told : List Event} (h : Plain told) : told.map Event.plain = told := by
  refine (List.map_congr_left fun event hevent => ?_).trans (List.map_id' told)
  cases event with
  | scalar v => rw [Event.plain, if_pos (h v hevent)]
  | start | stop | field => rfl

namespace Document

mutual

/-- The value that is told where no scalar event hides a container, with all its members. -/
def raw : Document → Value
  | .whole v => if v.isScalar then v else .null
  | .array items => .array (rawItems items)
  | .object members => .object (rawMembers members)

/-- What is told for the elements. -/
def rawItems : List Document → List Value
  | [] => []
  | item :: rest => item.raw :: rawItems rest

/-- What is told for the members, under their names and in their order. -/
def rawMembers : List (String × Document) → List (String × Value)
  | [] => []
  | (name, document) :: rest => (name, document.raw) :: rawMembers rest

end

mutual

theorem raw_events : ∀ d : Document, d.raw.events = d.events.map Event.plain
  | .whole v => by
      rw [raw, events, List.map_singleton, Event.plain]
      split
      · exact Value.events_of_isScalar ‹_›
      · rfl
  | .array items => by
      rw [raw, Value.events, rawItems_events, events]
      simp [Event.plain]
  | .object members => by
      rw [raw, Value.events, rawMembers_events, events]
      simp [Event.plain]

theorem rawItems_events : ∀ items : List Document,
    Value.itemEvents (rawItems items) = (itemEvents items).map Event.plain
  | [] => rfl
  | item :: rest => by
      rw [rawItems, Value.itemEvents, raw_events item, rawItems_events rest, itemEvents,
        List.map_append]

theorem rawMembers_events : ∀ members : List (String × Document),
    Value.memberEvents (rawMembers members) = (memberEvents members).map Event.plain
  | [] => rfl
  | (name, document) :: rest => by
      rw [rawMembers, Value.memberEvents, raw_events document, rawMembers_events rest,
        memberEvents, List.map_cons, List.map_append]
      rfl

end

end Document

/-- Where no scalar event hides a container, documents are told as values are. -/
theorem begun_iff_of_plain {told : List Event} (h : Plain told) :
    Begun told ↔ ∃ v : Value, told <+: v.events := by
  constructor
  · rintro ⟨d, hd⟩
    refine ⟨d.raw, ?_⟩
    rw [Document.raw_events, ← h.map]
    exact hd.map Event.plain
  · rintro ⟨v, hv⟩
    rw [← v.told_events] at hv
    exact ⟨v.told, hv⟩

theorem complete_iff_of_plain {told : List Event} (h : Plain told) :
    Complete told ↔ ∃ v : Value, told = v.events := by
  constructor
  · rintro ⟨d, hd⟩
    refine ⟨d.raw, ?_⟩
    rw [Document.raw_events, ← hd, h.map]
  · rintro ⟨v, hv⟩
    exact ⟨v.told, by rw [v.told_events, hv]⟩

/-! ## The machine -/

/-- An open container. -/
inductive Place where
  | array
  /-- An object, and whether a name waits for its value. -/
  | object (named : Bool)
  deriving DecidableEq, Repr

/-- A container that was just opened. -/
def Place.new : Container → Place
  | .array => .array
  | .object => .object false

/-- How far a document has been told. -/
structure Nesting where
  /-- The open containers, innermost first. -/
  places : List Place := []
  /-- Whether the document has ended. -/
  ended : Bool := false
  deriving DecidableEq, Repr

namespace Nesting

/-- The nesting in which the next value is no longer due, if one is due. -/
def next (n : Nesting) : Option Nesting :=
  match n.places with
  | [] => if n.ended then none else some n
  | .array :: _ => some n
  | .object true :: outer => some { n with places := .object false :: outer }
  | .object false :: _ => none

/-- The nesting after a value. -/
def leave (n : Nesting) : Nesting := { n with ended := n.ended || n.places.isEmpty }

/-- The nesting inside of a container. -/
def enter (n : Nesting) (kind : Container) : Nesting := { n with places := .new kind :: n.places }

/-- One event further, if it fits. -/
def step (n : Nesting) : Event → Option Nesting
  | .start kind => n.next.map (·.enter kind)
  | .scalar _ => n.next.map leave
  | .stop kind =>
    match n.places with
    | [] => none
    | place :: outer => if place = .new kind then some { n with places := outer }.leave else none
  | .field _ =>
    match n.places with
    | .object false :: outer => some { n with places := .object true :: outer }
    | _ => none

/-- Some events further, if they all fit. -/
def run (n : Nesting) : List Event → Option Nesting
  | [] => some n
  | event :: rest => (n.step event).bind (run · rest)

theorem run_append (n : Nesting) (xs ys : List Event) :
    n.run (xs ++ ys) = (n.run xs).bind (run · ys) := by
  induction xs generalizing n with
  | nil => rfl
  | cons x xs ih =>
      rw [List.cons_append, run, run, Option.bind_assoc]
      congr
      funext m
      exact ih m

theorem run_trans {n m k : Nesting} {xs ys : List Event} (hx : n.run xs = some m)
    (hy : m.run ys = some k) : n.run (xs ++ ys) = some k := by
  rw [run_append, hx]
  exact hy

theorem run_singleton (n : Nesting) (event : Event) : n.run [event] = n.step event := by
  rw [run]
  cases n.step event <;> rfl

/-- Where a value is due, as many containers are open as when it no longer is. -/
theorem length_places_next {n m : Nesting} (h : n.next = some m) :
    m.places.length = n.places.length := by
  rw [next] at h
  split at h
  · split at h
    · exact absurd h (by simp)
    · cases h
      rfl
  · cases h
    rfl
  · rename_i hplaces
    cases h
    rw [hplaces]
    rfl
  · exact absurd h (by simp)

/-! ## Documents are told without a fault -/

mutual

theorem run_events : ∀ (d : Document) {n m : Nesting}, n.next = some m →
    n.run d.events = some m.leave
  | .whole v, n, m, h => by simp [Document.events, run, step, h]
  | .array items, n, m, h => by
      have hstart : n.run [.start .array] = some (m.enter .array) := by simp [run, step, h]
      have hitems : (m.enter .array).run (Document.itemEvents items) = some (m.enter .array) :=
        run_itemEvents items m
      have hstop : (m.enter .array).run [.stop .array] = some m.leave := by
        simp [run, step, enter]
      exact run_trans hstart (run_trans hitems hstop)
  | .object members, n, m, h => by
      have hstart : n.run [.start .object] = some (m.enter .object) := by simp [run, step, h]
      have hmembers : (m.enter .object).run (Document.memberEvents members) =
          some (m.enter .object) := run_memberEvents members m
      have hstop : (m.enter .object).run [.stop .object] = some m.leave := by
        simp [run, step, enter]
      exact run_trans hstart (run_trans hmembers hstop)

theorem run_itemEvents : ∀ (items : List Document) (m : Nesting),
    (m.enter .array).run (Document.itemEvents items) = some (m.enter .array)
  | [], _ => rfl
  | item :: rest, m => by
      have hitem : (m.enter .array).run item.events = some (m.enter .array) := by
        rw [run_events item (m := m.enter .array) rfl]
        simp [leave, enter]
      exact run_trans hitem (run_itemEvents rest m)

theorem run_memberEvents : ∀ (members : List (String × Document)) (m : Nesting),
    (m.enter .object).run (Document.memberEvents members) = some (m.enter .object)
  | [], _ => rfl
  | (name, document) :: rest, m => by
      -- the name is told, and then a value is due
      have hnamed : (m.enter .object).run [.field name] =
          some { m with places := .object true :: m.places } := rfl
      have hvalue : ({ m with places := .object true :: m.places } : Nesting).run
          document.events = some (m.enter .object) := by
        rw [run_events document (m := m.enter .object) rfl]
        simp [leave, enter]
      show (m.enter .object).run
        ([.field name] ++ (document.events ++ Document.memberEvents rest)) = _
      exact run_trans hnamed (run_trans hvalue (run_memberEvents rest m))

end

/-! ## What was told is the beginning of a document -/

/-- What was told led here: before each open container something did, and inside of it there are
documents, with a name at the end where one waits for its value. -/
inductive Leads : List Event → Nesting → Prop where
  | start : Leads [] {}
  | finished (d : Document) : Leads d.events ⟨[], true⟩
  | array {told : List Event} {n m : Nesting} (items : List Document) :
      Leads told n → n.next = some m →
      Leads (told ++ .start .array :: Document.itemEvents items) (m.enter .array)
  | object {told : List Event} {n m : Nesting} (members : List (String × Document))
      (name : Option String) : Leads told n → n.next = some m →
      Leads (told ++ .start .object ::
        (Document.memberEvents members ++ name.toList.map .field))
        ⟨.object name.isSome :: m.places, m.ended⟩

/-- Where a value is due, a document can be told. -/
theorem Leads.attach {told : List Event} {n m : Nesting} (h : Leads told n)
    (hn : n.next = some m) (d : Document) : Leads (told ++ d.events) m.leave := by
  cases h with
  | start =>
      cases hn
      exact Leads.finished d
  | finished => exact absurd hn (by simp [next])
  | array items h hm =>
      cases hn
      have hmore := Leads.array (items ++ [d]) h hm
      simpa [leave, enter, Document.itemEvents_append, Document.itemEvents] using hmore
  | object members name h hm =>
      cases name with
      | none => exact absurd hn (by simp [next])
      | some name =>
          cases hn
          have hmore := Leads.object (members ++ [(name, d)]) none h hm
          simpa [leave, Document.memberEvents_append, Document.memberEvents] using hmore

theorem Leads.step {told : List Event} {n m : Nesting} {event : Event} (h : Leads told n)
    (hstep : n.step event = some m) : Leads (told ++ [event]) m := by
  cases event with
  | start kind =>
      obtain ⟨due, hdue, rfl⟩ := Option.map_eq_some_iff.mp hstep
      cases kind with
      | array => exact Leads.array [] h hdue
      | object => exact Leads.object [] none h hdue
  | scalar v =>
      obtain ⟨due, hdue, rfl⟩ := Option.map_eq_some_iff.mp hstep
      exact h.attach hdue (.whole v)
  | stop kind =>
      cases h with
      | start => exact absurd hstep (by simp [Nesting.step])
      | finished => exact absurd hstep (by simp [Nesting.step])
      | array items h hm =>
          cases kind with
          | object => exact absurd hstep (by simp [Nesting.step, enter, Place.new])
          | array =>
              cases hstep
              have hwhole := h.attach hm (.array items)
              simpa [Document.events, enter] using hwhole
      | object members name h hm =>
          cases kind with
          | array => exact absurd hstep (by simp [Nesting.step, Place.new])
          | object =>
              cases name with
              | some name => exact absurd hstep (by simp [Nesting.step, Place.new])
              | none =>
                  cases hstep
                  have hwhole := h.attach hm (.object members)
                  simpa [Document.events] using hwhole
  | field name =>
      cases h with
      | start => exact absurd hstep (by simp [Nesting.step])
      | finished => exact absurd hstep (by simp [Nesting.step])
      | array => exact absurd hstep (by simp [Nesting.step, enter, Place.new])
      | object members waiting h hm =>
          cases waiting with
          | some waiting => exact absurd hstep (by simp [Nesting.step])
          | none =>
              cases hstep
              have hnamed := Leads.object members (some name) h hm
              simpa using hnamed

theorem Leads.run {told events : List Event} {n m : Nesting} (h : Leads told n)
    (hrun : n.run events = some m) : Leads (told ++ events) m := by
  induction events generalizing told n with
  | nil =>
      cases hrun
      rwa [List.append_nil]
  | cons event rest ih =>
      obtain ⟨k, hstep, hrest⟩ := Option.bind_eq_some_iff.mp hrun
      have hmore := ih (h.step hstep) hrest
      rwa [List.append_assoc] at hmore

/-- What is open can be closed: first the innermost container, then what is around it. -/
theorem Leads.begun {told : List Event} {n : Nesting} (h : Leads told n) : Begun told := by
  have hall : ∀ depth, ∀ told n, Leads told n → n.places.length = depth → Begun told := by
    intro depth
    induction depth with
    | zero =>
        intro told n h hdepth
        cases h with
        | start => exact begun_nil
        | finished d => exact ⟨d, List.prefix_rfl⟩
        | array => exact absurd hdepth (by simp [enter])
        | object => exact absurd hdepth (by simp)
    | succ depth ih =>
        intro told n h hdepth
        cases h with
        | start => exact absurd hdepth (by simp)
        | finished => exact absurd hdepth (by simp)
        | array items h hm =>
            have houter := ih _ _ (h.attach hm (.array items))
              (by simpa [leave, enter] using hdepth)
            obtain ⟨d, hd⟩ := houter
            refine ⟨d, List.IsPrefix.trans ⟨[.stop .array], ?_⟩ hd⟩
            simp [Document.events]
        | object members name h hm =>
            cases name with
            | none =>
                have houter := ih _ _ (h.attach hm (.object members))
                  (by simpa [leave] using hdepth)
                obtain ⟨d, hd⟩ := houter
                refine ⟨d, List.IsPrefix.trans ⟨[.stop .object], ?_⟩ hd⟩
                simp [Document.events]
            | some name =>
                -- the name gets a value first
                have houter := ih _ _ (h.attach hm (.object (members ++ [(name, .whole .null)])))
                  (by simpa [leave] using hdepth)
                obtain ⟨d, hd⟩ := houter
                refine ⟨d, List.IsPrefix.trans ⟨[.scalar .null, .stop .object], ?_⟩ hd⟩
                simp [Document.events, Document.memberEvents, Document.memberEvents_append]
  exact hall _ told n h rfl

/-- **The machine runs on the beginnings of documents, and on nothing else.** -/
theorem run_isSome_iff (told : List Event) :
    (∃ n, ({} : Nesting).run told = some n) ↔ Begun told := by
  constructor
  · rintro ⟨n, hrun⟩
    exact (Leads.start.run hrun).begun
  · rintro ⟨d, rest, hd⟩
    have hrun := run_events d (n := {}) (m := {}) rfl
    rw [← hd, run_append] at hrun
    obtain ⟨n, hn, -⟩ := Option.bind_eq_some_iff.mp hrun
    exact ⟨n, hn⟩

/-- No container is open before the first event of a document and after the last. -/
theorem places_eq_nil_iff {told : List Event} {n : Nesting} (h : ({} : Nesting).run told = some n) :
    n.places = [] ↔ told = [] ∨ Complete told := by
  constructor
  · intro hn
    have hleads := Leads.start.run h
    rw [List.nil_append] at hleads
    cases hleads with
    | start => exact Or.inl rfl
    | finished d => exact Or.inr ⟨d, rfl⟩
    | array => exact absurd hn (by simp [enter])
    | object => exact absurd hn (by simp)
  · rintro (rfl | ⟨d, rfl⟩)
    · cases h
      rfl
    · rw [run_events d (m := {}) rfl] at h
      cases h
      rfl

end Nesting

end FieldSelection.Json
