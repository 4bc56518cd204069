import FieldSelection.Proofs.Filtering.Projection
import FieldSelection.Recorder

/-!
# The filter passes on the projection

The filter is a machine that takes one event at a time. It cannot know, when a container
starts, whether anything inside is kept, so it owes the start until something is. `owed` is
this debt of the open frames, and `Passes` says what the machine passes on over a run.

The invariant is about a stretch of events that belong together, such as those of one value
or of the rest of an array. If nothing of them is kept, the machine is where it was and has
passed on nothing. Otherwise it has paid what it owed, passed on what is kept of the stretch,
and owes nothing more for the open frames. `State.release` and `State.after` say this for any
stretch, and both compose over stretches that follow each other.
-/

namespace FieldSelection.Filtering

open Json

/-! ## What open frames owe -/

/-- The openings of the frames whose start is held back, outermost first. -/
def owed : List Frame → List Event
  | [] => []
  | frame :: outer => owed outer ++ if frame.written then [] else frame.opening

@[simp] theorem Frame.opened_opened (frame : Frame) : frame.opened.opened = frame.opened := rfl

theorem owed_opened (frames : List Frame) : owed (frames.map Frame.opened) = [] := by
  induction frames with
  | nil => rfl
  | cons frame outer ih =>
      rw [List.map_cons, owed, ih]
      rfl

theorem map_opened_opened (frames : List Frame) :
    (frames.map Frame.opened).map Frame.opened = frames.map Frame.opened := by
  simp

theorem heldBack_events (s : State) (inner frames : List Frame) :
    (s.heldBack inner frames).map Handoff.event = owed frames := by
  induction frames generalizing inner with
  | nil => rfl
  | cons frame outer ih =>
      rw [State.heldBack, owed, List.map_append, ih]
      congr 1
      split
      · rfl
      · simp [Function.comp_def]

namespace State

theorem passing_events (s : State) (events : List Event) :
    (s.passing events).map Handoff.event = owed s.frames ++ events := by
  rw [passing, List.map_append, heldBack_events]
  simp [Function.comp_def]

/-- What is passed on where this is kept of a stretch. -/
def release (s : State) (kept : List Event) : List Event :=
  if kept = [] then [] else owed s.frames ++ kept

/-- The state behind a stretch of which this was kept, with so many matches. -/
def after (s : State) (kept : List Event) (matched : Nat) : State :=
  { s with
    frames := if kept = [] then s.frames else s.frames.map Frame.opened
    matched := s.matched + matched }

@[simp] theorem release_nil (s : State) : s.release [] = [] := rfl

/-- How a stretch is left depends on what was kept only by whether anything was. -/
theorem after_congr (s : State) {k₁ k₂ : List Event} (h : k₁ = [] ↔ k₂ = []) (n : Nat) :
    s.after k₁ n = s.after k₂ n := by
  by_cases h₁ : k₁ = []
  · rw [h₁, h.mp h₁]
  · simp [after, h₁, mt h.mpr h₁]

theorem release_append (s : State) (k₁ k₂ : List Event) (n : Nat) :
    s.release k₁ ++ (s.after k₁ n).release k₂ = s.release (k₁ ++ k₂) := by
  by_cases h₁ : k₁ = []
  · rw [h₁]
    rfl
  · by_cases h₂ : k₂ = []
    · rw [h₂, release_nil, List.append_nil, List.append_nil]
    · simp [release, after, h₁, h₂, owed_opened]

theorem after_after (s : State) (k₁ k₂ : List Event) (n₁ n₂ : Nat) :
    (s.after k₁ n₁).after k₂ n₂ = s.after (k₁ ++ k₂) (n₁ + n₂) := by
  by_cases h₁ : k₁ = [] <;> by_cases h₂ : k₂ = [] <;>
    simp [after, h₁, h₂, Nat.add_assoc]

theorem after_frames_ne_nil {s : State} (h : s.frames ≠ []) (kept : List Event) (n : Nat) :
    (s.after kept n).frames ≠ [] := by
  rw [after]
  split <;> simpa using h

/-- A stretch leaves the frames as they were, but for the starts that were passed on. -/
theorem after_frames_cons {s : State} {frame : Frame} {outer : List Frame}
    (h : s.frames = frame :: outer) (kept : List Event) (n : Nat) :
    (s.after kept n).frames =
      if kept = [] then frame :: outer else frame.opened :: outer.map Frame.opened := by
  rw [after, h]
  rfl

theorem after_top {s : State} {frame : Frame} {outer : List Frame} (h : s.frames = frame :: outer)
    (kept : List Event) (n : Nat) :
    ∃ frame' outer', (s.after kept n).frames = frame' :: outer' ∧ frame'.kind = frame.kind ∧
      frame'.context = frame.context ∧ frame'.pending = frame.pending := by
  rw [after_frames_cons h]
  split
  · exact ⟨frame, outer, rfl, rfl, rfl, rfl⟩
  · exact ⟨frame.opened, outer.map Frame.opened, rfl, rfl, rfl, rfl⟩

end State

/-! ## Runs -/

/-- From state `s` all events are taken, `out` is passed on, and the machine ends in `s'`. -/
inductive Passes (t : Tree) : State → List Event → List Event → State → Prop where
  | nil {s : State} : Passes t s [] [] s
  | cons {s s' s'' : State} {event : Event} {handoffs : List Handoff} {events out : List Event} :
      s.step t event = .passed handoffs s' → Passes t s' events out s'' →
      Passes t s (event :: events) (handoffs.map Handoff.event ++ out) s''

variable {t : Tree}

theorem Passes.append {s s' s'' : State} {es es' out out' : List Event}
    (h : Passes t s es out s') (h' : Passes t s' es' out' s'') :
    Passes t s (es ++ es') (out ++ out') s'' := by
  induction h with
  | nil => exact h'
  | cons hstep _ ih =>
      rw [List.cons_append, List.append_assoc]
      exact Passes.cons hstep (ih h')

theorem Passes.single {s s' : State} {event : Event} {handoffs : List Handoff}
    (hstep : s.step t event = .passed handoffs s') :
    Passes t s [event] (handoffs.map Handoff.event) s' := by
  have h := Passes.cons hstep Passes.nil
  rwa [List.append_nil] at h

theorem Passes.congr {s s₁ s₂ : State} {es out₁ out₂ : List Event} (h : Passes t s es out₁ s₁)
    (hout : out₁ = out₂) (hs : s₁ = s₂) : Passes t s es out₂ s₂ := by
  rw [← hout, ← hs]
  exact h

/-! ## Values -/

/-- What is passed on of a value that is kept like this, with the name of its field. -/
def keptEvents (field : Option String) : Option Value → List Event
  | none => []
  | some kept => field.toList.map .field ++ kept.events

theorem keptEvents_eq_nil_iff {field : Option String} {kept : Option Value} :
    keptEvents field kept = [] ↔ kept = none := by
  cases kept with
  | none => exact iff_of_true rfl rfl
  | some w => simp [keptEvents, w.events_ne_nil]

/-- What a place keeps of a value; a place that is dropped keeps nothing. -/
def keptOf (t : Tree) (context : Option Context) (v : Value) : Option Value :=
  context.bind fun c => c.project t.graph v

/-- How many matches a value has at a place. -/
def matchedOf (t : Tree) (context : Option Context) (v : Value) : Nat :=
  (context.map fun c => c.matched t.graph v).getD 0

theorem keptOf_of_isScalar {context : Option Context} {v : Value} (hv : v.isScalar = true) :
    keptOf t context v = if context.any (Context.keepsScalar t.graph) then some v else none := by
  cases context with
  | none => rfl
  | some c => exact Context.project_of_isScalar hv

theorem matchedOf_of_isScalar {context : Option Context} {v : Value} (hv : v.isScalar = true) :
    matchedOf t context v = if context.any (Context.keepsScalar t.graph) then 1 else 0 := by
  cases context with
  | none => rfl
  | some c => exact Context.matched_of_isScalar hv

/-- The state behind a container of this kind. Behind the outermost one, the document ends. -/
def State.ended (s : State) (kind : Container) : State :=
  if s.frames = [] then { s with rootKind := some kind, rootDone := true } else s

theorem State.ended_of_ne_nil {s : State} (kind : Container) (h : s.frames ≠ []) :
    s.ended kind = s := if_neg h

theorem passes_scalar {s next : State} {context : Option Context} {field : Option String}
    {v : Value} (hv : v.isScalar = true) (hnext : s.nextValue t = .ok (context, field, next))
    (hin : s.frames ≠ []) :
    Passes t s v.events (next.release (keptEvents field (keptOf t context v)))
      (next.after (keptEvents field (keptOf t context v))
        (if s.isCounted then 0 else matchedOf t context v)) := by
  have hroot : s.frames.isEmpty = false := by simpa using hin
  rw [keptOf_of_isScalar hv, matchedOf_of_isScalar hv, Value.events_of_isScalar hv]
  by_cases hk : context.any (Context.keepsScalar t.graph) = true
  · have hstep : s.step t (.scalar v) =
        .passed (next.passing (field.toList.map .field ++ [.scalar v]))
          (next.opened.count s.isCounted) := by
      simp [State.step, State.scalar, hnext, hroot, hk]
    rw [if_pos hk, if_pos hk, keptEvents, Value.events_of_isScalar hv]
    refine (Passes.single hstep).congr ?_ ?_
    · rw [State.passing_events]
      simp [State.release]
    · cases hcnt : s.isCounted <;> simp [State.count, State.after, State.opened]
  · have hstep : s.step t (.scalar v) = .passed [] next := by
      simp [State.step, State.scalar, hnext, hroot, hk]
    rw [if_neg hk, if_neg hk, ite_self]
    exact Passes.single hstep

/-- The content of a container, wherever one of this kind and context is open: so much of it
is kept, with so many matches. -/
def Keeps (t : Tree) (kind : Container) (context : Option Context) (content kept : List Event)
    (n : Nat) : Prop :=
  ∀ (s : State) (frame : Frame) (outer : List Frame), s.frames = frame :: outer →
    frame.kind = kind → frame.context = context → frame.pending = none →
    Passes t s content (s.release kept) (s.after kept n)

/-- The end of the innermost container is passed on if its start was. -/
theorem step_stop {s : State} {frame : Frame} {outer : List Frame}
    (h : s.frames = frame :: outer) (hp : frame.pending = none) :
    s.step t (.stop frame.kind) =
      .passed (if frame.written then [⟨.stop frame.kind, { s with frames := outer }⟩] else [])
        { s with frames := outer, rootDone := s.rootDone || outer.isEmpty } := by
  simp [State.step, State.stop, h, hp]

/-- A container that is kept as a whole opens at once, and counts once. -/
theorem passes_whole {s next : State} {kind : Container} {field : Option String}
    {content : List Event} (hnext : s.nextValue t = .ok (some .all, field, next))
    (hc : Keeps t kind (some .all) content content 0) :
    Passes t s (.start kind :: (content ++ [.stop kind]))
      (next.release (field.toList.map .field ++ .start kind :: (content ++ [.stop kind])))
      ((next.after [.start kind] (if s.isCounted then 0 else 1)).ended kind) := by
  -- the start is passed on with all that was owed, so nothing is owed while the content is read
  let frame : Frame := { kind, context := some .all, field }
  let inside : State :=
    { next with
      rootKind := if next.frames.isEmpty then some kind else next.rootKind
      frames := frame :: next.frames }
  have hstart : s.step t (.start kind) =
      .passed (inside.passing []) (inside.opened.count s.isCounted) := by
    simp [State.step, State.start, hnext, inside, frame]
  have hframes : (inside.opened.count s.isCounted).frames =
      frame.opened :: next.frames.map Frame.opened := by
    cases s.isCounted <;> rfl
  have hcontent := hc _ _ _ hframes rfl rfl rfl
  have hafter : ((inside.opened.count s.isCounted).after content 0).frames =
      frame.opened :: next.frames.map Frame.opened := by
    rw [State.after_frames_cons hframes, map_opened_opened, Frame.opened_opened, ite_self]
  have hstop := Passes.single (step_stop (t := t) hafter rfl)
  refine (Passes.cons hstart (hcontent.append hstop)).congr ?_ ?_
  · have hnone : owed (inside.opened.count s.isCounted).frames = [] := by
      rw [hframes]
      exact owed_opened (frame :: next.frames)
    have hwhole :
        next.release (field.toList.map .field ++ .start kind :: (content ++ [.stop kind])) =
          owed next.frames ++
            (field.toList.map .field ++ .start kind :: (content ++ [.stop kind])) :=
      if_neg (by simp)
    rw [State.passing_events, List.append_nil, hwhole, State.release, hnone]
    by_cases hk : content = [] <;> simp [hk, inside, frame, owed, Frame.opening, Frame.opened]
  · cases hcnt : s.isCounted <;> cases hf : next.frames <;>
      simp [State.ended, State.after, State.count, State.opened, inside, hf]

/-- A container that is not kept as a whole opens before the first thing kept inside, and
leaves no trace if there is none. -/
theorem passes_partial {s next : State} {kind : Container} {context : Option Context}
    {field : Option String} {content kept : List Event} {n : Nat}
    (hnext : s.nextValue t = .ok (context, field, next)) (hctx : context ≠ some .all)
    (hc : Keeps t kind context content kept n) :
    Passes t s (.start kind :: (content ++ [.stop kind]))
      (next.release (if kept = [] then []
        else field.toList.map .field ++ .start kind :: (kept ++ [.stop kind])))
      ((next.after kept n).ended kind) := by
  let frame : Frame := { kind, context, field }
  let inside : State :=
    { next with
      rootKind := if next.frames.isEmpty then some kind else next.rootKind
      frames := frame :: next.frames }
  have hstart : s.step t (.start kind) = .passed [] inside := by
    simp [State.step, State.start, hnext, inside, frame, hctx]
  have hcontent := hc inside frame next.frames rfl rfl rfl rfl
  have hafter := State.after_frames_cons (s := inside) rfl kept n
  by_cases hk : kept = []
  · -- the frame is as it was, so the end is not passed on either
    rw [if_pos hk] at hafter
    have hstop := Passes.single (step_stop (t := t) hafter rfl)
    refine (Passes.cons hstart (hcontent.append hstop)).congr ?_ ?_
    · simp [hk, frame]
    · cases hf : next.frames <;> simp [State.ended, State.after, inside, hk, hf]
  · -- what was kept paid for the start, so the end is passed on
    rw [if_neg hk] at hafter
    have hstop := Passes.single (step_stop (t := t) hafter rfl)
    refine (Passes.cons hstart (hcontent.append hstop)).congr ?_ ?_
    · simp [State.release, hk, inside, frame, owed, Frame.opening, Frame.opened]
    · cases hf : next.frames <;> simp [State.ended, State.after, inside, hk, hf]

/-- A container whose content is kept like this is kept as the projection says. -/
theorem passes_container {s next : State} {kind : Container} {context : Option Context}
    {field : Option String} {v : Value} {content kept : List Event} {n : Nat}
    (hnext : s.nextValue t = .ok (context, field, next))
    (hcount : s.isCounted = true → context = some .all)
    (hv : v.events = .start kind :: (content ++ [.stop kind]))
    (hwhole : context = some .all → kept = content)
    (hkept : keptEvents field (keptOf t context v) =
      if context = some .all ∨ kept ≠ [] then
        field.toList.map .field ++ .start kind :: (kept ++ [.stop kind])
      else [])
    (hmatched : matchedOf t context v = if context = some .all then 1 else n)
    (hc : Keeps t kind context content kept n) (hzero : context = some .all → n = 0) :
    Passes t s v.events (next.release (keptEvents field (keptOf t context v)))
      ((next.after (keptEvents field (keptOf t context v))
        (if s.isCounted then 0 else matchedOf t context v)).ended kind) := by
  by_cases hctx : context = some .all
  · rw [if_pos (Or.inl hctx), hwhole hctx] at hkept
    rw [hwhole hctx, hzero hctx] at hc
    rw [if_pos hctx] at hmatched
    subst hctx
    rw [hv, hkept, hmatched]
    refine (passes_whole hnext hc).congr rfl ?_
    rw [State.after_congr]
    simp
  · have hnot : ¬ s.isCounted = true := fun h => hctx (hcount h)
    rw [if_neg hctx] at hmatched
    rw [hv, hmatched, if_neg hnot]
    by_cases hk : kept = []
    · rw [if_neg (by simp [hctx, hk])] at hkept
      rw [hkept]
      refine (passes_partial hnext hctx hc).congr ?_ ?_
      · rw [if_pos hk]
      · rw [hk]
    · rw [if_pos (Or.inr hk)] at hkept
      rw [hkept]
      refine (passes_partial hnext hctx hc).congr ?_ ?_
      · rw [if_neg hk]
      · rw [State.after_congr]
        simp [hk]

/-- What a place keeps of the elements of an array. -/
def itemsOf (t : Tree) (context : Option Context) (items : List Value) : List Value :=
  (context.map fun c => c.projectItems t.graph items).getD []

/-- What a place keeps of the fields of an object. -/
def membersOf (t : Tree) (context : Option Context) (members : List (String × Value)) :
    List (String × Value) :=
  (context.map fun c => c.projectMembers t.graph members).getD []

/-- How many matches the elements of an array add. Where the array is kept as a whole, it has
been counted already. -/
def itemMatches (t : Tree) (context : Option Context) (items : List Value) : Nat :=
  if context = some .all then 0
  else (context.map fun c => c.matchedItems t.graph items).getD 0

/-- How many matches the fields of an object add. -/
def memberMatches (t : Tree) (context : Option Context) (members : List (String × Value)) : Nat :=
  if context = some .all then 0
  else (context.map fun c => c.matchedMembers t.graph members).getD 0

theorem keptOf_array (context : Option Context) (items : List Value) :
    keptOf t context (.array items) =
      if context = some .all then some (.array items)
      else Value.ofKept .array (itemsOf t context items) := by
  cases context with
  | none => rfl
  | some c => simp [keptOf, itemsOf, Context.project]

theorem keptOf_object (context : Option Context) (members : List (String × Value)) :
    keptOf t context (.object members) =
      if context = some .all then some (.object members)
      else Value.ofKept .object (membersOf t context members) := by
  cases context with
  | none => rfl
  | some c => simp [keptOf, membersOf, Context.project]

theorem matchedOf_array (context : Option Context) (items : List Value) :
    matchedOf t context (.array items) =
      if context = some .all then 1 else itemMatches t context items := by
  cases context with
  | none => rfl
  | some c => by_cases hc : c = .all <;> simp [matchedOf, itemMatches, Context.matched, hc]

theorem matchedOf_object (context : Option Context) (members : List (String × Value)) :
    matchedOf t context (.object members) =
      if context = some .all then 1 else memberMatches t context members := by
  cases context with
  | none => rfl
  | some c => by_cases hc : c = .all <;> simp [matchedOf, memberMatches, Context.matched, hc]

theorem passes_array {s next : State} {context : Option Context} {field : Option String}
    {items : List Value} (hnext : s.nextValue t = .ok (context, field, next))
    (hcount : s.isCounted = true → context = some .all)
    (hc : Keeps t .array context (Value.itemEvents items)
      (Value.itemEvents (itemsOf t context items)) (itemMatches t context items)) :
    Passes t s (Value.array items).events
      (next.release (keptEvents field (keptOf t context (.array items))))
      ((next.after (keptEvents field (keptOf t context (.array items)))
        (if s.isCounted then 0 else matchedOf t context (.array items))).ended .array) := by
  refine passes_container hnext hcount rfl ?_ ?_ (matchedOf_array context items) hc
    fun hall => if_pos hall
  · rintro rfl
    simp [itemsOf, Context.projectItems_all]
  · rw [keptOf_array]
    by_cases hall : context = some .all
    · simp [hall, keptEvents, Value.events, itemsOf, Context.projectItems_all]
    · cases itemsOf t context items <;>
        simp [hall, keptEvents, Value.ofKept, Value.itemEvents, Value.events, Value.events_ne_nil]

theorem passes_object {s next : State} {context : Option Context} {field : Option String}
    {members : List (String × Value)} (hnext : s.nextValue t = .ok (context, field, next))
    (hcount : s.isCounted = true → context = some .all)
    (hc : Keeps t .object context (Value.memberEvents members)
      (Value.memberEvents (membersOf t context members)) (memberMatches t context members)) :
    Passes t s (Value.object members).events
      (next.release (keptEvents field (keptOf t context (.object members))))
      ((next.after (keptEvents field (keptOf t context (.object members)))
        (if s.isCounted then 0 else matchedOf t context (.object members))).ended .object) := by
  refine passes_container hnext hcount rfl ?_ ?_ (matchedOf_object context members) hc
    fun hall => if_pos hall
  · rintro rfl
    simp [membersOf, Context.projectMembers_all]
  · rw [keptOf_object]
    by_cases hall : context = some .all
    · simp [hall, keptEvents, Value.events, membersOf, Context.projectMembers_all]
    · cases membersOf t context members <;>
        simp [hall, keptEvents, Value.ofKept, Value.memberEvents, Value.events]

/-! ## The invariant over a value -/

@[simp] theorem itemsOf_nil (context : Option Context) : itemsOf t context [] = [] := by
  cases context <;> rfl

@[simp] theorem membersOf_nil (context : Option Context) : membersOf t context [] = [] := by
  cases context <;> rfl

@[simp] theorem itemMatches_nil (context : Option Context) : itemMatches t context [] = 0 := by
  rw [itemMatches]
  cases context <;> simp [Context.matchedItems]

@[simp] theorem memberMatches_nil (context : Option Context) :
    memberMatches t context [] = 0 := by
  rw [memberMatches]
  cases context <;> simp [Context.matchedMembers]

theorem itemsOf_cons (context : Option Context) (item : Value) (rest : List Value) :
    itemsOf t context (item :: rest) =
      (keptOf t context item).toList ++ itemsOf t context rest := by
  cases context <;> rfl

theorem membersOf_cons (context : Option Context) (name : String) (value : Value)
    (rest : List (String × Value)) :
    membersOf t context ((name, value) :: rest) =
      ((keptOf t (context.bind (Context.field t.graph name)) value).map
        fun kept => (name, kept)).toList ++ membersOf t context rest := by
  cases context with
  | none => rfl
  | some c =>
      rw [membersOf, membersOf, keptOf]
      cases hc : c.field t.graph name <;> simp [Context.projectMembers, hc]

theorem itemMatches_cons (context : Option Context) (item : Value) (rest : List Value) :
    itemMatches t context (item :: rest) =
      (if context = some .all then 0 else matchedOf t context item) +
        itemMatches t context rest := by
  by_cases hall : context = some .all
  · simp [itemMatches, hall]
  · cases context with
    | none => rfl
    | some c => simp [itemMatches, matchedOf, Context.matchedItems, hall]

theorem memberMatches_cons (context : Option Context) (name : String) (value : Value)
    (rest : List (String × Value)) :
    memberMatches t context ((name, value) :: rest) =
      (if context = some .all then 0
        else matchedOf t (context.bind (Context.field t.graph name)) value) +
        memberMatches t context rest := by
  by_cases hall : context = some .all
  · simp [memberMatches, hall]
  · cases context with
    | none => rfl
    | some c =>
        cases hfield : c.field t.graph name <;>
          simp [memberMatches, matchedOf, Context.matchedMembers, hall, hfield]

theorem keptEvents_none (kept : Option Value) :
    keptEvents none kept = Value.itemEvents kept.toList := by
  cases kept <;> simp [keptEvents, Value.itemEvents]

theorem keptEvents_some (name : String) (kept : Option Value) :
    keptEvents (some name) kept =
      Value.memberEvents (kept.map fun kept => (name, kept)).toList := by
  cases kept <;> simp [keptEvents, Value.memberEvents]

theorem State.isCounted_cons {s : State} {frame : Frame} {outer : List Frame}
    (h : s.frames = frame :: outer) : s.isCounted = (frame.context == some .all) := by
  rw [State.isCounted, h]

theorem State.nextValue_array {s : State} {frame : Frame} {outer : List Frame}
    (h : s.frames = frame :: outer) (hk : frame.kind = .array) :
    s.nextValue t = .ok (frame.context, none, s) := by
  rw [State.nextValue, h]
  simp [hk]

/-- The state in which the value of a field is due, and what comes of it. -/
theorem step_field {s : State} {frame : Frame} {outer : List Frame}
    (h : s.frames = frame :: outer) (hk : frame.kind = .object) (hp : frame.pending = none)
    (name : String) :
    ∃ s', s.step t (.field name) = .passed [] s' ∧
      s'.nextValue t = .ok (frame.context.bind (Context.field t.graph name), some name, s) ∧
      s'.frames ≠ [] ∧ s'.isCounted = s.isCounted := by
  obtain ⟨frames, rootKind, rootDone, matched⟩ := s
  obtain ⟨kind, context, own, written, pending⟩ := frame
  subst h hk hp
  let due : PendingField := ⟨name, context.bind (Context.field t.graph name)⟩
  exact ⟨⟨⟨.object, context, own, written, some due⟩ :: outer, rootKind, rootDone, matched⟩,
    rfl, rfl, List.cons_ne_nil _ _, rfl⟩

mutual

/-- **What is passed on of a value is what its place keeps of it.** -/
theorem passes_value : ∀ (v : Value) {s next : State} {context : Option Context}
    {field : Option String}, s.nextValue t = .ok (context, field, next) →
    next.frames ≠ [] → s.frames ≠ [] → (s.isCounted = true → context = some .all) →
    Passes t s v.events (next.release (keptEvents field (keptOf t context v)))
      (next.after (keptEvents field (keptOf t context v))
        (if s.isCounted then 0 else matchedOf t context v))
  | .array items, _, _, context, _, hnext, hin, _, hcount => by
      refine (passes_array hnext hcount (keeps_items items context)).congr rfl ?_
      exact State.ended_of_ne_nil _ (State.after_frames_ne_nil hin _ _)
  | .object members, _, _, context, _, hnext, hin, _, hcount => by
      refine (passes_object hnext hcount (keeps_members members context)).congr rfl ?_
      exact State.ended_of_ne_nil _ (State.after_frames_ne_nil hin _ _)
  | .null, _, _, _, _, hnext, _, hin, _ => passes_scalar rfl hnext hin
  | .bool _, _, _, _, _, hnext, _, hin, _ => passes_scalar rfl hnext hin
  | .number _, _, _, _, _, hnext, _, hin, _ => passes_scalar rfl hnext hin
  | .string _, _, _, _, _, hnext, _, hin, _ => passes_scalar rfl hnext hin

theorem keeps_items : ∀ (items : List Value) (context : Option Context),
    Keeps t .array context (Value.itemEvents items)
      (Value.itemEvents (itemsOf t context items)) (itemMatches t context items)
  | [], context => by
      intro s frame outer _ _ _ _
      rw [itemsOf_nil, itemMatches_nil]
      exact Passes.nil
  | item :: rest, context => by
      intro s frame outer hf hk hctx hp
      have hitem := passes_value item (State.nextValue_array hf hk) (by simp [hf]) (by simp [hf])
        (by simp [State.isCounted_cons hf])
      obtain ⟨frame', outer', hf', hk', hctx', hp'⟩ := State.after_top hf
        (keptEvents none (keptOf t frame.context item))
        (if s.isCounted then 0 else matchedOf t frame.context item)
      -- the first element leaves a frame of the same context, in which the rest is read
      have hrest := keeps_items rest context _ frame' outer' hf' (hk'.trans hk)
        (hctx'.trans hctx) (hp'.trans hp)
      refine (hitem.append hrest).congr ?_ ?_
      · rw [State.release_append, itemsOf_cons, Value.itemEvents_append, keptEvents_none, hctx]
      · rw [State.after_after, itemsOf_cons, Value.itemEvents_append, keptEvents_none, hctx]
        rw [State.isCounted_cons hf, hctx, itemMatches_cons]
        simp only [beq_iff_eq]

theorem keeps_members : ∀ (members : List (String × Value)) (context : Option Context),
    Keeps t .object context (Value.memberEvents members)
      (Value.memberEvents (membersOf t context members)) (memberMatches t context members)
  | [], context => by
      intro s frame outer _ _ _ _
      rw [membersOf_nil, memberMatches_nil]
      exact Passes.nil
  | (name, value) :: rest, context => by
      intro s frame outer hf hk hctx hp
      obtain ⟨s', hstep, hnext, hin', hcounted⟩ := step_field (t := t) hf hk hp name
      have hvalue := passes_value value hnext (by simp [hf]) hin' (by
        rw [hcounted, State.isCounted_cons hf]
        intro hall
        rw [beq_iff_eq.mp hall]
        rfl)
      obtain ⟨frame', outer', hf', hk', hctx', hp'⟩ := State.after_top hf
        (keptEvents (some name)
          (keptOf t (frame.context.bind (Context.field t.graph name)) value))
        (if s'.isCounted then 0
          else matchedOf t (frame.context.bind (Context.field t.graph name)) value)
      have hrest := keeps_members rest context _ frame' outer' hf' (hk'.trans hk)
        (hctx'.trans hctx) (hp'.trans hp)
      refine (Passes.cons hstep (hvalue.append hrest)).congr ?_ ?_
      · rw [State.release_append, membersOf_cons, Value.memberEvents_append, keptEvents_some, hctx]
        rfl
      · rw [State.after_after, membersOf_cons, Value.memberEvents_append, keptEvents_some, hctx]
        rw [hcounted, State.isCounted_cons hf, hctx, memberMatches_cons]
        simp only [beq_iff_eq]

end

end FieldSelection.Filtering
