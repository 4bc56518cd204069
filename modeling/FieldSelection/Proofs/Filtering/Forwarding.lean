import FieldSelection.Proofs.Json.Acceptance

/-!
# What the filter takes and what it passes on

The filter follows the nesting of what it is told, whatever the tree keeps of it, so it judges
sequences of events like a writer does.

What it passes on is another sequence, with a nesting of its own: the open containers are those
whose start was passed on. Two facts about the open frames keep it going. A start is passed on
only after those around it, and a frame has a field exactly if it is inside of an object. So what
is owed can always be passed on, and what was passed on is the beginning of a document at any
time. As long as nothing matched, nothing was passed on, so the empty container at the end is a
document of its own.
-/

namespace FieldSelection

open Json

namespace Filtering

variable {t : Tree}

/-! ## The nesting of what the filter is told -/

/-- An open container as the nesting has it. -/
def Frame.place (frame : Frame) : Place :=
  match frame.kind with
  | .array => .array
  | .object => .object frame.pending.isSome

/-- How far the document has been told. -/
def State.nesting (s : State) : Nesting := ⟨s.frames.map Frame.place, s.rootDone⟩

/-- The nesting that a step leads to, if it does not refuse. -/
def Step.nesting? : Step → Option Nesting
  | .refused _ _ => none
  | .passed _ s => some s.nesting

@[simp] theorem State.nesting_opened (s : State) : s.opened.nesting = s.nesting := by
  simp [nesting, opened, Function.comp_def, Frame.opened, Frame.place]

@[simp] theorem State.nesting_count (s : State) (counted : Bool) :
    (s.count counted).nesting = s.nesting := by
  cases counted <;> rfl

/-- The field belongs to a value inside of these frames. -/
def Belongs (field : Option String) : List Frame → Prop
  | [] => field = none
  | frame :: _ => field.isSome = true ↔ frame.kind = .object

/-- Open frames as they lie in each other. -/
inductive Nested : List Frame → Prop where
  | nil : Nested []
  | cons {frame : Frame} {outer : List Frame} : Belongs frame.field outer →
      (frame.written = true → ∀ around ∈ outer, around.written = true) →
      (frame.kind = .array → frame.pending = none) → Nested outer → Nested (frame :: outer)

/-- The next value is due for the filter where it is due in the nesting. -/
theorem nextValue_nesting {s : State} (h : Nested s.frames) :
    (∃ why, s.nextValue t = .error why ∧ s.nesting.next = none) ∨
    (∃ context field next, s.nextValue t = .ok (context, field, next) ∧
      s.nesting.next = some next.nesting ∧ next.frames.isEmpty = s.frames.isEmpty) := by
  obtain ⟨frames, rootKind, rootDone, matched⟩ := s
  cases h with
  | nil =>
      cases rootDone
      · exact Or.inr ⟨_, _, _, rfl, rfl, rfl⟩
      · exact Or.inl ⟨_, rfl, rfl⟩
  | @cons frame outer _ _ hpending _ =>
      obtain ⟨kind, context, own, written, pending⟩ := frame
      cases kind with
      | array =>
          cases hpending rfl
          exact Or.inr ⟨_, _, _, rfl, rfl, rfl⟩
      | object =>
          cases pending
          · exact Or.inl ⟨_, rfl, rfl⟩
          · exact Or.inr ⟨_, _, _, rfl, rfl, rfl⟩

theorem step_nesting {s : State} (h : Nested s.frames) (event : Event) :
    (s.step t event).nesting? = s.nesting.step event := by
  cases event with
  | start kind =>
      rcases nextValue_nesting (t := t) h with ⟨why, hnext, hdue⟩ |
        ⟨context, field, next, hnext, hdue, -⟩
      · simp [State.step, State.start, hnext, Nesting.step, hdue, Step.nesting?]
      · rw [Nesting.step, hdue, State.step, State.start, hnext]
        simp only
        split <;> simp only [Step.nesting?, State.nesting_count, State.nesting_opened] <;>
          cases kind <;> rfl
  | scalar v =>
      rcases nextValue_nesting (t := t) h with ⟨why, hnext, hdue⟩ |
        ⟨context, field, next, hnext, hdue, hempty⟩
      · simp [State.step, State.scalar, hnext, Nesting.step, hdue, Step.nesting?]
      · rw [Nesting.step, hdue, State.step, State.scalar, hnext]
        simp only
        split <;> simp only [Step.nesting?, State.nesting_count, State.nesting_opened] <;>
          simp [State.nesting, Nesting.leave, ← hempty]
  | stop kind =>
      obtain ⟨frames, rootKind, rootDone, matched⟩ := s
      cases h with
      | nil => rfl
      | @cons frame outer _ _ hpending _ =>
          obtain ⟨own, context, field, written, pending⟩ := frame
          cases own with
          | array =>
              cases hpending rfl
              cases kind <;>
                simp [State.step, State.stop, Nesting.step, State.nesting, Frame.place, Place.new,
                  Step.nesting?, Nesting.leave]
          | object =>
              cases kind <;> cases pending <;>
                simp [State.step, State.stop, Nesting.step, State.nesting, Frame.place, Place.new,
                  Step.nesting?, Nesting.leave]
  | field name =>
      obtain ⟨frames, rootKind, rootDone, matched⟩ := s
      rcases frames with _ | ⟨⟨_ | _, context, own, written, _ | pending⟩, outer⟩ <;> rfl

/-! ## The nesting of what it passes on -/

/-- The open containers of frames whose starts were all passed on. -/
def opens (frames : List Frame) : List Place := frames.map fun frame => .new frame.kind

/-- The frames whose starts were passed on. -/
def written (frames : List Frame) : List Frame := frames.filter (·.written)

/-- These events were passed on so far, and the open frames fit them. -/
structure Told (s : State) (out : List Event) : Prop where
  nested : Nested s.frames
  run : ∃ ended, ({} : Nesting).run out = some ⟨opens (written s.frames), ended⟩ ∧
    (ended = true → s.rootDone = true)
  undone : s.frames ≠ [] → s.rootDone = false

/-- As long as nothing matched, these events are none. -/
structure Sent (s : State) (out : List Event) : Prop extends Told s out where
  silent : s.matched = 0 →
    out = [] ∧ ∀ frame ∈ s.frames, frame.written = false ∧ frame.context ≠ some .all

theorem owed_of_written {frames : List Frame} (h : ∀ frame ∈ frames, frame.written = true) :
    owed frames = [] := by
  induction frames with
  | nil => rfl
  | cons frame outer ih =>
      rw [owed, ih fun f hf => h f (List.mem_cons_of_mem _ hf),
        if_pos (h frame List.mem_cons_self)]
      rfl

theorem Nested.opened {frames : List Frame} (h : Nested frames) :
    Nested (frames.map Frame.opened) := by
  induction h with
  | nil => exact Nested.nil
  | @cons frame outer hbelongs _ hpending _ ih =>
      refine Nested.cons ?_ ?_ hpending ih
      · cases outer <;> exact hbelongs
      · intro _ around haround
        obtain ⟨f, -, rfl⟩ := List.mem_map.mp haround
        rfl

/-- A value may follow the name of the field that it belongs to. -/
theorem run_field {frames : List Frame} {field : Option String} (h : Belongs field frames) :
    ∃ due, (⟨opens frames, false⟩ : Nesting).run (field.toList.map .field) = some due ∧
      due.next = some ⟨opens frames, false⟩ := by
  cases frames with
  | nil =>
      cases h
      exact ⟨_, rfl, rfl⟩
  | cons frame outer =>
      obtain ⟨kind, context, own, written, pending⟩ := frame
      cases kind with
      | array =>
          cases field with
          | none => exact ⟨_, rfl, rfl⟩
          | some name => exact absurd (h.mp rfl) (by simp)
      | object =>
          cases field with
          | none => exact absurd (h.mpr rfl) (by simp)
          | some name => exact ⟨_, rfl, rfl⟩

/-- What is owed can be passed on: it opens the containers that were not. -/
theorem run_owed {frames : List Frame} (h : Nested frames) :
    (⟨opens (written frames), false⟩ : Nesting).run (owed frames) =
      some ⟨opens frames, false⟩ := by
  induction h with
  | nil => rfl
  | @cons frame outer hbelongs hwritten _ _ ih =>
      by_cases hw : frame.written = true
      · have hall : ∀ f ∈ frame :: outer, f.written = true := by
          intro f hf
          rcases List.mem_cons.mp hf with rfl | hf
          · exact hw
          · exact hwritten hw f hf
        rw [owed_of_written hall, written, List.filter_eq_self.mpr hall]
        rfl
      · have hskip : written (frame :: outer) = written outer := List.filter_cons_of_neg hw
        rw [hskip, owed, if_neg hw]
        obtain ⟨due, hdue, hnext⟩ := run_field hbelongs
        have hstart : due.run [.start frame.kind] = some ⟨opens (frame :: outer), false⟩ := by
          rw [Nesting.run_singleton, Nesting.step, hnext]
          rfl
        exact Nesting.run_trans ih (Nesting.run_trans hdue hstart)

theorem written_opened (frames : List Frame) :
    written (frames.map Frame.opened) = frames.map Frame.opened := by
  refine List.filter_eq_self.mpr fun frame hframe => ?_
  obtain ⟨f, -, rfl⟩ := List.mem_map.mp hframe
  rfl

theorem opens_opened (frames : List Frame) : opens (frames.map Frame.opened) = opens frames := by
  simp [opens, Function.comp_def, Frame.opened]

namespace Told

variable {s : State} {out : List Event}

theorem begun (h : Told s out) : Begun out := by
  obtain ⟨ended, hrun, -⟩ := h.run
  exact (Nesting.run_isSome_iff out).mp ⟨_, hrun⟩

/-- In the middle of a document, what is owed can be passed on. -/
theorem run_pay (h : Told s out) (hdone : s.rootDone = false) :
    ({} : Nesting).run (out ++ owed s.frames) = some ⟨opens s.frames, false⟩ := by
  obtain ⟨ended, hrun, hended⟩ := h.run
  cases ended with
  | true => exact absurd (hended rfl) (by simp [hdone])
  | false => exact Nesting.run_trans hrun (run_owed h.nested)

theorem congr {s' : State} (h : Told s out) (hframes : s'.frames = s.frames)
    (hdone : s'.rootDone = s.rootDone) : Told s' out := by
  obtain ⟨hnested, hrun, hundone⟩ := h
  rw [← hframes] at hnested hrun hundone
  rw [← hdone] at hrun hundone
  exact ⟨hnested, hrun, hundone⟩

/-- What is kept opens what is around it. -/
theorem pay (h : Told s out) (hdone : s.rootDone = false) :
    Told s.opened (out ++ owed s.frames) := by
  refine ⟨h.nested.opened, ⟨false, ?_, by simp⟩, fun _ => hdone⟩
  rw [h.run_pay hdone, State.opened, written_opened, opens_opened]

/-- A scalar is passed on, after what is owed and the name of its field. -/
theorem scalar (h : Told s out) (hdone : s.rootDone = false) {field : Option String}
    (hbelongs : Belongs field s.frames) (v : Value) :
    Told { s.opened with rootDone := s.rootDone || s.frames.isEmpty }
      (out ++ (owed s.frames ++ (field.toList.map .field ++ [.scalar v]))) := by
  obtain ⟨due, hdue, hnext⟩ := run_field hbelongs
  have hscalar : due.run [.scalar v] = some ⟨opens s.frames, s.frames.isEmpty⟩ := by
    rw [Nesting.run_singleton, Nesting.step, hnext]
    simp [Nesting.leave, opens]
  refine ⟨h.nested.opened, ⟨s.frames.isEmpty, ?_, fun he => by simp [he]⟩, fun hne => ?_⟩
  · rw [State.opened, written_opened, opens_opened, ← List.append_assoc]
    exact Nesting.run_trans (h.run_pay hdone) (Nesting.run_trans hdue hscalar)
  · show (s.rootDone || s.frames.isEmpty) = false
    rw [hdone, Bool.false_or]
    simpa [State.opened] using hne

/-- A container starts, and its start is held back. -/
theorem push (h : Told s out) (hdone : s.rootDone = false) {field : Option String}
    (hbelongs : Belongs field s.frames) (kind : Container) (context : Option Context)
    (rootKind : Option Container) :
    Told { s with rootKind, frames := { kind, context, field } :: s.frames } out := by
  refine ⟨Nested.cons hbelongs (by simp) (fun _ => rfl) h.nested, ?_, fun _ => hdone⟩
  obtain ⟨ended, hrun, hended⟩ := h.run
  exact ⟨ended, hrun, hended⟩

/-- The innermost object gets a name, or the name its value. -/
theorem rename (h : Told s out) {frame : Frame} {outer : List Frame}
    (hf : s.frames = frame :: outer) (hk : frame.kind = .object) (pending : Option PendingField) :
    Told { s with frames := { frame with pending } :: outer } out := by
  obtain ⟨hnested, ⟨ended, hrun, hended⟩, hundone⟩ := h
  rw [hf] at hnested hrun
  cases hnested with
  | cons hbelongs hwritten _ houter =>
      refine ⟨Nested.cons hbelongs hwritten (fun hk' => ?_) houter, ⟨ended, ?_, hended⟩,
        fun _ => hundone (by simp [hf])⟩
      · exact absurd (hk.symm.trans hk') (by simp)
      · rw [hrun]
        cases hw : frame.written <;> simp [written, opens, hw]

/-- The innermost container ends. Its end is passed on if its start was. -/
theorem pop (h : Told s out) {frame : Frame} {outer : List Frame}
    (hf : s.frames = frame :: outer) :
    Told { s with frames := outer, rootDone := s.rootDone || outer.isEmpty }
      (out ++ if frame.written then [.stop frame.kind] else []) := by
  obtain ⟨hnested, ⟨ended, hrun, hended⟩, hundone⟩ := h
  rw [hf] at hnested hrun
  have hdone : s.rootDone = false := hundone (by simp [hf])
  cases hnested with
  | cons hbelongs hwritten _ houter =>
      refine ⟨houter, ?_, fun hne => ?_⟩
      · by_cases hw : frame.written = true
        · -- all that is around was written, so the document ends where the last container does
          have hall : written outer = outer := List.filter_eq_self.mpr (hwritten hw)
          have htop : written (frame :: outer) = frame :: written outer :=
            List.filter_cons_of_pos hw
          rw [if_pos hw, hall]
          rw [htop, hall] at hrun
          refine ⟨ended || outer.isEmpty, ?_, ?_⟩
          · refine Nesting.run_trans hrun ?_
            rw [Nesting.run_singleton]
            cases outer <;> simp [Nesting.step, opens, Nesting.leave]
          · rw [Bool.or_eq_true, Bool.or_eq_true]
            exact Or.imp_left hended
        · have hskip : written (frame :: outer) = written outer := List.filter_cons_of_neg hw
          rw [if_neg hw, List.append_nil]
          rw [hskip] at hrun
          refine ⟨ended, hrun, fun he => ?_⟩
          rw [hended he]
          rfl
      · show (s.rootDone || outer.isEmpty) = false
        rw [hdone, Bool.false_or]
        simpa using hne

/-- Once something matched, it does not matter what was passed on. -/
theorem counted (h : Told s out) {counted : Bool} (hmatched : counted = true → s.matched ≠ 0) :
    Sent (s.count counted) out := by
  cases counted with
  | true => exact ⟨h, fun hzero => absurd hzero (hmatched rfl)⟩
  | false => exact ⟨h.congr rfl rfl, fun hzero => absurd hzero (Nat.succ_ne_zero _)⟩

end Told

/-- At the end of a document without a match an empty container is passed on, and else nothing. -/
theorem State.close_passed {s s' : State} {handoffs : List Handoff}
    (h : s.close = .passed handoffs s') :
    s.frames = [] ∧ (handoffs = [] ∨
      s.matched = 0 ∧ ∃ kind, handoffs.map Handoff.event = [.start kind, .stop kind]) := by
  rw [State.close] at h
  split at h
  · exact absurd h (by simp)
  · rename_i hframes
    refine ⟨hframes, ?_⟩
    split at h
    · rename_i kind hzero _
      cases h
      exact Or.inr ⟨hzero, kind, rfl⟩
    · cases h
      exact Or.inl rfl

namespace Sent

variable {s : State} {out : List Event}

theorem init : Sent {} [] :=
  ⟨⟨Nested.nil, ⟨false, rfl, by simp⟩, by simp⟩, fun _ => ⟨rfl, by simp⟩⟩

theorem rename (h : Sent s out) {frame : Frame} {outer : List Frame}
    (hf : s.frames = frame :: outer) (hk : frame.kind = .object) (pending : Option PendingField) :
    Sent { s with frames := { frame with pending } :: outer } out := by
  refine ⟨h.toTold.rename hf hk pending, fun hzero => ?_⟩
  have hsilent := h.silent hzero
  rw [hf] at hsilent
  simpa using hsilent

/-- Where a value is due, the document is not over, and the value belongs to the field. -/
theorem due (h : Sent s out) {context : Option Context} {field : Option String} {next : State}
    (hnext : s.nextValue t = .ok (context, field, next)) :
    Sent next out ∧ next.rootDone = false ∧ Belongs field next.frames ∧
      next.isCounted = s.isCounted ∧ next.frames.isEmpty = s.frames.isEmpty := by
  cases hf : s.frames with
  | nil =>
      rw [State.nextValue, hf] at hnext
      cases hdone : s.rootDone with
      | true => exact absurd hnext (by simp [hdone])
      | false =>
          simp only [hdone] at hnext
          cases hnext
          exact ⟨h, hdone, by rw [hf]; rfl, rfl, by rw [hf]⟩
  | cons frame outer =>
      have hdone : s.rootDone = false := h.undone (by simp [hf])
      rw [State.nextValue, hf] at hnext
      cases hk : frame.kind with
      | array =>
          simp only [hk] at hnext
          cases hnext
          exact ⟨h, hdone, by rw [hf]; simp [Belongs, hk], rfl, by rw [hf]⟩
      | object =>
          cases hp : frame.pending with
          | none => simp [hk, hp] at hnext
          | some pending =>
              simp only [hk, hp] at hnext
              cases hnext
              have hrename := h.rename hf hk none
              rw [hk] at hrename
              exact ⟨hrename, hdone, by simp [Belongs], by simp [State.isCounted, hf], rfl⟩

/-- A container that is kept as a whole was a match. -/
theorem matched_ne_zero (h : Sent s out) (hcounted : s.isCounted = true) : s.matched ≠ 0 := by
  intro hzero
  rw [State.isCounted] at hcounted
  split at hcounted
  · exact absurd hcounted (by simp)
  · rename_i frame outer hf
    have hnot := ((h.silent hzero).2 frame (by simp [hf])).2
    exact hnot (by simpa using hcounted)

/-- **What one event passes on goes on with what was passed on before.** -/
theorem step {s' : State} {event : Event} {handoffs : List Handoff} (h : Sent s out)
    (hstep : s.step t event = .passed handoffs s') :
    Sent s' (out ++ handoffs.map Handoff.event) := by
  cases event with
  | start kind =>
      rw [State.step, State.start] at hstep
      split at hstep
      · exact absurd hstep (by simp)
      · rename_i context field next hnext
        obtain ⟨hsent, hdone, hbelongs, hcounted, -⟩ := h.due hnext
        simp only at hstep
        -- the container is open from now on, whether its start is passed on or held back
        have hpush := hsent.toTold.push hdone hbelongs kind context
          (if next.frames.isEmpty then some kind else next.rootKind)
        have hmatched := hsent.matched_ne_zero
        rw [hcounted] at hmatched
        split at hstep
        · cases hstep
          rw [State.passing_events, List.append_nil]
          exact (hpush.pay hdone).counted hmatched
        · rename_i hctx
          cases hstep
          rw [List.map_nil, List.append_nil]
          refine ⟨hpush, fun hzero => ?_⟩
          obtain ⟨hout, hframes⟩ := hsent.silent hzero
          refine ⟨hout, fun frame hframe => ?_⟩
          rcases List.mem_cons.mp hframe with rfl | hframe
          · exact ⟨rfl, hctx⟩
          · exact hframes frame hframe
  | scalar v =>
      rw [State.step, State.scalar] at hstep
      split at hstep
      · exact absurd hstep (by simp)
      · rename_i context field next hnext
        obtain ⟨hsent, hdone, hbelongs, hcounted, hempty⟩ := h.due hnext
        simp only at hstep
        have hmatched := hsent.matched_ne_zero
        rw [hcounted] at hmatched
        split at hstep
        · cases hstep
          rw [State.passing_events]
          rw [← hempty]
          exact (hsent.toTold.scalar hdone hbelongs v).counted hmatched
        · rename_i hkeep
          cases hstep
          -- only inside of a container is a scalar left out
          have hroot : s.frames.isEmpty = false := by
            rw [Bool.or_eq_true, not_or] at hkeep
            simpa using hkeep.1
          rw [hroot, Bool.or_false, List.map_nil, List.append_nil]
          exact hsent
  | stop kind =>
      rw [State.step, State.stop] at hstep
      split at hstep
      · exact absurd hstep (by simp)
      · rename_i frame outer hf
        simp only at hstep
        split at hstep
        · exact absurd hstep (by simp)
        · rename_i hkind
          split at hstep
          · exact absurd hstep (by simp)
          · cases hstep
            obtain rfl : frame.kind = kind := Decidable.not_not.mp hkind
            have hpop := h.toTold.pop hf
            have hevents : (if frame.written then
                [(⟨.stop frame.kind, { s with frames := outer }⟩ : Handoff)] else []).map
                Handoff.event = if frame.written then [.stop frame.kind] else [] := by
              split <;> rfl
            rw [hevents]
            refine ⟨hpop, fun hzero => ?_⟩
            -- without a match the start was held back, and so is the end
            obtain ⟨hout, hframes⟩ := h.silent hzero
            rw [hf] at hframes
            refine ⟨?_, fun f hmem => hframes f (List.mem_cons_of_mem _ hmem)⟩
            rw [hout, (hframes frame List.mem_cons_self).1]
            rfl
  | field name =>
      rw [State.step, State.field] at hstep
      split at hstep
      · exact absurd hstep (by simp)
      · rename_i frame outer hf
        split at hstep
        · rename_i hkind hpending
          cases hstep
          rw [List.map_nil, List.append_nil]
          exact h.rename hf hkind _
        · exact absurd hstep (by simp)

theorem passes {s' : State} {told more : List Event} (h : Sent s out)
    (hpasses : Passes t s told more s') : Sent s' (out ++ more) := by
  induction hpasses generalizing out with
  | nil => rwa [List.append_nil]
  | cons hstep _ ih =>
      rw [← List.append_assoc]
      exact ih (h.step hstep)

theorem close {s' : State} {handoffs : List Handoff} (h : Sent s out)
    (hclose : s.close = .passed handoffs s') :
    out ++ handoffs.map Handoff.event = [] ∨ Complete (out ++ handoffs.map Handoff.event) := by
  obtain ⟨hframes, hnone | ⟨hzero, kind, hempty⟩⟩ := State.close_passed hclose
  · rw [hnone, List.map_nil, List.append_nil]
    obtain ⟨ended, hrun, -⟩ := h.run
    refine (Nesting.places_eq_nil_iff hrun).mp ?_
    rw [hframes]
    rfl
  · rw [(h.silent hzero).1, hempty]
    exact Or.inr (complete_empty kind)

/-- Over a run the filter follows the nesting of what it is told. -/
theorem nesting_of_passes {s' : State} {told more : List Event} (h : Sent s out)
    (hpasses : Passes t s told more s') : s.nesting.run told = some s'.nesting := by
  induction hpasses generalizing out with
  | nil => rfl
  | cons hstep _ ih =>
      rw [Nesting.run, ← step_nesting (t := t) h.nested, hstep]
      exact ih (h.step hstep)

/-- The filter takes what the nesting allows. -/
theorem exists_passes {told : List Event} {n : Nesting} (h : Sent s out)
    (hrun : s.nesting.run told = some n) : ∃ more s', Passes t s told more s' := by
  induction told generalizing s out with
  | nil => exact ⟨[], s, Passes.nil⟩
  | cons event rest ih =>
      rw [Nesting.run, ← step_nesting (t := t) h.nested] at hrun
      cases hstep : s.step t event with
      | refused why s' =>
          rw [hstep] at hrun
          exact absurd hrun (by simp [Step.nesting?])
      | passed handoffs s' =>
          rw [hstep] at hrun
          obtain ⟨more, s'', hpasses⟩ := ih (h.step hstep) hrun
          exact ⟨_, s'', Passes.cons hstep hpasses⟩

end Sent

/-! ## In front of a sink -/

section

variable {σ : Type} [Sink σ]

theorem writeAll_of_pass {f f' : Filtering σ} {state : State} {handoffs : List Handoff}
    (h : f.pass state handoffs = .accepted f') :
    ∃ inner, Sink.writeAll f.inner (handoffs.map Handoff.event) = .accepted inner ∧
      f' = { f with state, inner } := by
  induction handoffs generalizing f with
  | nil =>
      cases h
      exact ⟨f.inner, rfl, rfl⟩
  | cons handoff rest ih =>
      rw [pass] at h
      split at h
      · rename_i inner hwrite
        obtain ⟨last, hlast, hf'⟩ := ih h
        refine ⟨last, ?_, hf'⟩
        rw [List.map_cons, Sink.writeAll, hwrite]
        exact hlast
      · exact absurd h (by simp)

theorem passes_of_writeAll {s : State} {inner : σ} {told : List Event} {f : Filtering σ}
    (h : Sink.writeAll (⟨t, s, inner⟩ : Filtering σ) told = .accepted f) :
    ∃ out s' inner', Passes t s told out s' ∧ Sink.writeAll inner out = .accepted inner' ∧
      f = ⟨t, s', inner'⟩ := by
  induction told generalizing s inner with
  | nil =>
      cases h
      exact ⟨[], s, inner, Passes.nil, rfl, rfl⟩
  | cons event rest ih =>
      rw [Sink.writeAll] at h
      obtain ⟨next, hwrite, hrest⟩ := Reply.andThen_eq_accepted h
      have hperform : (⟨t, s, inner⟩ : Filtering σ).perform (s.step t event) = .accepted next :=
        hwrite
      cases hstep : s.step t event with
      | refused why s' =>
          rw [hstep] at hperform
          exact absurd hperform (by simp [perform])
      | passed handoffs s' =>
          rw [hstep] at hperform
          obtain ⟨mid, hmid, rfl⟩ := writeAll_of_pass hperform
          obtain ⟨out, s'', last, hpasses, hlast, hf⟩ := ih hrest
          refine ⟨_, s'', last, Passes.cons hstep hpasses, ?_, hf⟩
          rw [Sink.writeAll_append hmid]
          exact hlast

/-- **The filter takes documents and nothing else**, in front of any sink that takes at least
these. -/
theorem judges_of_inner {inner : σ} (htakes : ∀ told, Begun told → Sink.Takes inner told)
    (hcloses : ∀ told s, Sink.writeAll inner told = .accepted s → told = [] ∨ Complete told →
      ∃ s', Sink.close s = .accepted s') :
    Sink.Judges (⟨t, {}, inner⟩ : Filtering σ) := by
  refine Sink.Judges.of_takes (fun told => ?_) (fun told f hf => ?_)
  · rw [← Nesting.run_isSome_iff]
    constructor
    · rintro ⟨f, hf⟩
      obtain ⟨out, s, _, hpasses, -, -⟩ := passes_of_writeAll hf
      exact ⟨_, Sent.init.nesting_of_passes hpasses⟩
    · rintro ⟨n, hn⟩
      obtain ⟨out, s, hpasses⟩ := Sent.init.exists_passes hn
      obtain ⟨inner', hinner⟩ := htakes out (Sent.init.passes hpasses).begun
      exact ⟨_, writeAll_of_passes hpasses hinner⟩
  · obtain ⟨out, s, inner', hpasses, hinner, rfl⟩ := passes_of_writeAll hf
    have hsent : Sent s out := Sent.init.passes hpasses
    rw [← Nesting.places_eq_nil_iff (Sent.init.nesting_of_passes hpasses)]
    show _ ↔ s.frames.map Frame.place = []
    rw [List.map_eq_nil_iff]
    constructor
    · rintro ⟨f', hf'⟩
      obtain ⟨_, hperform, -⟩ := Reply.andThen_eq_accepted hf'
      cases hframes : s.frames with
      | nil => rfl
      | cons => exact absurd hperform (by simp [State.close, hframes, perform])
    · intro hframes
      obtain ⟨handoffs, hclose⟩ : ∃ handoffs, s.close = .passed handoffs s := by
        rw [State.close, hframes]
        simp only
        split <;> exact ⟨_, rfl⟩
      -- the sink behind was told the beginning of a document, which this end completes
      have hend := hsent.close hclose
      have hbegun : Begun (out ++ handoffs.map Handoff.event) := by
        rcases hend with hnone | hcomplete
        · rw [hnone]
          exact begun_nil
        · exact hcomplete.begun
      obtain ⟨last, hlast⟩ := htakes _ hbegun
      rw [Sink.writeAll_append hinner] at hlast
      obtain ⟨closed, hclosed⟩ := hcloses (out ++ handoffs.map Handoff.event) last
        (by rw [Sink.writeAll_append hinner, hlast]) hend
      exact ⟨_, close_of_step hclose hlast hclosed⟩

end

/-! ## What a recorder behind the filter is told -/

/-- The events that the filter forwards up to its first refusal, those of its end included. -/
def forwarded (t : Tree) (told : List Event) : List Event :=
  (Sink.close (Sink.writeAll (⟨t, {}, {}⟩ : Filtering Recorder) told).sink).sink.inner.events

/-- A refusal leaves the state as it is, but an end takes the innermost container off. -/
theorem step_refused {s s' : State} {event : Event} {why : Imbalance}
    (h : s.step t event = .refused why s') :
    (s' = s ∧ ∀ kind, event = .stop kind → s.frames = []) ∨
      ∃ kind frame outer, event = .stop kind ∧ s.frames = frame :: outer ∧
        s' = { s with frames := outer } := by
  cases event with
  | start kind =>
      refine Or.inl ⟨?_, fun _ hkind => absurd hkind (by simp)⟩
      rw [State.step, State.start] at h
      split at h
      · cases h
        rfl
      · simp only at h
        split at h <;> exact absurd h (by simp)
  | scalar v =>
      refine Or.inl ⟨?_, fun _ hkind => absurd hkind (by simp)⟩
      rw [State.step, State.scalar] at h
      split at h
      · cases h
        rfl
      · simp only at h
        split at h <;> exact absurd h (by simp)
  | field name =>
      refine Or.inl ⟨?_, fun _ hkind => absurd hkind (by simp)⟩
      rw [State.step, State.field] at h
      split at h
      · cases h
        rfl
      · split at h
        · exact absurd h (by simp)
        · cases h
          rfl
  | stop kind =>
      rw [State.step, State.stop] at h
      split at h
      · rename_i hframes
        cases h
        exact Or.inl ⟨rfl, fun _ _ => hframes⟩
      · rename_i frame outer hframes
        refine Or.inr ⟨kind, frame, outer, rfl, hframes, ?_⟩
        simp only at h
        split at h
        · exact (Step.refused.inj h).2.symm
        · split at h
          · exact (Step.refused.inj h).2.symm
          · exact absurd h (by simp)

/-- A step that refuses passes nothing on, and is no match. -/
theorem matched_of_refused {s s' : State} {event : Event} {why : Imbalance}
    (h : s.step t event = .refused why s') : s'.matched = s.matched := by
  rcases step_refused h with ⟨rfl, -⟩ | ⟨_, _, _, -, -, rfl⟩
  · rfl
  · rfl

/-- Wherever a run stops, what was passed on is the beginning of a document, and nothing if
nothing matched. -/
theorem Sent.writeAll_told {s : State} {before : List Event} (h : Sent s before)
    (told : List Event) :
    ∃ s' out, (Sink.writeAll (⟨t, s, .told (before.map .event)⟩ : Filtering Recorder) told).sink =
      ⟨t, s', .told (out.map .event)⟩ ∧ Begun out ∧ (s'.matched = 0 → out = []) := by
  induction told generalizing s before with
  | nil => exact ⟨s, before, rfl, h.begun, fun hzero => (h.silent hzero).1⟩
  | cons event rest ih =>
      cases hstep : s.step t event with
      | refused why s' =>
          have hwrite : Sink.write (⟨t, s, .told (before.map .event)⟩ : Filtering Recorder) event =
              .refused ⟨t, s', .told (before.map .event)⟩ (.unbalanced why) := by
            show perform _ (s.step t event) = _
            rw [hstep]
            rfl
          refine ⟨s', before, ?_, h.begun, fun hzero => ?_⟩
          · rw [Sink.writeAll, hwrite]
            rfl
          · exact (h.silent (by rw [← matched_of_refused hstep, hzero])).1
      | passed handoffs s' =>
          have hwrite : Sink.write (⟨t, s, .told (before.map .event)⟩ : Filtering Recorder) event =
              .accepted ⟨t, s', .told ((before ++ handoffs.map Handoff.event).map .event)⟩ := by
            rw [List.map_append]
            exact write_of_step hstep (Recorder.writeAll_told _ _)
          rw [Sink.writeAll, hwrite]
          exact ih (h.step hstep)

/-- **What the filter forwards is always the beginning of a document.** -/
theorem begun_forwarded (t : Tree) (told : List Event) : Begun (forwarded t told) := by
  obtain ⟨s, out, hsink, hbegun, hsilent⟩ := Sent.init.writeAll_told (t := t) told
  have hforwarded : forwarded t told =
      (Sink.close (⟨t, s, .told (out.map .event)⟩ : Filtering Recorder)).sink.inner.events := by
    rw [← hsink]
    rfl
  rw [hforwarded]
  cases hclose : s.close with
  | refused why s' =>
      have hrefused :
          (Sink.close (⟨t, s, .told (out.map .event)⟩ : Filtering Recorder)).sink.inner =
            .told (out.map .event ++ []) := by
        rw [List.append_nil]
        simp only [Sink.close, perform, hclose]
        rfl
      rw [hrefused, Recorder.events_told, List.filterMap_nil, List.append_nil]
      exact hbegun
  | passed handoffs s' =>
      have hclosed : Sink.close (⟨t, s, .told (out.map .event)⟩ : Filtering Recorder) =
          .accepted
            ⟨t, s', .told ((out ++ handoffs.map Handoff.event).map .event ++ [.closed])⟩ := by
        rw [List.map_append]
        exact close_of_step hclose (Recorder.writeAll_told _ _) (Recorder.call_told _ .closed)
      rw [hclosed]
      show Begun (Recorder.told _).events
      rw [Recorder.events_told]
      show Begun (out ++ handoffs.map Handoff.event ++ [])
      rw [List.append_nil]
      obtain ⟨-, hnone | ⟨hzero, kind, hempty⟩⟩ := State.close_passed hclose
      · rw [hnone, List.map_nil, List.append_nil]
        exact hbegun
      · rw [hsilent hzero, hempty]
        exact (complete_empty kind).begun

end Filtering

namespace Sink

/-- A sink that takes all events and then its end. -/
def NeverRefuses {σ : Type} [Sink σ] (s : σ) : Prop :=
  ∀ told, ∃ s', writeAll s told = .accepted s' ∧ ∃ s'', close s' = .accepted s''

end Sink

namespace Filtering

/-- In front of a sink that never refuses, the filter takes documents and nothing else. -/
theorem judges_of_neverRefuses {t : Tree} {σ : Type} [Sink σ] {inner : σ}
    (hinner : Sink.NeverRefuses inner) : Sink.Judges (⟨t, {}, inner⟩ : Filtering σ) := by
  refine judges_of_inner (fun told _ => ?_) (fun told s hs _ => ?_)
  · obtain ⟨s, hs, -⟩ := hinner told
    exact ⟨s, hs⟩
  · obtain ⟨s', hs', hclose⟩ := hinner told
    cases hs.symm.trans hs'
    exact hclose

end Filtering

/-- **The sinks take the same sequences of events.** A filter in front of a sink that never
refuses, and a writer whose output takes all bytes, take the beginnings of documents, refuse the
first event after which there is no document, and can be closed before and after a document. An
assembly yields a value of exactly the documents. And a writer takes all that the filter
forwards, so a filter in front of it judges as the others do.

A scalar event may hide a container. Where none does, the documents are told as values are. -/
theorem sinks_agree (t : Tree) (layout : Layout) (taken : List UInt8) {σ : Type} [Sink σ]
    {inner : σ} (hinner : Sink.NeverRefuses inner) :
    let writer : Writer := { layout, output := { taken } }
    Sink.Judges (⟨t, {}, inner⟩ : Filtering σ) ∧ Sink.Judges writer ∧
    (∀ told v, (∃ a, Sink.writeAll ({} : Assembly) told = .accepted a ∧ a.value? = some v) ↔
      ∃ d : Document, told = d.events ∧ d.value = v) ∧
    (∀ told, Sink.Takes writer (Filtering.forwarded t told)) ∧
    Sink.Judges (⟨t, {}, writer⟩ : Filtering Writer) ∧
    ∀ told, Plain told →
      (Begun told ↔ ∃ v : Value, told <+: v.events) ∧
      (Complete told ↔ ∃ v : Value, told = v.events) := by
  intro writer
  have hwriter : Sink.Judges writer := Writer.judges layout taken
  refine ⟨Filtering.judges_of_neverRefuses hinner, hwriter, Assembly.yields_iff, ?_,
    Filtering.judges_of_inner ?_ ?_, ?_⟩
  · intro told
    exact (hwriter.takes _).mpr (Filtering.begun_forwarded t told)
  · exact fun told hbegun => (hwriter.takes told).mpr hbegun
  · exact fun told w hw hend => (hwriter.closes told w hw).mpr hend
  · exact fun told hplain => ⟨begun_iff_of_plain hplain, complete_iff_of_plain hplain⟩

theorem neverRefuses_recorder : Sink.NeverRefuses ({} : Recorder) :=
  fun told => ⟨_, Recorder.writeAll_told [] told, _, Recorder.call_told _ .closed⟩

/-- A name inside of an array is the first event that the filter and the writer refuse, in front
of a recorder, which takes everything. -/
theorem sinks_agree_recorder :
    Sink.NeverRefuses ({} : Recorder) ∧
      Sink.RefusesAfter (⟨.empty, {}, {}⟩ : Filtering Recorder) [.start .array] (.field "a") ∧
      Sink.RefusesAfter ({} : Writer) [.start .array] (.field "a") := by
  have hbegun : Begun [.start .array] := (Nesting.run_isSome_iff _).mp ⟨_, rfl⟩
  have hnot : ¬ Begun [.start .array, .field "a"] := by
    intro h
    obtain ⟨n, hn⟩ := (Nesting.run_isSome_iff _).mpr h
    exact absurd hn (by simp [Nesting.run, Nesting.step, Nesting.next, Nesting.enter, Place.new])
  have hagree := sinks_agree .empty .compact [] neverRefuses_recorder
  exact ⟨neverRefuses_recorder, (hagree.1.refuses _ _).mpr ⟨hbegun, hnot⟩,
    (hagree.2.1.refuses _ _).mpr ⟨hbegun, hnot⟩⟩

end FieldSelection
