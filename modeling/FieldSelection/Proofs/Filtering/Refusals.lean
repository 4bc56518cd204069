import FieldSelection.Proofs.Filtering.Forwarding
import Mathlib.Data.List.Induction

/-!
# Going on after refusals

A caller may go on after a sink refused an event. Then the events that count are those that were
accepted, and the sink should be where these alone would have brought it: it should be closed
only if they are nothing or a document.

A writer and a filter stay as they are when they refuse the start of a container, a name, or a
value. But an end that does not fit closes the innermost container all the same, so this end is
lost: the container counts as closed though no accepted event closed it. `LosesEnd` says that
this happens, in terms of what the caller sees, and it turns out to be all that can go wrong.

The count of open containers carries the argument. Each accepted event changes it by its level,
and each lost end takes one off. So the accepted events are balanced at the end of a run exactly
if as many containers are left open as ends were lost.
-/

namespace FieldSelection

open Json

namespace Json

/-! ## Levels -/

/-- How many more containers are open after an event. -/
def Event.level : Event → Int
  | .start _ => 1
  | .stop _ => -1
  | .field _ => 0
  | .scalar _ => 0

/-- How many more containers are opened than closed. -/
def level : List Event → Int
  | [] => 0
  | event :: rest => event.level + level rest

@[simp] theorem level_nil : level [] = 0 := rfl

@[simp] theorem level_cons (event : Event) (rest : List Event) :
    level (event :: rest) = event.level + level rest := rfl

@[simp] theorem level_append (xs ys : List Event) : level (xs ++ ys) = level xs + level ys := by
  induction xs with
  | nil => simp
  | cons event rest ih => simp [ih, Int.add_assoc]

namespace Nesting

theorem length_step {n m : Nesting} {event : Event} (h : n.step event = some m) :
    (m.places.length : Int) = n.places.length + event.level := by
  cases event with
  | start kind =>
      obtain ⟨due, hdue, rfl⟩ := Option.map_eq_some_iff.mp h
      simp [enter, Event.level, length_places_next hdue]
  | scalar v =>
      obtain ⟨due, hdue, rfl⟩ := Option.map_eq_some_iff.mp h
      simp [leave, Event.level, length_places_next hdue]
  | stop kind =>
      obtain ⟨places, ended⟩ := n
      cases places with
      | nil => exact absurd h (by simp [step])
      | cons place outer =>
          rw [step] at h
          split at h
          · cases h
          · rename_i heq
            cases heq
            split at h
            · cases h
              simp only [leave, Event.level, List.length_cons]
              omega
            · exact absurd h (by simp)
  | field name =>
      rw [step] at h
      split at h
      · rename_i heq
        cases h
        simp [heq, Event.level]
      · exact absurd h (by simp)

theorem length_run {n m : Nesting} {told : List Event} (h : n.run told = some m) :
    (m.places.length : Int) = n.places.length + level told := by
  induction told generalizing n with
  | nil =>
      cases h
      simp
  | cons event rest ih =>
      obtain ⟨k, hstep, hrest⟩ := Option.bind_eq_some_iff.mp h
      rw [ih hrest, length_step hstep, level_cons, Int.add_assoc]

end Nesting

/-- In a document, each container that is opened is closed. -/
theorem level_eq_zero {told : List Event} (h : told = [] ∨ Complete told) : level told = 0 := by
  rcases h with rfl | ⟨d, rfl⟩
  · rfl
  · have hrun := Nesting.length_run (Nesting.run_events d (n := {}) (m := {}) rfl)
    simpa [Nesting.leave] using hrun.symm

end Json

namespace Sink

variable {σ : Type} [Sink σ]

/-! ## A run with refusals -/

/-- The sink after a caller that goes on whether or not an event is refused. -/
def goOn (s : σ) (events : List Event) : σ :=
  events.foldl (fun s event => (write s event).sink) s

/-- The events that were accepted on the way. -/
def accepted (s : σ) : List Event → List Event
  | [] => []
  | event :: rest =>
    match write s event with
    | .accepted s' => event :: accepted s' rest
    | .refused s' _ => accepted s' rest

/-- An end was refused although the events that were accepted before it leave a container open. -/
def LosesEnd (s : σ) (events : List Event) : Prop :=
  ∃ before kind, before ++ [.stop kind] <+: events ∧ 0 < level (accepted s before) ∧
    ∃ s' why, write (goOn s before) (.stop kind) = .refused s' why

/-- Refusals have changed nothing: the sink is where the accepted events alone lead, and can be
closed exactly if these are nothing or a document. -/
structure Unharmed (s : σ) (events : List Event) : Prop where
  unchanged : writeAll s (accepted s events) = .accepted (goOn s events)
  closes : (∃ s', close (goOn s events) = .accepted s') ↔
    accepted s events = [] ∨ Complete (accepted s events)

variable {s s' : σ} {events : List Event} {event : Event} {why : Failure}

theorem goOn_concat : goOn s (events ++ [event]) = (write (goOn s events) event).sink := by
  simp [goOn]

theorem accepted_append (s : σ) (events more : List Event) :
    accepted s (events ++ more) = accepted s events ++ accepted (goOn s events) more := by
  induction events generalizing s with
  | nil => rfl
  | cons event rest ih =>
      show accepted s (event :: (rest ++ more)) = accepted s (event :: rest) ++
        accepted (goOn (write s event).sink rest) more
      rw [accepted, accepted]
      cases hwrite : write s event with
      | accepted s' =>
          show event :: accepted s' (rest ++ more) = event :: accepted s' rest ++ _
          rw [ih, List.cons_append]
          rfl
      | refused s' why => exact ih s'

theorem accepted_concat_of_accepted (h : write (goOn s events) event = .accepted s') :
    accepted s (events ++ [event]) = accepted s events ++ [event] := by
  rw [accepted_append, accepted, h]
  rfl

theorem accepted_concat_of_refused (h : write (goOn s events) event = .refused s' why) :
    accepted s (events ++ [event]) = accepted s events := by
  rw [accepted_append, accepted, h]
  exact List.append_nil _

theorem losesEnd_concat_iff :
    LosesEnd s (events ++ [event]) ↔ LosesEnd s events ∨
      ∃ kind, event = .stop kind ∧ 0 < level (accepted s events) ∧
        ∃ s' why, write (goOn s events) (.stop kind) = .refused s' why := by
  simp only [LosesEnd, List.prefix_concat_iff]
  constructor
  · rintro ⟨before, kind, heq | hpfx, hopen, hrefused⟩
    · obtain ⟨rfl, hevent⟩ := List.append_inj' heq rfl
      exact Or.inr ⟨kind, (List.singleton_inj.mp hevent).symm, hopen, hrefused⟩
    · exact Or.inl ⟨before, kind, hpfx, hopen, hrefused⟩
  · rintro (⟨before, kind, hpfx, hopen, hrefused⟩ | ⟨kind, rfl, hopen, hrefused⟩)
    · exact ⟨before, kind, Or.inr hpfx, hopen, hrefused⟩
    · exact ⟨events, kind, Or.inl rfl, hopen, hrefused⟩

/-! ## Sinks that count -/

/-- A sink that keeps count of the open containers. A refusal leaves it as it is, but for an end:
that takes the innermost container off. -/
structure Counts (valid : σ → Prop) (depth : σ → Nat) : Prop where
  accepts : ∀ {s s' : σ} {event : Event}, valid s → write s event = .accepted s' →
    valid s' ∧ (depth s' : Int) = depth s + event.level
  refuses : ∀ {s s' : σ} {event : Event} {why : Failure}, valid s →
    write s event = .refused s' why →
    (s' = s ∧ ∀ kind, event = .stop kind → depth s = 0) ∨
      ∃ kind, event = .stop kind ∧ valid s' ∧ depth s = depth s' + 1
  closes : ∀ {s : σ}, valid s → ((∃ s', close s = .accepted s') ↔ depth s = 0)

namespace Counts

variable {valid : σ → Prop} {depth : σ → Nat}

/-- Without refusals, the count is the level. -/
theorem writeAll (h : Counts valid depth) {told : List Event} (hs : valid s)
    (hw : writeAll s told = .accepted s') : (depth s' : Int) = depth s + level told := by
  induction told generalizing s with
  | nil =>
      cases hw
      simp
  | cons event rest ih =>
      rw [Sink.writeAll] at hw
      obtain ⟨mid, hwrite, hrest⟩ := Reply.andThen_eq_accepted hw
      obtain ⟨hmid, hdepth⟩ := h.accepts hs hwrite
      rw [ih hmid hrest, hdepth, level_cons, Int.add_assoc]

/-- A run that starts without open containers, with the number of ends that were lost on it. -/
structure Ran (valid : σ → Prop) (depth : σ → Nat) (s : σ) (events : List Event) (lost : Nat) :
    Prop where
  valid : valid (goOn s events)
  level_eq : level (accepted s events) = depth (goOn s events) + lost
  losesEnd_iff : LosesEnd s events ↔ lost ≠ 0
  unchanged : lost = 0 → Sink.writeAll s (accepted s events) = .accepted (goOn s events)

/-- One event more: it is accepted, or refused without effect, or an end that is lost. -/
theorem Ran.concat (h : Counts valid depth) {lost : Nat} (hr : Ran valid depth s events lost)
    (event : Event) : ∃ lost', Ran valid depth s (events ++ [event]) lost' := by
  cases hwrite : write (goOn s events) event with
  | accepted s' =>
      obtain ⟨hvalid, hdepth⟩ := h.accepts hr.valid hwrite
      have hgone : goOn s (events ++ [event]) = s' := by rw [goOn_concat, hwrite]; rfl
      have haccepted := accepted_concat_of_accepted hwrite
      refine ⟨lost, by rwa [hgone], ?_, ?_, fun hlost => ?_⟩
      · rw [haccepted, hgone, level_append, hr.level_eq, hdepth]
        simp only [level_cons, level_nil]
        omega
      · rw [losesEnd_concat_iff, ← hr.losesEnd_iff]
        refine or_iff_left ?_
        rintro ⟨kind, rfl, -, s'', why, hrefused⟩
        exact absurd (hwrite.symm.trans hrefused) (by simp)
      · rw [haccepted, hgone, writeAll_append (hr.unchanged hlost), Sink.writeAll, hwrite]
        rfl
  | refused s' why =>
      have hgone : goOn s (events ++ [event]) = s' := by rw [goOn_concat, hwrite]; rfl
      have haccepted := accepted_concat_of_refused hwrite
      rcases h.refuses hr.valid hwrite with ⟨rfl, hend⟩ | ⟨kind, rfl, hvalid, hdepth⟩
      · refine ⟨lost, by rw [hgone]; exact hr.valid, ?_, ?_, fun hlost => ?_⟩
        · rw [haccepted, hgone, hr.level_eq]
        · rw [losesEnd_concat_iff, hr.losesEnd_iff]
          refine or_iff_left_of_imp ?_
          -- an end that is refused without an open container is lost only if one was before
          rintro ⟨kind, hkind, hopen, -⟩
          have hzero := hend kind hkind
          have hlevel := hr.level_eq
          omega
        · rw [haccepted, hgone]
          exact hr.unchanged hlost
      · have hlevel := hr.level_eq
        refine ⟨lost + 1, by rwa [hgone], ?_, ?_, fun hlost => absurd hlost (by simp)⟩
        · rw [haccepted, hgone]
          omega
        · rw [losesEnd_concat_iff]
          exact iff_of_true (Or.inr ⟨kind, rfl, by omega, s', why, hwrite⟩) (by simp)

theorem ran (h : Counts valid depth) (hs : valid s) (hzero : depth s = 0) (events : List Event) :
    ∃ lost, Ran valid depth s events lost := by
  induction events using List.reverseRecOn with
  | nil =>
      refine ⟨0, hs, by simp [accepted, goOn, hzero], ?_, fun _ => rfl⟩
      refine iff_of_false ?_ (by simp)
      rintro ⟨before, kind, hpfx, -⟩
      exact absurd (List.prefix_nil.mp hpfx) (by simp)
  | append_singleton events event ih =>
      obtain ⟨lost, hr⟩ := ih
      exact hr.concat h event

/-- **A lost end is all that can go wrong**: without one, the refusals have changed nothing. -/
theorem unharmed_iff (h : Counts valid depth) (hs : valid s) (hzero : depth s = 0)
    (hjudges : Judges s) (events : List Event) : Unharmed s events ↔ ¬ LosesEnd s events := by
  obtain ⟨lost, hr⟩ := h.ran hs hzero events
  rw [hr.losesEnd_iff, not_not]
  constructor
  · intro hun
    have hdepth := h.writeAll hs hun.unchanged
    have hlevel := hr.level_eq
    omega
  · intro hlost
    have hunchanged := hr.unchanged hlost
    exact ⟨hunchanged, hjudges.closes _ _ hunchanged⟩

/-- **A lost end does harm wherever the sink can be closed**: then the accepted events are not
balanced, so they are no document. -/
theorem not_complete_of_losesEnd (h : Counts valid depth) (hs : valid s) (hzero : depth s = 0)
    (hloses : LosesEnd s events) : ¬ (accepted s events = [] ∨ Complete (accepted s events)) := by
  obtain ⟨lost, hr⟩ := h.ran hs hzero events
  intro hend
  have hlost := hr.losesEnd_iff.mp hloses
  have hlevel := hr.level_eq
  rw [level_eq_zero hend] at hlevel
  omega

end Counts

end Sink

namespace Json.Writer

/-! ## Writers -/

theorem beginValue_refused {layout : Layout} {s s' : State} {why : Imbalance}
    (h : beginValue layout s = .refused why s') : s' = s := by
  rw [beginValue] at h
  split at h
  · split at h
    · cases h
      rfl
    · exact absurd h (by simp)
  · exact absurd h (by simp)
  · exact absurd h (by simp)
  · cases h
    rfl

/-- A refusal leaves the state as it is, but an end takes the innermost container off. -/
theorem step_refused {layout : Layout} {s s' : State} {event : Event} {why : Imbalance}
    (h : step layout s event = .refused why s') :
    (s' = s ∧ ∀ kind, event = .stop kind → s.frames = []) ∨
      ∃ kind frame, event = .stop kind ∧ s.frames = frame :: s'.frames := by
  have hbegun : ∀ {next : State → Step}, (∀ s, ∃ chunks s', next s = .written chunks s') →
      (beginValue layout s).andThen next = .refused why s' → s' = s := by
    intro next hnext h
    cases hbegin : beginValue layout s with
    | refused why' s₁ =>
        rw [hbegin] at h
        cases h
        exact beginValue_refused hbegin
    | written chunks s₁ =>
        obtain ⟨more, s₂, hmore⟩ := hnext s₁
        rw [hbegin, Step.andThen, hmore] at h
        exact absurd h (by simp)
  cases event with
  | start kind =>
      exact Or.inl ⟨hbegun (fun _ => ⟨_, _, rfl⟩) h, fun _ hkind => absurd hkind (by simp)⟩
  | scalar v =>
      exact Or.inl ⟨hbegun (fun _ => ⟨_, _, rfl⟩) h, fun _ hkind => absurd hkind (by simp)⟩
  | field name =>
      refine Or.inl ⟨?_, fun _ hkind => absurd hkind (by simp)⟩
      rw [step, field] at h
      split at h
      · cases h
        rfl
      · exact absurd h (by simp)
      · cases h
        rfl
  | stop kind =>
      have hpopped : s' = { s with frames := s.frames.tail } := by
        simp only [step, stop] at h
        split_ifs at h
        · cases h
          rfl
      obtain ⟨frames, rootWritten, indent, hasValue⟩ := s
      cases frames with
      | nil => exact Or.inl ⟨hpopped, fun _ _ => rfl⟩
      | cons frame outer => exact Or.inr ⟨kind, frame, rfl, by rw [hpopped]; rfl⟩

theorem length_places (s : State) : s.nesting.places.length = s.frames.length := by
  rw [State.nesting]
  cases s.frames <;> simp

/-- In front of an output that takes everything, only the step refuses. -/
theorem write_eq (layout : Layout) (s : State) (taken : List UInt8) (event : Event) :
    Sink.write (⟨layout, s, ⟨taken, none⟩⟩ : Writer) event =
      match step layout s event with
      | .refused why s' => .refused ⟨layout, s', ⟨taken, none⟩⟩ (.unbalanced why)
      | .written chunks s' =>
        .accepted ⟨layout, s', ⟨(bytesOf chunks).reverse ++ taken, none⟩⟩ := by
  show write _ event = _
  rw [write]
  cases hstep : step layout s event with
  | refused why s' => rfl
  | written chunks s' => exact put_all chunks s s' taken

/-- A writer whose output takes everything counts the open containers. -/
theorem counts : Sink.Counts (fun w : Writer => w.output.room = none)
    (fun w => w.state.frames.length) where
  accepts := by
    rintro ⟨layout, s, ⟨taken, room⟩⟩ w' event rfl hwrite
    rw [write_eq] at hwrite
    have hnesting := step_nesting layout s event
    split at hwrite
    · exact absurd hwrite (by simp)
    · rename_i chunks s' hstep
      cases hwrite
      rw [hstep] at hnesting
      have hlength := Nesting.length_step hnesting.symm
      rw [length_places, length_places] at hlength
      exact ⟨rfl, hlength⟩
  refuses := by
    rintro ⟨layout, s, ⟨taken, room⟩⟩ w' event why rfl hwrite
    rw [write_eq] at hwrite
    split at hwrite
    · rename_i why' s' hstep
      cases hwrite
      rcases step_refused hstep with ⟨rfl, hend⟩ | ⟨kind, frame, hkind, hframes⟩
      · exact Or.inl ⟨rfl, fun kind hkind => by simp [hend kind hkind]⟩
      · exact Or.inr ⟨kind, hkind, rfl, by simp [hframes]⟩
    · exact absurd hwrite (by simp)
  closes := by
    rintro ⟨layout, s, ⟨taken, room⟩⟩ -
    show (∃ w', close _ = .accepted w') ↔ _
    rw [close]
    cases s.frames <;> simp

/-- Where refusals have changed nothing, what was written is the text of what was accepted. -/
theorem written_of_unharmed {layout : Layout} {events : List Event} {w : Writer}
    (h : Sink.Unharmed ({ layout } : Writer) events)
    (hclose : Sink.close (Sink.goOn ({ layout } : Writer) events) = .accepted w) :
    let accepted := Sink.accepted ({ layout } : Writer) events
    (accepted = [] ∧ w.output.written = []) ∨
      ∃ d : Document, accepted = d.events ∧ w.output.written = d.text layout 0 := by
  intro accepted
  have hunchanged := h.unchanged
  have hsame : w = Sink.goOn ({ layout } : Writer) events := by
    have hclosed : close _ = .accepted w := hclose
    rw [close] at hclosed
    split at hclosed
    · exact (Reply.accepted.inj hclosed).symm
    · exact absurd hclosed (by simp)
  rw [← hsame] at hunchanged
  rcases h.closes.mp ⟨w, hclose⟩ with hnone | ⟨d, hd⟩
  · rw [hnone] at hunchanged
    cases hunchanged
    exact Or.inl ⟨hnone, rfl⟩
  · obtain ⟨w', hw', -, htaken⟩ := writes_told layout d []
    rw [hd] at hunchanged
    cases hunchanged.symm.trans hw'
    refine Or.inr ⟨d, hd, ?_⟩
    rw [Output.written, htaken, List.append_nil, List.reverse_reverse]

end Json.Writer

namespace Filtering

/-! ## Filters -/

variable {t : Tree}

theorem length_nextValue {s next : State} {context : Option Context} {field : Option String}
    (h : s.nextValue t = .ok (context, field, next)) : next.frames.length = s.frames.length := by
  obtain ⟨frames, rootKind, rootDone, matched⟩ := s
  rcases frames with _ | ⟨⟨_ | _, _, _, _, _ | _⟩, outer⟩ <;> cases rootDone <;> cases h <;> rfl

@[simp] theorem length_opened (s : State) : s.opened.frames.length = s.frames.length := by
  simp [State.opened]

@[simp] theorem length_count (s : State) (counted : Bool) :
    (s.count counted).frames.length = s.frames.length := by
  cases counted <;> rfl

theorem length_step {s s' : State} {event : Event} {handoffs : List Handoff}
    (h : s.step t event = .passed handoffs s') :
    (s'.frames.length : Int) = s.frames.length + event.level := by
  cases event with
  | start kind =>
      rw [State.step, State.start] at h
      split at h
      · exact absurd h (by simp)
      · rename_i hnext
        have hlength := length_nextValue hnext
        simp only at h
        split at h <;> cases h <;> simp [Event.level, hlength]
  | scalar v =>
      rw [State.step, State.scalar] at h
      split at h
      · exact absurd h (by simp)
      · rename_i hnext
        have hlength := length_nextValue hnext
        simp only at h
        split at h <;> cases h <;> simp [Event.level, hlength]
  | stop kind =>
      rw [State.step, State.stop] at h
      split at h
      · exact absurd h (by simp)
      · rename_i frame outer hframes
        simp only at h
        split_ifs at h <;> cases h <;> simp only [Event.level, hframes, List.length_cons] <;> omega
  | field name =>
      rw [State.step, State.field] at h
      split at h
      · exact absurd h (by simp)
      · rename_i frame outer hframes
        split at h
        · cases h
          simp [Event.level, hframes]
        · exact absurd h (by simp)

variable {σ : Type} [Sink σ]

/-- A sink that never refuses takes all that is passed on, and goes on that way. -/
theorem pass_of_neverRefuses {f : Filtering σ} (hinner : Sink.NeverRefuses f.inner) (state : State)
    (handoffs : List Handoff) :
    ∃ inner, f.pass state handoffs = .accepted { f with state, inner } ∧
      Sink.NeverRefuses inner := by
  obtain ⟨inner, htold, -⟩ := hinner (handoffs.map Handoff.event)
  refine ⟨inner, pass_of_writeAll htold, fun told => ?_⟩
  obtain ⟨s', hs', hclose⟩ := hinner (handoffs.map Handoff.event ++ told)
  rw [Sink.writeAll_append htold] at hs'
  exact ⟨s', hs', hclose⟩

/-- In front of a sink that never refuses, a filter counts the open containers. -/
theorem counts : Sink.Counts (fun f : Filtering σ => Sink.NeverRefuses f.inner)
    (fun f => f.state.frames.length) where
  accepts := by
    rintro ⟨t, s, inner⟩ f event hinner hwrite
    have hperform : (⟨t, s, inner⟩ : Filtering σ).perform (s.step t event) = .accepted f := hwrite
    cases hstep : s.step t event with
    | refused why s' =>
        rw [hstep] at hperform
        exact absurd hperform (by simp [perform])
    | passed handoffs s' =>
        obtain ⟨inner', hpass, hinner'⟩ :=
          pass_of_neverRefuses (f := ⟨t, s, inner⟩) hinner s' handoffs
        rw [hstep, perform, hpass] at hperform
        cases hperform
        exact ⟨hinner', length_step hstep⟩
  refuses := by
    rintro ⟨t, s, inner⟩ f event why hinner hwrite
    have hperform : (⟨t, s, inner⟩ : Filtering σ).perform (s.step t event) = .refused f why :=
      hwrite
    cases hstep : s.step t event with
    | refused why' s' =>
        rw [hstep, perform] at hperform
        cases hperform
        rcases step_refused hstep with ⟨rfl, hend⟩ | ⟨kind, frame, outer, hkind, hframes, rfl⟩
        · exact Or.inl ⟨rfl, fun kind hkind => by simp [hend kind hkind]⟩
        · exact Or.inr ⟨kind, hkind, hinner, by simp [hframes]⟩
    | passed handoffs s' =>
        obtain ⟨inner', hpass, -⟩ := pass_of_neverRefuses (f := ⟨t, s, inner⟩) hinner s' handoffs
        rw [hstep, perform, hpass] at hperform
        exact absurd hperform (by simp)
  closes := by
    rintro ⟨t, s, inner⟩ hinner
    rw [List.length_eq_zero_iff]
    constructor
    · rintro ⟨f, hf⟩
      obtain ⟨_, hperform, -⟩ := Reply.andThen_eq_accepted hf
      cases hframes : s.frames with
      | nil => rfl
      | cons => exact absurd hperform (by simp [State.close, hframes, perform])
    · intro hframes
      obtain ⟨handoffs, hclose⟩ : ∃ handoffs, s.close = .passed handoffs s := by
        rw [State.close, hframes]
        simp only
        split <;> exact ⟨_, rfl⟩
      obtain ⟨told, htold, closed, hclosed⟩ := hinner (handoffs.map Handoff.event)
      exact ⟨_, close_of_step hclose htold hclosed⟩

end Filtering

/-- **Refusals change nothing exactly if no end is lost.** Take a writer whose output takes all
bytes, or a filter in front of a sink that never refuses, and a caller that goes on after
refusals. If no end is refused while a container is open, the sink is where the accepted events
alone lead, it can be closed exactly if these are nothing or a document, and then the writer has
written nothing or the text of this document. If an end is lost, the accepted events are neither
nothing nor a document, whether or not the sink can be closed. -/
theorem unharmed_iff_not_losesEnd (t : Tree) (layout : Layout) {σ : Type} [Sink σ] {inner : σ}
    (hinner : Sink.NeverRefuses inner) (events : List Event) :
    let writer : Writer := { layout }
    let filter : Filtering σ := ⟨t, {}, inner⟩
    (Sink.Unharmed writer events ↔ ¬ Sink.LosesEnd writer events) ∧
    (Sink.LosesEnd writer events →
      ¬ (Sink.accepted writer events = [] ∨ Complete (Sink.accepted writer events))) ∧
    (¬ Sink.LosesEnd writer events → ∀ w, Sink.close (Sink.goOn writer events) = .accepted w →
      (Sink.accepted writer events = [] ∧ w.output.written = []) ∨
        ∃ d : Document, Sink.accepted writer events = d.events ∧
          w.output.written = d.text layout 0) ∧
    (Sink.Unharmed filter events ↔ ¬ Sink.LosesEnd filter events) ∧
    (Sink.LosesEnd filter events →
      ¬ (Sink.accepted filter events = [] ∨ Complete (Sink.accepted filter events))) := by
  intro writer filter
  have hwriter := Writer.counts.unharmed_iff (s := writer) rfl rfl (Writer.judges layout []) events
  refine ⟨hwriter, Writer.counts.not_complete_of_losesEnd rfl rfl, fun hkept w hclose => ?_,
    Filtering.counts.unharmed_iff hinner rfl (Filtering.judges_of_neverRefuses hinner) events,
    Filtering.counts.not_complete_of_losesEnd hinner rfl⟩
  exact Writer.written_of_unharmed (hwriter.mpr hkept) hclose

/-- A name in an array and an end behind the document are refused, and change nothing. -/
theorem unharmed_iff_not_losesEnd_list :
    let events : List Event :=
      [.start .array, .field "a", .scalar .null, .stop .array, .stop .array]
    Sink.NeverRefuses ({} : Recorder) ∧
    Sink.accepted ({} : Writer) events = [.start .array, .scalar .null, .stop .array] ∧
    Sink.accepted (⟨.empty, {}, {}⟩ : Filtering Recorder) events =
      [.start .array, .scalar .null, .stop .array] ∧
    Sink.Unharmed ({} : Writer) events ∧
    Sink.Unharmed (⟨.empty, {}, {}⟩ : Filtering Recorder) events := by
  intro events
  have hcomplete : Complete [.start .array, .scalar .null, .stop .array] :=
    ⟨.array [.whole .null], rfl⟩
  obtain ⟨hwriter, hbadw, -, hfilter, hbadf⟩ :=
    unharmed_iff_not_losesEnd .empty .compact neverRefuses_recorder events
  refine ⟨neverRefuses_recorder, rfl, rfl, hwriter.mpr fun h => ?_, hfilter.mpr fun h => ?_⟩
  · exact hbadw h (Or.inr hcomplete)
  · exact hbadf h (Or.inr hcomplete)

/-- An object end closes an array. It is refused, but the array can be closed without its end:
what was accepted is then no document, and neither is what was written or passed on. -/
theorem closes_broken_array :
    let events : List Event := [.start .array, .stop .object]
    let told : List Event := [.start .array]
    ¬ (told = [] ∨ Complete told) ∧
    Sink.accepted ({} : Writer) events = told ∧
    (∃ w, Sink.close (Sink.goOn ({} : Writer) events) = .accepted w ∧
      w.output.written = [byte '[']) ∧
    Sink.accepted (⟨.ofLabels [.wildcard], {}, {}⟩ : Filtering Recorder) events = told ∧
    ∃ f, Sink.close (Sink.goOn (⟨.ofLabels [.wildcard], {}, {}⟩ : Filtering Recorder) events) =
        .accepted f ∧
      f.inner.records = [.event (.start .array), .closed] := by
  intro events told
  refine ⟨fun h => ?_, rfl, ⟨_, rfl, rfl⟩, rfl, ⟨_, rfl, rfl⟩⟩
  exact absurd (level_eq_zero h) (by decide)

end FieldSelection
