import FieldSelection.Json.Assembly
import FieldSelection.Proofs.Json.Document
import FieldSelection.Proofs.Json.Layout

/-!
# Which events a writer and an assembly take

A sink judges a sequence of events if it takes the beginnings of documents, refuses the first
event that cannot go on, and can be closed only where no document is broken off. A writer does,
as long as its output takes all bytes: what it knows of the open containers is the nesting.

An assembly is more lenient. It lets a container start where no value is due, and notices only
at the end, when the container has no place to go. Until then the frame around that container is
`Misplaced`, and no value comes out.
-/

namespace FieldSelection

open Json

namespace Sink

variable {σ : Type} [Sink σ]

/-- The sink takes all of these events. -/
def Takes (s : σ) (told : List Event) : Prop := ∃ s', writeAll s told = .accepted s'

/-- The first event that the sink refuses is the one after these. -/
def RefusesAfter (s : σ) (told : List Event) (event : Event) : Prop :=
  ∃ s', writeAll s told = .accepted s' ∧ ∃ s'' why, write s' event = .refused s'' why

/-- The sink tells documents from other sequences of events. -/
structure Judges (s : σ) : Prop where
  takes : ∀ told, Takes s told ↔ Begun told
  refuses : ∀ told event, RefusesAfter s told event ↔ Begun told ∧ ¬ Begun (told ++ [event])
  closes : ∀ told s', writeAll s told = .accepted s' →
    ((∃ s'', close s' = .accepted s'') ↔ told = [] ∨ Complete told)

theorem refusesAfter_iff (s : σ) (told : List Event) (event : Event) :
    RefusesAfter s told event ↔ Takes s told ∧ ¬ Takes s (told ++ [event]) := by
  constructor
  · rintro ⟨s', hs', s'', why, hwrite⟩
    refine ⟨⟨s', hs'⟩, ?_⟩
    rintro ⟨_, hall⟩
    rw [writeAll_append hs', writeAll, hwrite] at hall
    exact absurd hall (by simp [Reply.andThen])
  · rintro ⟨⟨s', hs'⟩, hnot⟩
    cases hwrite : write s' event with
    | refused s'' why => exact ⟨s', hs', s'', why, hwrite⟩
    | accepted s'' =>
        refine absurd ⟨s'', ?_⟩ hnot
        rw [writeAll_append hs', writeAll, hwrite]
        rfl

/-- What is taken settles what is refused first. -/
theorem Judges.of_takes {s : σ} (htakes : ∀ told, Takes s told ↔ Begun told)
    (hcloses : ∀ told s', writeAll s told = .accepted s' →
      ((∃ s'', close s' = .accepted s'') ↔ told = [] ∨ Complete told)) : Judges s := by
  refine ⟨htakes, fun told event => ?_, hcloses⟩
  rw [refusesAfter_iff, htakes, htakes]

end Sink

namespace Json

/-! ## Writers -/

namespace Writer

/-- An open container as the nesting has it. -/
def Open.place : Open → Place
  | .object _ named => .object named
  | .array _ => .array

/-- A container around the innermost one. The writer still has the name of the value inside. -/
def Open.around : Open → Place
  | .object _ _ => .object false
  | .array _ => .array

/-- How far the document has been told. -/
def State.nesting (s : State) : Nesting where
  places :=
    match s.frames with
    | [] => []
    | frame :: outer => frame.place :: outer.map Open.around
  ended := s.rootWritten

/-- The nesting that a step leads to, if it does not refuse. -/
def Step.nesting? : Step → Option Nesting
  | .refused _ _ => none
  | .written _ s => some s.nesting

theorem endValue_nesting (s : State) (frames : List Open) :
    (endValue { s with frames }).nesting =
      Nesting.leave ⟨frames.map Open.around, s.rootWritten⟩ := by
  cases frames with
  | nil => simp [endValue, State.nesting, Nesting.leave]
  | cons frame outer =>
      cases frame <;> simp [endValue, State.nesting, Nesting.leave, Open.place, Open.around]

/-- Where a value is due, the writer makes room for it, and else it refuses. -/
theorem beginValue_cases (layout : Layout) (s : State) :
    (∃ why s', beginValue layout s = .refused why s' ∧ s.nesting.next = none) ∨
    (∃ chunks s', beginValue layout s = .written chunks s' ∧
      s.nesting.next = some ⟨s'.frames.map Open.around, s'.rootWritten⟩) := by
  obtain ⟨frames, rootWritten, indent, hasValue⟩ := s
  rcases frames with _ | ⟨_ | _, outer⟩
  · cases rootWritten
    · exact Or.inr ⟨_, _, rfl, rfl⟩
    · exact Or.inl ⟨_, _, rfl, rfl⟩
  · rename_i empty named
    cases named
    · exact Or.inl ⟨_, _, rfl, rfl⟩
    · exact Or.inr ⟨_, _, rfl, rfl⟩
  · exact Or.inr ⟨_, _, rfl, rfl⟩

theorem step_nesting (layout : Layout) (s : State) (event : Event) :
    (step layout s event).nesting? = s.nesting.step event := by
  cases event with
  | start kind =>
      rcases beginValue_cases layout s with ⟨why, s', hbegin, hnext⟩ | ⟨chunks, s', hbegin, hnext⟩
      · simp [step, start, hbegin, Step.andThen, Step.nesting?, Nesting.step, hnext]
      · rw [Nesting.step, hnext]
        cases kind <;>
          simp [step, start, hbegin, Step.andThen, Step.nesting?, State.nesting, Nesting.enter,
            Open.new, Open.place, Place.new]
  | scalar v =>
      rcases beginValue_cases layout s with ⟨why, s', hbegin, hnext⟩ | ⟨chunks, s', hbegin, hnext⟩
      · simp [step, scalar, hbegin, Step.andThen, Step.nesting?, Nesting.step, hnext]
      · have hend := endValue_nesting s' s'.frames
        simp [step, scalar, hbegin, Step.andThen, Step.nesting?, Nesting.step, hnext, ← hend]
  | stop kind =>
      have hend := endValue_nesting { s with indent := s.indent - 1 } s.frames.tail
      obtain ⟨frames, rootWritten, indent, hasValue⟩ := s
      rcases frames with _ | ⟨_ | _, outer⟩ <;> cases kind <;>
        simp_all [step, stop, Step.nesting?, Nesting.step, State.nesting, Open.place, Place.new]
      rename_i empty named
      cases named <;> simp_all
  | field name =>
      obtain ⟨frames, rootWritten, indent, hasValue⟩ := s
      rcases frames with _ | ⟨_ | _, outer⟩
      · rfl
      · rename_i empty named
        cases named <;> rfl
      · rfl

/-- In front of an output that takes everything, a run goes as far as the nesting does. -/
theorem writeAll_cases (layout : Layout) (s : State) (taken : List UInt8) (told : List Event) :
    (∃ s' taken', Sink.writeAll (⟨layout, s, ⟨taken, none⟩⟩ : Writer) told =
        .accepted ⟨layout, s', ⟨taken', none⟩⟩ ∧ s.nesting.run told = some s'.nesting) ∨
      (¬ Sink.Takes (⟨layout, s, ⟨taken, none⟩⟩ : Writer) told ∧ s.nesting.run told = none) := by
  induction told generalizing s taken with
  | nil => exact Or.inl ⟨s, taken, rfl, rfl⟩
  | cons event rest ih =>
      have hstep := step_nesting layout s event
      rw [Nesting.run, ← hstep]
      cases hwritten : step layout s event with
      | refused why s' =>
          refine Or.inr ⟨?_, rfl⟩
          rintro ⟨w, hw⟩
          have hwrite : Sink.write (⟨layout, s, ⟨taken, none⟩⟩ : Writer) event =
              .refused ⟨layout, s', ⟨taken, none⟩⟩ (.unbalanced why) := by
            show write _ event = _
            simp only [write, hwritten]
          rw [Sink.writeAll, hwrite] at hw
          exact absurd hw (by simp [Reply.andThen])
      | written chunks s' =>
          have hmore := Sink.writeAll_append (writes_of_step hwritten taken) rest
          rw [List.singleton_append] at hmore
          rw [Sink.Takes, hmore]
          exact ih s' _

/-- **A writer takes documents and nothing else**, in each layout. -/
theorem judges (layout : Layout) (taken : List UInt8) :
    Sink.Judges ({ layout, output := { taken } } : Writer) := by
  refine Sink.Judges.of_takes (fun told => ?_) (fun told w hw => ?_)
  · rw [← Nesting.run_isSome_iff]
    rcases writeAll_cases layout {} taken told with ⟨s, _, hw, hrun⟩ | ⟨hnot, hrun⟩
    · exact iff_of_true ⟨_, hw⟩ ⟨_, hrun⟩
    · refine iff_of_false hnot ?_
      rintro ⟨n, hn⟩
      exact absurd (hrun.symm.trans hn) (by simp)
  · rcases writeAll_cases layout {} taken told with ⟨s, _, hw', hrun⟩ | ⟨hnot, -⟩
    · cases hw.symm.trans hw'
      rw [← Nesting.places_eq_nil_iff hrun]
      show (∃ w', close _ = .accepted w') ↔ _
      rw [close, State.nesting]
      cases s.frames <;> simp
    · exact absurd ⟨w, hw⟩ hnot

end Writer

/-! ## Assemblies -/

/-- An open container as the nesting has it. -/
def Partial.place : Partial → Place
  | .object _ name => .object name.isSome
  | .array _ => .array

/-- A container around the innermost one. The assembly still has the name of the value inside. -/
def Partial.around : Partial → Place
  | .object _ _ => .object false
  | .array _ => .array

namespace Assembly

mutual

/-- A document that is told where a value is due is put there as the value it tells. -/
theorem writeAll_events : ∀ (d : Document) {a a' : Assembly}, a.attach d.value = .accepted a' →
    Sink.writeAll a d.events = .accepted a'
  | .whole v, a, a', h => by
      have hwrite : Sink.write a (.scalar v) = .accepted a' := h
      rw [Document.events, Sink.writeAll, hwrite]
      rfl
  | .array items, a, a', h => by
      have hitems := writeAll_itemEvents items [] a.frames a.root
      rw [List.append_nil] at hitems
      show Sink.writeAll { a with frames := .array [] :: a.frames }
        (Document.itemEvents items ++ [.stop .array]) = _
      rw [Sink.writeAll_append hitems]
      have hstop : Sink.write (⟨.array (Document.itemValues items).reverse :: a.frames, a.root⟩ :
          Assembly) (.stop .array) = .accepted a' := by
        show a.attach (.array (Document.itemValues items).reverse.reverse) = _
        rw [List.reverse_reverse]
        exact h
      rw [Sink.writeAll, hstop]
      rfl
  | .object members, a, a', h => by
      have hmembers : Sink.writeAll (⟨.object [] none :: a.frames, a.root⟩ : Assembly)
          (Document.memberEvents members) =
          .accepted ⟨.object (Dictionary.ofList (Document.memberValues members)) none ::
            a.frames, a.root⟩ := writeAll_memberEvents members [] a.frames a.root
      show Sink.writeAll { a with frames := .object [] none :: a.frames }
        (Document.memberEvents members ++ [.stop .object]) = _
      rw [Sink.writeAll_append hmembers]
      have hstop : Sink.write (⟨.object (Dictionary.ofList (Document.memberValues members)) none
          :: a.frames, a.root⟩ : Assembly) (.stop .object) = .accepted a' := h
      rw [Sink.writeAll, hstop]
      rfl

theorem writeAll_itemEvents : ∀ (items : List Document) (before : List Value)
    (outer : List Partial) (root : Option Value),
    Sink.writeAll (⟨.array before :: outer, root⟩ : Assembly) (Document.itemEvents items) =
      .accepted ⟨.array ((Document.itemValues items).reverse ++ before) :: outer, root⟩
  | [], _, _, _ => rfl
  | item :: rest, before, outer, root => by
      have hitem : Sink.writeAll (⟨.array before :: outer, root⟩ : Assembly) item.events =
          .accepted ⟨.array (item.value :: before) :: outer, root⟩ := writeAll_events item rfl
      rw [Document.itemEvents, Sink.writeAll_append hitem, writeAll_itemEvents rest]
      simp [Document.itemValues]

theorem writeAll_memberEvents : ∀ (members : List (String × Document))
    (before : Dictionary Value) (outer : List Partial) (root : Option Value),
    Sink.writeAll (⟨.object before none :: outer, root⟩ : Assembly)
        (Document.memberEvents members) =
      .accepted ⟨.object ((Document.memberValues members).foldl
        (fun d entry => Dictionary.insert entry.1 entry.2 d) before) none :: outer, root⟩
  | [], _, _, _ => rfl
  | (name, document) :: rest, before, outer, root => by
      have hvalue : Sink.writeAll (⟨.object before (some name) :: outer, root⟩ : Assembly)
          document.events =
          .accepted ⟨.object (before.insert name document.value) none :: outer, root⟩ :=
        writeAll_events document rfl
      show Sink.writeAll (⟨.object before (some name) :: outer, root⟩ : Assembly)
        (document.events ++ Document.memberEvents rest) = _
      rw [Sink.writeAll_append hvalue, writeAll_memberEvents rest]
      rfl

end

/-- How far the document has been told. -/
def nesting (a : Assembly) : Nesting where
  places :=
    match a.frames with
    | [] => []
    | frame :: outer => frame.place :: outer.map Partial.around
  ended := a.root.isSome

/-- Around some open container there is no place for it. -/
def Misplaced (a : Assembly) : Prop :=
  ∃ inner frame outer, a.frames = inner ++ frame :: outer ∧
    ∀ v a', (⟨outer, a.root⟩ : Assembly).attach v ≠ .accepted a'

theorem attach_cases (a : Assembly) (v : Value) :
    (a.nesting.next = none ∧ ∃ why, a.attach v = .refused a why) ∨
    (a.nesting.next = some ⟨a.frames.map Partial.around, a.root.isSome⟩ ∧
      ∃ a', a.attach v = .accepted a' ∧
        a'.nesting = Nesting.leave ⟨a.frames.map Partial.around, a.root.isSome⟩) := by
  obtain ⟨frames, root⟩ := a
  rcases frames with _ | ⟨⟨members, name⟩ | items, outer⟩
  · cases root
    · exact Or.inr ⟨rfl, _, rfl, rfl⟩
    · exact Or.inl ⟨rfl, _, rfl⟩
  · cases name
    · exact Or.inl ⟨rfl, _, rfl⟩
    · refine Or.inr ⟨rfl, _, rfl, ?_⟩
      simp [nesting, Nesting.leave, Partial.place, Partial.around]
  · refine Or.inr ⟨rfl, _, rfl, ?_⟩
    simp [nesting, Nesting.leave, Partial.place, Partial.around]

/-- Inside of a container, a value changes nothing but the innermost one. -/
theorem attach_cons {a a' : Assembly} {frame : Partial} {outer : List Partial} {v : Value}
    (h : a.frames = frame :: outer) (hattach : a.attach v = .accepted a') :
    ∃ frame', a'.frames = frame' :: outer ∧ a'.root = a.root := by
  rw [attach, h] at hattach
  rcases frame with ⟨members, _ | name⟩ | items
  · exact absurd hattach (by simp)
  · cases hattach
    exact ⟨_, rfl, rfl⟩
  · cases hattach
    exact ⟨_, rfl, rfl⟩

theorem Misplaced.congr {a a' : Assembly} {frame frame' : Partial} {outer : List Partial}
    (h : a.Misplaced) (ha : a.frames = frame :: outer) (ha' : a'.frames = frame' :: outer)
    (hroot : a'.root = a.root) : a'.Misplaced := by
  obtain ⟨inner, lost, around, hframes, hblocked⟩ := h
  rw [ha] at hframes
  rw [Misplaced, ha', hroot]
  cases inner with
  | nil =>
      cases hframes
      exact ⟨[], frame', outer, rfl, hblocked⟩
  | cons top inner =>
      cases hframes
      exact ⟨frame' :: inner, lost, around, rfl, hblocked⟩

/-- When the innermost container ends, it is the one without a place, or that one is outside. -/
theorem Misplaced.outer {a : Assembly} {frame : Partial} {outer : List Partial} (h : a.Misplaced)
    (ha : a.frames = frame :: outer) :
    (∀ v a', (⟨outer, a.root⟩ : Assembly).attach v ≠ .accepted a') ∨
      Misplaced ⟨outer, a.root⟩ := by
  obtain ⟨inner, lost, around, hframes, hblocked⟩ := h
  rw [ha] at hframes
  cases inner with
  | nil =>
      cases hframes
      exact Or.inl hblocked
  | cons top inner =>
      cases hframes
      exact Or.inr ⟨inner, lost, around, rfl, hblocked⟩

theorem Misplaced.attach {a a' : Assembly} {v : Value} (h : a.Misplaced)
    (hattach : a.attach v = .accepted a') : a'.Misplaced := by
  cases ha : a.frames with
  | nil =>
      obtain ⟨inner, lost, around, hframes, -⟩ := h
      exact absurd (ha.symm.trans hframes) (by simp)
  | cons frame outer =>
      obtain ⟨frame', ha', hroot⟩ := attach_cons ha hattach
      exact h.congr ha ha' hroot

/-- A container that has no place to go is never closed. -/
theorem Misplaced.write {a a' : Assembly} {event : Event} (h : a.Misplaced)
    (hwrite : a.write event = .accepted a') : a'.Misplaced := by
  have hends : ∀ {frame : Partial} {outer : List Partial} {v : Value}, a.frames = frame :: outer →
      Assembly.attach ⟨outer, a.root⟩ v = .accepted a' → a'.Misplaced := by
    intro frame outer v ha hattach
    rcases h.outer ha with hblocked | hmisplaced
    · exact absurd hattach (hblocked v a')
    · exact hmisplaced.attach hattach
  cases event with
  | start kind =>
      obtain ⟨inner, lost, around, hframes, hblocked⟩ := h
      cases kind <;> cases hwrite <;>
        exact ⟨_ :: inner, lost, around, by rw [hframes]; rfl, hblocked⟩
  | scalar v => exact h.attach hwrite
  | stop kind =>
      cases kind <;> rw [Assembly.write] at hwrite <;> split at hwrite
      · exact hends ‹_› hwrite
      · exact absurd hwrite (by simp)
      · exact hends ‹_› hwrite
      · exact absurd hwrite (by simp)
  | field name =>
      rw [Assembly.write] at hwrite
      split at hwrite
      · rename_i members outer hframes
        cases hwrite
        exact h.congr hframes rfl rfl
      · exact absurd hwrite (by simp)

/-- An event that is taken fits, or it opens a container where no value is due. -/
theorem write_nesting {a a' : Assembly} {event : Event} (h : a.write event = .accepted a') :
    a.nesting.step event = some a'.nesting ∨ a'.Misplaced := by
  have hends : ∀ {frame : Partial} {outer : List Partial} {v : Value}, a.frames = frame :: outer →
      attach ⟨outer, a.root⟩ v = .accepted a' →
      some (Nesting.leave ⟨outer.map Partial.around, a.root.isSome⟩) = some a'.nesting := by
    intro frame outer v ha hattach
    rcases attach_cases ⟨outer, a.root⟩ v with ⟨-, why, hrefused⟩ | ⟨-, a₁, haccepted, hnesting⟩
    · exact absurd (hattach.symm.trans hrefused) (by simp)
    · cases haccepted.symm.trans hattach
      rw [hnesting]
  cases event with
  | start kind =>
      rcases attach_cases a .null with ⟨hnext, -⟩ | ⟨hnext, -⟩
      · right
        have hblocked : ∀ v a', a.attach v ≠ .accepted a' := by
          intro v a' hattach
          rcases attach_cases a v with ⟨-, why, hrefused⟩ | ⟨hdue, -⟩
          · exact absurd (hattach.symm.trans hrefused) (by simp)
          · exact absurd (hnext.symm.trans hdue) (by simp)
        cases kind <;> cases h <;> exact ⟨[], _, _, rfl, hblocked⟩
      · left
        rw [Nesting.step, hnext]
        cases kind <;> cases h <;> rfl
  | scalar v =>
      left
      rcases attach_cases a v with ⟨-, why, hrefused⟩ | ⟨hnext, a₁, haccepted, hnesting⟩
      · exact absurd (h.symm.trans hrefused) (by simp)
      · cases haccepted.symm.trans h
        rw [Nesting.step, hnext, hnesting]
        rfl
  | stop kind =>
      left
      cases kind <;> rw [Assembly.write] at h <;> split at h
      · rename_i members outer hframes
        rw [← hends hframes h, Nesting.step, nesting, hframes]
        rfl
      · exact absurd h (by simp)
      · rename_i items outer hframes
        rw [← hends hframes h, Nesting.step, nesting, hframes]
        rfl
      · exact absurd h (by simp)
  | field name =>
      left
      rw [Assembly.write] at h
      split at h
      · rename_i members outer hframes
        cases h
        rw [Nesting.step, nesting, hframes]
        rfl
      · exact absurd h (by simp)

theorem Misplaced.writeAll {a a' : Assembly} {told : List Event} (h : a.Misplaced)
    (hwrite : Sink.writeAll a told = .accepted a') : a'.Misplaced := by
  induction told generalizing a with
  | nil =>
      cases hwrite
      exact h
  | cons event rest ih =>
      rw [Sink.writeAll] at hwrite
      obtain ⟨next, hnext, hrest⟩ := Reply.andThen_eq_accepted hwrite
      exact ih (h.write hnext) hrest

/-- A run that is taken follows the nesting, or it left it once and for all. -/
theorem writeAll_nesting {a a' : Assembly} {told : List Event}
    (h : Sink.writeAll a told = .accepted a') :
    a.nesting.run told = some a'.nesting ∨ a'.Misplaced := by
  induction told generalizing a with
  | nil =>
      cases h
      exact Or.inl rfl
  | cons event rest ih =>
      rw [Sink.writeAll] at h
      obtain ⟨next, hwrite, hrest⟩ := Reply.andThen_eq_accepted h
      rcases write_nesting hwrite with hstep | hmisplaced
      · rw [Nesting.run, hstep]
        exact ih hrest
      · exact Or.inr (hmisplaced.writeAll hrest)

/-- **An assembly yields a value of exactly the documents**, namely the one they tell. -/
theorem yields_iff (told : List Event) (v : Value) :
    (∃ a, Sink.writeAll ({} : Assembly) told = .accepted a ∧ a.value? = some v) ↔
      ∃ d : Document, told = d.events ∧ d.value = v := by
  have htold : ∀ d : Document,
      Sink.writeAll ({} : Assembly) d.events = .accepted ⟨[], some d.value⟩ :=
    fun d => writeAll_events d rfl
  constructor
  · rintro ⟨a, ha, hv⟩
    obtain ⟨frames, root⟩ := a
    cases frames with
    | cons => exact absurd hv (by simp [value?])
    | nil =>
        -- no container is open, so none is misplaced, and the nesting was followed to its end
        rcases writeAll_nesting ha with hrun | ⟨inner, frame, outer, hframes, -⟩
        · rcases (Nesting.places_eq_nil_iff hrun).mp rfl with rfl | ⟨d, rfl⟩
          · cases ha
            exact absurd hv (by simp [value?])
          · cases (htold d).symm.trans ha
            exact ⟨d, rfl, Option.some.inj hv⟩
        · exact absurd hframes (by simp)
  · rintro ⟨d, rfl, rfl⟩
    exact ⟨_, htold d, rfl⟩

end Assembly

end Json

end FieldSelection
