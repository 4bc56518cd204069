import FieldSelection.Proofs.Filtering.Cutoff

/-!
# Values that are told, and values that are handed over

A writer can be told a value event by event, or it can be handed the value as a whole. In the first
case the text comes of its stack of open containers, in the second of recursion over the value. In a
layout with lines the two differ, since a value that is handed over is written without blanks. In
the compact layout they are the same text.

They are the same for whatever follows, too. The writer is left with the same containers. All that
it may know is whether the last one had something in it, and that is of use only to a layout with
lines. And if the output gets full, it gets full of the same bytes, though not at the same event.
-/

namespace FieldSelection

open Json

namespace Json

/-! ## Two recursions -/

namespace Value

mutual

/-- Without blanks, the text of a value is the same at every indentation. -/
theorem text_compact : ∀ (v : Value) (indent : Nat), v.text .compact indent = v.compact
  | .array items, indent => by
      rw [text, textOfItems_compact items, compact]
      cases items.isEmpty <;> rfl
  | .object members, indent => by
      rw [text, textOfMembers_compact members, compact]
      cases members.isEmpty <;> rfl
  | .null, _ | .bool _, _ | .number _, _ | .string _, _ => by
      rw [text_of_isScalar rfl, compact_of_isScalar rfl]

theorem textOfItems_compact : ∀ (items : List Value) (indent : Nat) (first : Bool),
    textOfItems .compact indent first items = compactItems first items
  | [], _, _ => rfl
  | item :: rest, indent, first => by
      rw [textOfItems, text_compact item, textOfItems_compact rest, compactItems]
      simp [Writer.separator, Writer.newLine]

theorem textOfMembers_compact : ∀ (members : List (String × Value)) (indent : Nat) (first : Bool),
    textOfMembers .compact indent first members = compactMembers first members
  | [], _, _ => rfl
  | (name, value) :: rest, indent, first => by
      rw [textOfMembers, text_compact value, textOfMembers_compact rest, compactMembers]
      simp [Writer.separator, Writer.newLine, Writer.assignment]

end

end Value

/-! ## What a compact writer need not know -/

namespace Writer

/-- The state without whether the last container had something in it. -/
def State.forget (s : State) : State := { s with hasValue := false }

/-- The chunk without that. -/
def Chunk.forget (chunk : Chunk) : Chunk := { chunk with ifCut := chunk.ifCut.forget }

/-- The step without that. -/
def Step.forget : Step → Step
  | .refused why s => .refused why s.forget
  | .written chunks s => .written (chunks.map Chunk.forget) s.forget

/-- Writers without blanks that are the same but for that. -/
structure Alike (w w' : Writer) : Prop where
  layout : w.layout = .compact
  layout' : w'.layout = .compact
  state : w.state.forget = w'.state.forget
  output : w.output = w'.output

theorem Alike.refl (s : State) (o : Output) : Alike ⟨.compact, s, o⟩ ⟨.compact, s, o⟩ :=
  ⟨rfl, rfl, rfl, rfl⟩

/-- No event is written otherwise for it. -/
theorem step_forget (s : State) (event : Event) :
    (step .compact s.forget event).forget = (step .compact s event).forget := by
  obtain ⟨frames, rootWritten, indent, hasValue⟩ := s
  cases event with
  | start kind =>
      rcases frames with _ | ⟨⟨empty, named⟩ | empty, outer⟩
      · cases rootWritten <;> rfl
      · cases named <;> rfl
      · rfl
  | stop kind =>
      -- a line would begin in front of the end, if there were lines
      rcases frames with _ | ⟨⟨empty, named⟩ | empty, outer⟩
      · cases kind <;> rfl
      · cases kind <;> cases named <;> cases hasValue <;> rcases outer with _ | ⟨_ | _, outer⟩ <;>
          rfl
      · cases kind <;> cases hasValue <;> rcases outer with _ | ⟨_ | _, outer⟩ <;> rfl
  | field name =>
      rcases frames with _ | ⟨⟨empty, named⟩ | empty, outer⟩
      · rfl
      · cases named <;> rfl
      · rfl
  | scalar v =>
      rcases frames with _ | ⟨⟨empty, named⟩ | empty, outer⟩
      · cases rootWritten <;> rfl
      · cases named <;> rfl
      · rfl

/-- Chunks that are the same but for that are taken by both outputs, or cut by both. -/
theorem put_alike {state state' : State} (hstate : state.forget = state'.forget) :
    ∀ {chunks chunks' : List Chunk}, chunks.map Chunk.forget = chunks'.map Chunk.forget →
      ∀ {w w' : Writer}, Alike w w' →
        Reply.Related Alike (w.put state chunks) (w'.put state' chunks')
  | [], [], _, w, w', h => .accepted ⟨h.layout, h.layout', hstate, h.output⟩
  | ⟨bytes, isContent, ifCut⟩ :: rest, chunk' :: rest', hchunks, w, w', h => by
      obtain ⟨hchunk, hrest⟩ := List.cons.inj hchunks
      obtain ⟨rfl, rfl, hcut⟩ := (Chunk.mk.injEq ..).mp hchunk
      rw [put, put, ← h.output]
      dsimp only [Chunk.forget]
      rcases w.output.take chunk'.bytes with ⟨output, _ | _⟩
      · exact .refused ⟨h.layout, h.layout', hcut, rfl⟩
      · exact put_alike hstate hrest ⟨h.layout, h.layout', h.state, rfl⟩

theorem write_alike {w w' : Writer} (event : Event) (h : Alike w w') :
    Reply.Related Alike (Sink.write w event) (Sink.write w' event) := by
  show Reply.Related Alike (w.write event) (w'.write event)
  have hstep : (step .compact w.state event).forget = (step .compact w'.state event).forget := by
    rw [← step_forget, h.state, step_forget]
  rw [write, write, h.layout, h.layout']
  cases hs : step .compact w.state event with
  | refused why s =>
      cases hs' : step .compact w'.state event with
      | refused why' s' =>
          rw [hs, hs'] at hstep
          obtain ⟨rfl, hstate⟩ := (Step.refused.injEq ..).mp hstep
          exact .refused ⟨rfl, rfl, hstate, h.output⟩
      | written => exact absurd (hs ▸ hs' ▸ hstep) (by simp [Step.forget])
  | written chunks s =>
      cases hs' : step .compact w'.state event with
      | refused => exact absurd (hs ▸ hs' ▸ hstep) (by simp [Step.forget])
      | written chunks' s' =>
          rw [hs, hs'] at hstep
          obtain ⟨hchunks, hstate⟩ := (Step.written.injEq ..).mp hstep
          exact put_alike hstate hchunks h

/-- **Two such writers go in lockstep**, whatever they are told. -/
theorem writeAll_alike (events : List Event) {w w' : Writer} (h : Alike w w') :
    Reply.Related Alike (Sink.writeAll w events) (Sink.writeAll w' events) :=
  Sink.writeAll_related (fun _ _ event h => write_alike event h) events h

/-! ## Told and handed over -/

theorem endValue_forget (s : State) (hasValue : Bool) :
    (endValue { s with hasValue }).forget = (endValue s).forget := by
  obtain ⟨_ | ⟨_ | _, outer⟩, rootWritten, indent, _⟩ := s <;> rfl

theorem writeAll_of_refused {s s' : State} {event : Event} {why : Imbalance}
    (h : step .compact s event = .refused why s') (o : Output) (rest : List Event) :
    Sink.writeAll (⟨.compact, s, o⟩ : Writer) (event :: rest) =
      .refused ⟨.compact, s', o⟩ (.unbalanced why) := by
  have hwrite : Sink.write (⟨.compact, s, o⟩ : Writer) event =
      .refused ⟨.compact, s', o⟩ (.unbalanced why) := by
    show write _ event = _
    rw [write]
    simp only [h]
  rw [Sink.writeAll, hwrite]
  rfl

/-- Where no value is due, the first event of a value is refused, and so is the value. -/
theorem refuses_value {s s' : State} {why : Imbalance}
    (h : beginValue .compact s = .refused why s') (v : Value) (o : Output) :
    Sink.writeAll (⟨.compact, s, o⟩ : Writer) v.events =
        .refused ⟨.compact, s', o⟩ (.unbalanced why) ∧
      Sink.writeAll (⟨.compact, s, o⟩ : Writer) [.scalar v] =
        .refused ⟨.compact, s', o⟩ (.unbalanced why) := by
  have hstart : ∀ kind, step .compact s (.start kind) = .refused why s' := fun kind => by
    rw [step, start, h, Step.andThen]
  have hscalar : ∀ v, step .compact s (.scalar v) = .refused why s' := fun v => by
    rw [step, scalar, h, Step.andThen]
  refine ⟨?_, writeAll_of_refused (hscalar v) o []⟩
  cases v with
  | array items => exact writeAll_of_refused (hstart .array) o _
  | object members => exact writeAll_of_refused (hstart .object) o _
  | null | bool | number | string => exact writeAll_of_refused (hscalar _) o []

/-- An output that takes everything gets the same bytes in both ways. -/
theorem told_alike (v : Value) (s : State) (taken : List UInt8) :
    Reply.Related Alike (Sink.writeAll (⟨.compact, s, ⟨taken, none⟩⟩ : Writer) v.events)
      (Sink.writeAll (⟨.compact, s, ⟨taken, none⟩⟩ : Writer) [.scalar v]) := by
  cases hbegin : beginValue .compact s with
  | refused why s' =>
      obtain ⟨htold, hwhole⟩ := refuses_value hbegin v ⟨taken, none⟩
      rw [htold, hwhole]
      exact .refused (.refl _ _)
  | written chunks s' =>
      obtain ⟨hasValue, htold⟩ := writes_text v.told hbegin
      rw [v.told_events, v.told_text, v.text_compact] at htold
      rw [htold taken, writes_scalar v hbegin taken]
      exact .accepted ⟨rfl, rfl, endValue_forget s' hasValue, rfl⟩

/-- So does it with whatever follows. -/
theorem told_alike_append (v : Value) (s : State) (taken : List UInt8) (more : List Event) :
    Reply.Related Alike (Sink.writeAll (⟨.compact, s, ⟨taken, none⟩⟩ : Writer) (v.events ++ more))
      (Sink.writeAll (⟨.compact, s, ⟨taken, none⟩⟩ : Writer) (.scalar v :: more)) := by
  have hwhole : Event.scalar v :: more = [.scalar v] ++ more := rfl
  rw [hwhole, Sink.writeAll_append_eq, Sink.writeAll_append_eq]
  exact (told_alike v s taken).andThen fun _ _ h => writeAll_alike more h

/-- The bytes that an output takes, and whether it takes them all, do not depend on how they are
handed over. -/
theorem limited_writeAll {w w' : Writer} {limit : Nat} (h : Within limit w w')
    (events : List Event) :
    (Sink.writeAll w' events).sink.output.written =
        (Sink.writeAll w events).sink.output.written.take limit ∧
      ((Sink.writeAll w' events).failure? = none ↔
        (Sink.writeAll w events).failure? = none ∧
          (Sink.writeAll w events).sink.output.written.length ≤ limit) := by
  obtain ⟨hwritten, hsame, hcut⟩ := limited_of_follows id id (fun _ _ h => h) (fun _ _ h => h)
    ((cutsOff limit).writeAll events h)
  refine ⟨hwritten, ?_⟩
  simp only [id] at hsame hcut
  constructor
  · intro hnone
    have hle : (Sink.writeAll w events).sink.output.written.length ≤ limit := by
      refine Nat.le_of_not_lt fun hlt => ?_
      obtain ⟨why, hwhy, _⟩ := hcut hlt
      exact absurd (hnone.symm.trans hwhy) (by simp)
    exact ⟨(hsame hle).symm.trans hnone, hle⟩
  · rintro ⟨hnone, hle⟩
    exact (hsame hle).trans hnone

/-- **A compact writer that is told a value writes what it writes if it is handed the value.** A
fresh one accepts both and writes the compact text of the value. In the middle of any document,
with anything behind the value and whatever room there is, the bytes are the same, and either both
ways are accepted or neither is. -/
theorem told_as_whole (v : Value) :
    (∃ w w' : Writer, Sink.writeAll ({ layout := .compact } : Writer) v.events = .accepted w ∧
      Sink.write ({ layout := .compact } : Writer) (.scalar v) = .accepted w' ∧
      Sink.close w = .accepted w ∧ Sink.close w' = .accepted w' ∧
      w.output.written = v.compact ∧ w'.output.written = v.compact) ∧
    ∀ (s : State) (o : Output) (more : List Event),
      let told := Sink.writeAll (⟨.compact, s, o⟩ : Writer) (v.events ++ more)
      let whole := Sink.writeAll (⟨.compact, s, o⟩ : Writer) (.scalar v :: more)
      told.sink.output.written = whole.sink.output.written ∧
        (told.failure? = none ↔ whole.failure? = none) ∧
        (o.room = none → told.failure? = whole.failure?) := by
  refine ⟨?_, ?_⟩
  · obtain ⟨w, htold, hclose, htaken⟩ := writes_document .compact v []
    refine ⟨w, _, htold, rfl, hclose, rfl, ?_, ?_⟩
    · rw [Output.written, htaken, v.text_compact, List.append_nil, List.reverse_reverse]
    · simp [Output.written, Output.fitting]
  · rintro s ⟨taken, room⟩ more
    have halike := told_alike_append v s taken more
    have houtput := halike.sink.output
    have hfailure := halike.failure?_eq
    cases room with
    | none =>
        refine ⟨?_, ?_, fun _ => hfailure⟩
        · rw [houtput]
        · rw [hfailure]
    | some room =>
        -- both ways fill the room with the beginning of the same bytes
        have hwithin : Within (taken.length + room) ⟨.compact, s, ⟨taken, none⟩⟩
            ⟨.compact, s, ⟨taken, some room⟩⟩ := by
          refine ⟨rfl, Nat.le_add_right _ _, ?_⟩
          simp [limited]
        obtain ⟨htold, htold'⟩ := limited_writeAll hwithin (v.events ++ more)
        obtain ⟨hwhole, hwhole'⟩ := limited_writeAll hwithin (.scalar v :: more)
        refine ⟨?_, ?_, fun hroom => absurd hroom (by simp)⟩
        · rw [htold, hwhole, houtput]
        · rw [htold', hwhole', houtput, hfailure]

-- With lines, only an array that is told has its items on lines of their own.
example :
    let w : Writer := { layout := .pretty }
    let v : Value := .array [.null]
    (Sink.writeAll w v.events).sink.output.written ≠
      (Sink.write w (.scalar v)).sink.output.written := by
  decide +kernel

end Writer

end Json

end FieldSelection
