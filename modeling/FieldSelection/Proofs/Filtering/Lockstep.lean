import FieldSelection.Filtering
import FieldSelection.Proofs.Context.Place
import Mathlib.Data.List.Forall2

/-!
# Filters of trees that keep alike

Two trees keep alike if at every place of a document they agree on whether everything is kept
there, and on whether a value without values inside is. The filter asks its tree for nothing
else. So the filters of two such trees go in lockstep, whatever the events and whatever the
sink behind them: the frames of the one have the contexts of the same places as those of the
other, and all else about them is equal. Each kind of event keeps this, and what is passed on
is the same.
-/

namespace FieldSelection

open Json

/-! ## Runs of related sinks -/

/-- Replies that both accept or both refuse for one reason, and go on from related sinks. -/
inductive Reply.Related {σ τ : Type} (R : σ → τ → Prop) : Reply σ → Reply τ → Prop where
  | accepted {s : σ} {s' : τ} : R s s' → Related R (.accepted s) (.accepted s')
  | refused {s : σ} {s' : τ} {why : Failure} : R s s' → Related R (.refused s why) (.refused s' why)

section Runs

variable {σ τ : Type} {R : σ → τ → Prop}

namespace Reply.Related

theorem sink {r : Reply σ} {r' : Reply τ} (h : Related R r r') : R r.sink r'.sink := by
  cases h with
  | accepted h => exact h
  | refused h => exact h

theorem failure?_eq {r : Reply σ} {r' : Reply τ} (h : Related R r r') :
    r.failure? = r'.failure? := by
  cases h with
  | accepted => rfl
  | refused => rfl

theorem andThen {r : Reply σ} {r' : Reply τ} {next : σ → Reply σ} {next' : τ → Reply τ}
    (h : Related R r r') (hnext : ∀ s s', R s s' → Related R (next s) (next' s')) :
    Related R (r.andThen next) (r'.andThen next') := by
  cases h with
  | accepted h => exact hnext _ _ h
  | refused h => exact .refused h

end Reply.Related

variable [Sink σ] [Sink τ]

/-- If each event keeps two sinks related, a run does. -/
theorem Sink.writeAll_related
    (hwrite : ∀ s s' event, R s s' → Reply.Related R (write s event) (write s' event))
    (events : List Event) {s : σ} {s' : τ} (h : R s s') :
    Reply.Related R (writeAll s events) (writeAll s' events) := by
  induction events generalizing s s' with
  | nil => exact .accepted h
  | cons event rest ih => exact (hwrite s s' event h).andThen fun _ _ h => ih h

theorem Source.into_related
    (hwrite : ∀ s s' event, R s s' → Reply.Related R (Sink.write s event) (Sink.write s' event))
    (source : Source) {s : σ} {s' : τ} (h : R s s') :
    Reply.Related R (source.into s) (source.into s') := by
  refine (Sink.writeAll_related hwrite source.events h).andThen fun s s' h => ?_
  cases source.failure? with
  | none => exact .accepted h
  | some why => exact .refused h

end Runs

/-- Trees that keep the same at every place, as far as the filter asks. -/
structure Tree.KeepAlike (t u : Tree) : Prop where
  /-- They keep everything at the same places. -/
  all_iff : ∀ names, t.contextAt names = some .all ↔ u.contextAt names = some .all
  /-- They keep a value without values inside at the same places. -/
  scalar_eq : ∀ names, (t.contextAt names).any (Context.keepsScalar t.graph) =
    (u.contextAt names).any (Context.keepsScalar u.graph)

namespace Filtering

variable {t u : Tree}

/-! ## Related states -/

/-- The contexts that two trees have at one place. -/
def SamePlace (t u : Tree) (context context' : Option Context) : Prop :=
  ∃ names, context = t.contextAt names ∧ context' = u.contextAt names

/-- Fields of one name, whose values are at one place. -/
structure PendingField.Alike (t u : Tree) (pending pending' : PendingField) : Prop where
  name : pending.name = pending'.name
  context : SamePlace t u pending.context pending'.context

/-- Frames of one container, with the contexts of its place. -/
structure Frame.Alike (t u : Tree) (frame frame' : Frame) : Prop where
  kind : frame.kind = frame'.kind
  context : SamePlace t u frame.context frame'.context
  field : frame.field = frame'.field
  written : frame.written = frame'.written
  pending : Option.Rel (PendingField.Alike t u) frame.pending frame'.pending

/-- States that differ only in what is kept at one place by the trees. -/
structure State.Alike (t u : Tree) (s s' : State) : Prop where
  frames : List.Forall₂ (Frame.Alike t u) s.frames s'.frames
  rootKind : s.rootKind = s'.rootKind
  rootDone : s.rootDone = s'.rootDone
  matched : s.matched = s'.matched

/-- The same event, to be passed on in related states. -/
structure Handoff.Alike (t u : Tree) (handoff handoff' : Handoff) : Prop where
  event : handoff.event = handoff'.event
  ifRefused : State.Alike t u handoff.ifRefused handoff'.ifRefused

/-- Steps that refuse for one reason, or pass on the same. -/
inductive Step.Alike (t u : Tree) : Step → Step → Prop where
  | refused {why : Imbalance} {s s' : State} :
      State.Alike t u s s' → Step.Alike t u (.refused why s) (.refused why s')
  | passed {handoffs handoffs' : List Handoff} {s s' : State} :
      List.Forall₂ (Handoff.Alike t u) handoffs handoffs' → State.Alike t u s s' →
      Step.Alike t u (.passed handoffs s) (.passed handoffs' s')

theorem SamePlace.root (t u : Tree) :
    SamePlace t u (some (.ofNode t.graph t.root)) (some (.ofNode u.graph u.root)) :=
  ⟨[], rfl, rfl⟩

theorem SamePlace.field {context context' : Option Context} (h : SamePlace t u context context')
    (name : String) : SamePlace t u (context.bind (Context.field t.graph name))
      (context'.bind (Context.field u.graph name)) := by
  obtain ⟨names, rfl, rfl⟩ := h
  exact ⟨names ++ [name], Tree.contextAt_concat.symm, Tree.contextAt_concat.symm⟩

theorem SamePlace.all_iff {context context' : Option Context} (h : SamePlace t u context context')
    (htu : t.KeepAlike u) : context = some .all ↔ context' = some .all := by
  obtain ⟨names, rfl, rfl⟩ := h
  exact htu.all_iff names

theorem SamePlace.scalar_eq {context context' : Option Context}
    (h : SamePlace t u context context') (htu : t.KeepAlike u) :
    context.any (Context.keepsScalar t.graph) = context'.any (Context.keepsScalar u.graph) := by
  obtain ⟨names, rfl, rfl⟩ := h
  exact htu.scalar_eq names

theorem Frame.Alike.opened {frame frame' : Frame} (h : frame.Alike t u frame') :
    frame.opened.Alike t u frame'.opened :=
  { h with written := rfl }

theorem Frame.Alike.isSome_eq {frame frame' : Frame} (h : frame.Alike t u frame') :
    frame.pending.isSome = frame'.pending.isSome := by
  have hpending := h.pending
  cases hp : frame.pending with
  | none =>
      rw [hp] at hpending
      cases hp' : frame'.pending with
      | none => rfl
      | some => rw [hp'] at hpending; cases hpending
  | some =>
      rw [hp] at hpending
      cases hp' : frame'.pending with
      | none => rw [hp'] at hpending; cases hpending
      | some => rfl

theorem Frame.Alike.opening_eq {frame frame' : Frame} (h : frame.Alike t u frame') :
    frame.opening = frame'.opening := by
  rw [Frame.opening, Frame.opening, h.field, h.kind]

theorem forall₂_opened {frames frames' : List Frame}
    (h : List.Forall₂ (Frame.Alike t u) frames frames') :
    List.Forall₂ (Frame.Alike t u) (frames.map Frame.opened) (frames'.map Frame.opened) :=
  List.rel_map (fun _ _ h => h.opened) h

/-- The same events, all to be passed on in related states. -/
theorem forall₂_handoffs {s s' : State} (h : s.Alike t u s') (events : List Event) :
    List.Forall₂ (Handoff.Alike t u) (events.map fun event => ⟨event, s⟩)
      (events.map fun event => ⟨event, s'⟩) := by
  induction events with
  | nil => exact .nil
  | cons event rest ih => exact .cons ⟨rfl, h⟩ ih

namespace State.Alike

variable {s s' : State}

theorem init (t u : Tree) : State.Alike t u {} {} := ⟨.nil, rfl, rfl, rfl⟩

theorem opened (h : s.Alike t u s') : s.opened.Alike t u s'.opened :=
  { h with frames := forall₂_opened h.frames }

theorem count (h : s.Alike t u s') (counted : Bool) :
    (s.count counted).Alike t u (s'.count counted) := by
  cases counted with
  | true => exact h
  | false => exact { h with matched := congrArg (· + 1) h.matched }

theorem isEmpty_eq (h : s.Alike t u s') : s.frames.isEmpty = s'.frames.isEmpty := by
  obtain ⟨frames, rootKind, rootDone, matched⟩ := s
  obtain ⟨frames', rootKind', rootDone', matched'⟩ := s'
  cases h.frames with
  | nil => rfl
  | cons => rfl

theorem isCounted_eq (h : s.Alike t u s') (htu : t.KeepAlike u) : s.isCounted = s'.isCounted := by
  obtain ⟨frames, rootKind, rootDone, matched⟩ := s
  obtain ⟨frames', rootKind', rootDone', matched'⟩ := s'
  cases h.frames with
  | nil => rfl
  | cons hframe _ =>
      rw [Bool.eq_iff_iff, State.isCounted, State.isCounted, beq_iff_eq, beq_iff_eq]
      exact hframe.context.all_iff htu

/-- Where the next value belongs depends on the place only. -/
theorem nextValue (h : s.Alike t u s') :
    (∃ why, s.nextValue t = .error why ∧ s'.nextValue u = .error why) ∨
    ∃ context context' field next next', s.nextValue t = .ok (context, field, next) ∧
      s'.nextValue u = .ok (context', field, next') ∧ SamePlace t u context context' ∧
      State.Alike t u next next' := by
  obtain ⟨frames, rootKind, rootDone, matched⟩ := s
  obtain ⟨frames', rootKind', rootDone', matched'⟩ := s'
  obtain ⟨hframes, rfl, rfl, rfl⟩ := h
  cases hframes with
  | nil =>
      cases rootDone with
      | true => exact Or.inl ⟨_, rfl, rfl⟩
      | false => exact Or.inr ⟨_, _, _, _, _, rfl, rfl, .root t u, .nil, rfl, rfl, rfl⟩
  | @cons frame frame' outer outer' hframe houter =>
      obtain ⟨kind, context, field, written, pending⟩ := frame
      obtain ⟨kind', context', field', written', pending'⟩ := frame'
      obtain ⟨rfl, hcontext, rfl, rfl, hpending⟩ := hframe
      cases kind with
      | array =>
          exact Or.inr ⟨_, _, _, _, _, rfl, rfl, hcontext,
            .cons ⟨rfl, hcontext, rfl, rfl, hpending⟩ houter, rfl, rfl, rfl⟩
      | object =>
          cases hpending with
          | none => exact Or.inl ⟨_, rfl, rfl⟩
          | @some p p' hp =>
              obtain ⟨name, context₁⟩ := p
              obtain ⟨name', context₁'⟩ := p'
              obtain ⟨rfl, hcontext₁⟩ := hp
              exact Or.inr ⟨_, _, _, _, _, rfl, rfl, hcontext₁,
                .cons ⟨rfl, hcontext, rfl, rfl, .none⟩ houter, rfl, rfl, rfl⟩

/-- Starts that were held back are passed on alike. -/
theorem heldBack (h : s.Alike t u s') {inner inner' frames frames' : List Frame}
    (hinner : List.Forall₂ (Frame.Alike t u) inner inner')
    (hframes : List.Forall₂ (Frame.Alike t u) frames frames') :
    List.Forall₂ (Handoff.Alike t u) (s.heldBack inner frames) (s'.heldBack inner' frames') := by
  induction hframes generalizing inner inner' with
  | nil => exact .nil
  | @cons frame frame' outer outer' hframe houter ih =>
      have hbefore : State.Alike t u
          { s with frames := inner ++ frame :: outer.map Frame.opened }
          { s' with frames := inner' ++ frame' :: outer'.map Frame.opened } :=
        { h with frames := List.rel_append hinner (.cons hframe (forall₂_opened houter)) }
      rw [State.heldBack, State.heldBack]
      refine List.rel_append (ih (List.rel_append hinner (.cons hframe .nil))) ?_
      rw [← hframe.written, ← hframe.opening_eq]
      split
      · exact .nil
      · exact forall₂_handoffs hbefore _

theorem passing (h : s.Alike t u s') (events : List Event) :
    List.Forall₂ (Handoff.Alike t u) (s.passing events) (s'.passing events) :=
  List.rel_append (h.heldBack .nil h.frames) (forall₂_handoffs h.opened events)

/-! ## Each event keeps states related -/

theorem start (h : s.Alike t u s') (htu : t.KeepAlike u) (kind : Container) :
    Step.Alike t u (s.start t kind) (s'.start u kind) := by
  rcases h.nextValue with ⟨why, hs, hs'⟩ | ⟨context, context', field, next, next', hs, hs',
    hcontext, hnext⟩
  · rw [State.start, State.start, hs, hs']
    exact .refused h
  · have hpushed : State.Alike t u
        { next with
          rootKind := if next.frames.isEmpty then some kind else next.rootKind
          frames := { kind, context, field } :: next.frames }
        { next' with
          rootKind := if next'.frames.isEmpty then some kind else next'.rootKind
          frames := { kind, context := context', field } :: next'.frames } := by
      refine { hnext with
        frames := .cons ⟨rfl, hcontext, rfl, rfl, .none⟩ hnext.frames, rootKind := ?_ }
      rw [hnext.isEmpty_eq, hnext.rootKind]
    simp only [State.start, hs, hs', hcontext.all_iff htu, h.isCounted_eq htu]
    split
    · exact .passed (hpushed.passing []) (hpushed.opened.count _)
    · exact .passed .nil hpushed

theorem stop (h : s.Alike t u s') (kind : Container) :
    Step.Alike t u (s.stop kind) (s'.stop kind) := by
  obtain ⟨frames, rootKind, rootDone, matched⟩ := s
  obtain ⟨frames', rootKind', rootDone', matched'⟩ := s'
  obtain ⟨hframes, rfl, rfl, rfl⟩ := h
  cases hframes with
  | nil => exact .refused ⟨.nil, rfl, rfl, rfl⟩
  | @cons frame frame' outer outer' hframe houter =>
      have hnext : ∀ rootDone, State.Alike t u ⟨outer, rootKind, rootDone, matched⟩
          ⟨outer', rootKind, rootDone, matched⟩ := fun _ => ⟨houter, rfl, rfl, rfl⟩
      simp only [State.stop, hframe.kind, hframe.isSome_eq, hframe.written]
      split
      · exact .refused (hnext _)
      · split
        · exact .refused (hnext _)
        · have hempty : outer.isEmpty = outer'.isEmpty := (hnext rootDone).isEmpty_eq
          rw [hempty]
          refine .passed ?_ (hnext _)
          split
          · exact .cons ⟨rfl, hnext _⟩ .nil
          · exact .nil

theorem field (h : s.Alike t u s') (name : String) :
    Step.Alike t u (s.field t name) (s'.field u name) := by
  obtain ⟨frames, rootKind, rootDone, matched⟩ := s
  obtain ⟨frames', rootKind', rootDone', matched'⟩ := s'
  have hsame := h
  obtain ⟨hframes, rfl, rfl, rfl⟩ := h
  cases hframes with
  | nil => exact .refused hsame
  | @cons frame frame' outer outer' hframe houter =>
      obtain ⟨kind, context, field, written, pending⟩ := frame
      obtain ⟨kind', context', field', written', pending'⟩ := frame'
      obtain ⟨rfl, hcontext, rfl, rfl, hpending⟩ := hframe
      cases kind with
      | array => exact .refused hsame
      | object =>
          cases hpending with
          | none =>
              exact .passed .nil ⟨.cons ⟨rfl, hcontext, rfl, rfl,
                .some ⟨rfl, hcontext.field name⟩⟩ houter, rfl, rfl, rfl⟩
          | some => exact .refused hsame

theorem scalar (h : s.Alike t u s') (htu : t.KeepAlike u) (v : Value) :
    Step.Alike t u (s.scalar t v) (s'.scalar u v) := by
  rcases h.nextValue with ⟨why, hs, hs'⟩ | ⟨context, context', field, next, next', hs, hs',
    hcontext, hnext⟩
  · rw [State.scalar, State.scalar, hs, hs']
    exact .refused h
  · have hended : State.Alike t u
        { next with rootDone := next.rootDone || s.frames.isEmpty }
        { next' with rootDone := next'.rootDone || s'.frames.isEmpty } := by
      refine { hnext with rootDone := ?_ }
      rw [hnext.rootDone, h.isEmpty_eq]
    simp only [State.scalar, hs, hs', hcontext.scalar_eq htu, h.isCounted_eq htu]
    rw [h.isEmpty_eq] at hended ⊢
    split
    · exact .passed (hended.passing _) (hended.opened.count _)
    · exact .passed .nil hended

/-- **Each event keeps the states of the two filters related.** -/
theorem step (h : s.Alike t u s') (htu : t.KeepAlike u) (event : Event) :
    Step.Alike t u (s.step t event) (s'.step u event) := by
  cases event with
  | start kind => exact h.start htu kind
  | stop kind => exact h.stop kind
  | field name => exact h.field name
  | scalar v => exact h.scalar htu v

theorem close (h : s.Alike t u s') : Step.Alike t u s.close s'.close := by
  obtain ⟨frames, rootKind, rootDone, matched⟩ := s
  obtain ⟨frames', rootKind', rootDone', matched'⟩ := s'
  have hsame := h
  obtain ⟨hframes, rfl, rfl, rfl⟩ := h
  cases hframes with
  | cons => exact .refused hsame
  | nil =>
      simp only [State.close]
      split
      · exact .passed (.cons ⟨rfl, hsame⟩ (.cons ⟨rfl, hsame⟩ .nil)) hsame
      · exact .passed .nil hsame

end State.Alike

/-! ## Runs of the filters -/

variable {σ : Type} [Sink σ]

/-- Filters of the two trees in related states, in front of one sink. -/
structure Alike (t u : Tree) (f f' : Filtering σ) : Prop where
  tree : f.tree = t
  tree' : f'.tree = u
  state : State.Alike t u f.state f'.state
  inner : f.inner = f'.inner

namespace Alike

variable {f f' : Filtering σ}

theorem pass {handoffs handoffs' : List Handoff}
    (hhandoffs : List.Forall₂ (Handoff.Alike t u) handoffs handoffs') {state state' : State}
    (hstate : State.Alike t u state state') (h : Alike t u f f') :
    Reply.Related (Alike t u) (f.pass state handoffs) (f'.pass state' handoffs') := by
  induction hhandoffs generalizing f f' with
  | nil => exact .accepted { h with state := hstate }
  | cons hhandoff _ ih =>
      rw [Filtering.pass, Filtering.pass, ← h.inner, ← hhandoff.event]
      split
      · exact ih { h with inner := rfl }
      · exact .refused { h with state := hhandoff.ifRefused, inner := rfl }

theorem perform {step step' : Step} (hstep : step.Alike t u step') (h : Alike t u f f') :
    Reply.Related (Alike t u) (f.perform step) (f'.perform step') := by
  cases hstep with
  | refused hstate => exact .refused { h with state := hstate }
  | passed hhandoffs hstate => exact h.pass hhandoffs hstate

theorem write (htu : t.KeepAlike u) (f f' : Filtering σ) (event : Event) (h : Alike t u f f') :
    Reply.Related (Alike t u) (Sink.write f event) (Sink.write f' event) := by
  obtain ⟨tree, state, inner⟩ := f
  obtain ⟨tree', state', inner'⟩ := f'
  obtain ⟨rfl, rfl, hstate, rfl⟩ := h
  exact perform (hstate.step htu event) ⟨rfl, rfl, hstate, rfl⟩

theorem close (h : Alike t u f f') :
    Reply.Related (Alike t u) (Sink.close f) (Sink.close f') := by
  refine (h.perform h.state.close).andThen fun f f' h => ?_
  rw [← h.inner]
  split
  · exact .accepted { h with inner := rfl }
  · exact .refused { h with inner := rfl }

end Alike

end Filtering

/-- **Copies through trees that keep alike are alike**: what the sink was told, why it was left,
and how many matches there were. -/
theorem copyFiltered_related {t u : Tree} (htu : t.KeepAlike u) {σ : Type} [Sink σ]
    (source : Source) (sink : σ) :
    Reply.Related (Filtering.Alike t u) (copyFiltered source sink t)
      (copyFiltered source sink u) := by
  have hstart : Filtering.Alike t u ⟨t, {}, sink⟩ ⟨u, {}, sink⟩ := ⟨rfl, rfl, .init t u, rfl⟩
  exact (source.into_related (Filtering.Alike.write htu) hstart).andThen fun _ _ h => h.close

end FieldSelection
