import FieldSelection.Proofs.Filtering.Streaming

/-!
# Copying a document through the filter

A source is handed to the filter, which passes on what the tree keeps, and then closes. The
last thing to see is the outermost value: one without values inside is always kept, and a
container of which nothing was kept is made up for at the end by an empty one of its kind.
So what reaches the sink behind the filter is the projection of the document, told as events.
-/

namespace FieldSelection

open Json Filtering

/-! ## Sinks behind the filter -/

namespace Reply

variable {σ : Type}

theorem andThen_eq_accepted {r : Reply σ} {next : σ → Reply σ} {s : σ}
    (h : r.andThen next = .accepted s) : ∃ s', r = .accepted s' ∧ next s' = .accepted s := by
  cases r with
  | accepted s' => exact ⟨s', rfl, h⟩
  | refused s' why => exact absurd h (by simp [andThen])

end Reply

namespace Sink

variable {σ : Type} [Sink σ]

theorem writeAll_append_eq (s : σ) (es es' : List Event) :
    writeAll s (es ++ es') = (writeAll s es).andThen (writeAll · es') := by
  induction es generalizing s with
  | nil => rfl
  | cons e es ih =>
      rw [List.cons_append, writeAll, writeAll]
      cases write s e with
      | accepted next => exact ih next
      | refused next why => rfl

theorem writeAll_append {s mid : σ} {es : List Event} (h : writeAll s es = .accepted mid)
    (es' : List Event) : writeAll s (es ++ es') = writeAll mid es' := by
  rw [writeAll_append_eq, h]
  rfl

theorem writeAll_append_accepted {s s' : σ} {es es' : List Event}
    (h : writeAll s (es ++ es') = .accepted s') :
    ∃ mid, writeAll s es = .accepted mid ∧ writeAll mid es' = .accepted s' := by
  rw [writeAll_append_eq] at h
  exact Reply.andThen_eq_accepted h

end Sink

namespace Filtering

variable {σ : Type} [Sink σ] {t : Tree}

/-- The filter goes on where the sink behind it takes all that is passed on. -/
theorem pass_of_writeAll {f : Filtering σ} {state : State} {handoffs : List Handoff} {inner : σ}
    (h : Sink.writeAll f.inner (handoffs.map Handoff.event) = .accepted inner) :
    f.pass state handoffs = .accepted { f with state, inner } := by
  induction handoffs generalizing f with
  | nil =>
      cases h
      rfl
  | cons handoff rest ih =>
      rw [List.map_cons, Sink.writeAll] at h
      obtain ⟨next, hwrite, hrest⟩ := Reply.andThen_eq_accepted h
      rw [pass, hwrite]
      exact ih hrest

theorem write_of_step {f : Filtering σ} {event : Event} {s : State} {handoffs : List Handoff}
    {inner : σ} (hstep : f.state.step f.tree event = .passed handoffs s)
    (h : Sink.writeAll f.inner (handoffs.map Handoff.event) = .accepted inner) :
    Sink.write f event = .accepted { f with state := s, inner } := by
  show f.perform (f.state.step f.tree event) = _
  rw [hstep]
  exact pass_of_writeAll h

theorem close_of_step {f : Filtering σ} {s : State} {handoffs : List Handoff} {told closed : σ}
    (hclose : f.state.close = .passed handoffs s)
    (h : Sink.writeAll f.inner (handoffs.map Handoff.event) = .accepted told)
    (hclosed : Sink.close told = .accepted closed) :
    Sink.close f = .accepted { f with state := s, inner := closed } := by
  have hpass : f.perform f.state.close = .accepted { f with state := s, inner := told } := by
    rw [hclose]
    exact pass_of_writeAll h
  simp only [Sink.close, hpass, Reply.andThen]
  rw [hclosed]

/-- A run of the machine is a run of the filter in front of a sink that takes what it
passes on. -/
theorem writeAll_of_passes {s s' : State} {events out : List Event} (h : Passes t s events out s') :
    ∀ {inner inner' : σ}, Sink.writeAll inner out = .accepted inner' →
      Sink.writeAll (⟨t, s, inner⟩ : Filtering σ) events = .accepted ⟨t, s', inner'⟩ := by
  induction h with
  | nil =>
      intro inner inner' hw
      cases hw
      rfl
  | cons hstep _ ih =>
      intro inner inner' hw
      obtain ⟨mid, hmid, hlast⟩ := Sink.writeAll_append_accepted hw
      rw [Sink.writeAll, write_of_step hstep hmid]
      exact ih hlast

/-! ## The outermost value -/

theorem nextValue_init :
    ({} : State).nextValue t = .ok (some (.ofNode t.graph t.root), none, {}) := rfl

theorem release_init (kept : List Event) : ({} : State).release kept = kept := by
  rw [State.release]
  split
  · rename_i hnil
    exact hnil.symm
  · rfl

/-- A value without values inside that is the whole document is passed on, and matches. -/
theorem passes_root_scalar {v : Value} (hv : v.isScalar = true) :
    Passes t {} v.events v.events ⟨[], none, true, 1⟩ := by
  have hstep : ({} : State).step t (.scalar v) =
      .passed [⟨.scalar v, { rootDone := true }⟩] ⟨[], none, true, 1⟩ := rfl
  rw [Value.events_of_isScalar hv]
  exact Passes.single hstep

/-- Behind a container that is the whole document, an empty one follows if nothing was kept. -/
theorem close_ended (kept : List Event) (n : Nat) (kind : Container) :
    let s := (({} : State).after kept n).ended kind
    s.matched = n ∧ ∃ handoffs, s.close = .passed handoffs s ∧
      handoffs.map Handoff.event = if n = 0 then [.start kind, .stop kind] else [] := by
  intro s
  have hs : s = ⟨[], some kind, true, n⟩ := by simp [s, State.ended, State.after]
  rw [hs]
  cases n with
  | zero => exact ⟨rfl, _, rfl, rfl⟩
  | succ n => exact ⟨rfl, _, rfl, rfl⟩

/-- **The machine passes on what is kept of a document**, and counts its matches. When it is
closed it passes on an empty container if there were none. -/
theorem passes_kept (t : Tree) (v : Value) :
    ∃ s, Passes t {} v.events (keptEvents none (t.kept v)) s ∧ s.matched = t.matched v ∧
      ∃ handoffs, s.close = .passed handoffs s ∧
        handoffs.map Handoff.event = if t.matched v = 0 then v.emptied.events else [] := by
  have hcount : ({} : State).isCounted = true →
      some (Context.ofNode t.graph t.root) = some .all := by
    intro h
    exact absurd h (by simp [State.isCounted])
  cases v with
  | array items =>
      have hrun := passes_array nextValue_init hcount (keeps_items items _)
      rw [release_init] at hrun
      exact ⟨_, hrun, close_ended _ _ _⟩
  | object members =>
      have hrun := passes_object nextValue_init hcount (keeps_members members _)
      rw [release_init] at hrun
      exact ⟨_, hrun, close_ended _ _ _⟩
  | null | bool | number | string =>
      exact ⟨_, passes_root_scalar rfl, rfl, [], rfl, rfl⟩

/-- **The machine passes on the projection of a document**, the last part of it when it is
closed. -/
theorem passes_document (t : Tree) (v : Value) :
    ∃ out s handoffs, Passes t {} v.events out s ∧ s.close = .passed handoffs s ∧
      out ++ handoffs.map Handoff.event = (t.project v).events := by
  obtain ⟨s, hrun, -, handoffs, hclose, hevents⟩ := passes_kept t v
  refine ⟨_, s, handoffs, hrun, hclose, ?_⟩
  rw [hevents, t.project_eq_kept]
  cases hkept : t.kept v with
  | none =>
      rw [if_pos ((t.matched_eq_zero_iff v).mpr hkept)]
      rfl
  | some w =>
      have hne : t.matched v ≠ 0 := by
        rw [ne_eq, t.matched_eq_zero_iff, hkept]
        simp
      rw [if_neg hne]
      simp [keptEvents]

end Filtering

/-- **A copy is the projection.** The sink behind the filter is told the projection of the
document and then closed, provided that it takes both. -/
theorem copyFiltered_ofValue {σ : Type} [Sink σ] (t : Tree) (v : Value) {sink told closed : σ}
    (htold : Sink.writeAll sink (t.project v).events = .accepted told)
    (hclosed : Sink.close told = .accepted closed) :
    ∃ state, copyFiltered (.ofValue v) sink t = .accepted ⟨t, state, closed⟩ := by
  obtain ⟨out, s, handoffs, hrun, hclose, hout⟩ := passes_document t v
  rw [← hout] at htold
  obtain ⟨mid, hmid, hlast⟩ := Sink.writeAll_append_accepted htold
  refine ⟨s, ?_⟩
  rw [copyFiltered, Source.into, Source.ofValue, writeAll_of_passes hrun hmid]
  exact close_of_step hclose hlast hclosed

/-- The event of a record, if it is one. -/
def Record.event? : Record → Option Event
  | .event e => some e
  | .closed => none

namespace Recorder

/-- A recorder that was told this and refuses nothing. -/
def told (records : List Record) : Recorder :=
  { taken := records.reverse, calls := records.length }

theorem records_told (records : List Record) : (told records).records = records :=
  List.reverse_reverse records

theorem call_told (records : List Record) (record : Record) :
    (told records).call record = .accepted (told (records ++ [record])) := by
  simp [told, call]

theorem writeAll_told (records : List Record) (events : List Event) :
    Sink.writeAll (told records) events = .accepted (told (records ++ events.map .event)) := by
  induction events generalizing records with
  | nil => simp [Sink.writeAll]
  | cons event rest ih =>
      have hwrite : Sink.write (told records) event =
          .accepted (told (records ++ [.event event])) := call_told records (.event event)
      rw [Sink.writeAll, hwrite]
      show Sink.writeAll (told _) rest = _
      rw [ih, List.map_cons, List.append_assoc]
      rfl

/-- The events that a recorder was told. -/
def events (r : Recorder) : List Event := r.records.filterMap Record.event?

theorem events_told (events : List Event) (rest : List Record) :
    (told (events.map .event ++ rest)).events = events ++ rest.filterMap Record.event? := by
  rw [Recorder.events, records_told, List.filterMap_append, List.filterMap_map]
  exact congrArg (· ++ rest.filterMap Record.event?) List.filterMap_some

end Recorder

theorem copyFiltered_told (t : Tree) (v : Value) :
    ∃ state, copyFiltered (.ofValue v) ({} : Recorder) t =
      .accepted ⟨t, state, .told ((t.project v).events.map .event ++ [.closed])⟩ :=
  copyFiltered_ofValue t v (Recorder.writeAll_told [] _) (Recorder.call_told _ .closed)

/-- **The streaming filter equals the recursive projection**, for every tree and every
document: the recorder is told the events of the projection, in order and each once, and
then that the document is over. -/
theorem copyFiltered_records_projection (t : Tree) (v : Value) :
    ∃ f, copyFiltered (.ofValue v) ({} : Recorder) t = .accepted f ∧
      f.inner.records = (t.project v).events.map .event ++ [.closed] := by
  obtain ⟨state, hcopy⟩ := copyFiltered_told t v
  exact ⟨_, hcopy, Recorder.records_told _⟩

end FieldSelection
