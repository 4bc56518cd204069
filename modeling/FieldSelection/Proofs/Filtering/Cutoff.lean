import FieldSelection.Proofs.Filtering.Lockstep
import FieldSelection.Proofs.Json.Layout

/-!
# Outputs that get full

A document is filtered into an output that takes everything, and once more into one that takes so
many bytes and no more. As long as there is room the two runs go in lockstep. At the first chunk
that does not fit, the limited run has taken exactly the bytes up to its limit, and refuses.

A refusal of the output stops everything: no later event and no fault of the text is looked at,
so it is what the limited run ends in. The other run may go on and may fail for another reason,
but all it can do to its output is to add more bytes. So what the limited run took stays the
beginning of what the other run writes.
-/

namespace FieldSelection

open Json

/-- The output took no more bytes. -/
def Failure.IsCut (why : Failure) : Prop := why = .outputFull ∨ why = .contentCut

namespace Failure.IsCut

variable {why : Failure}

/-- The failure says what is wrong with the output. -/
theorem message_suffix (h : why.IsCut) : "disk full".toList <:+ why.message.toList := by
  rcases h with rfl | rfl
  · exact List.suffix_refl _
  · exact ⟨"invalid JSON input: ".toList, rfl⟩

theorem ne_malformed (h : why.IsCut) (fault : Fault Position) : why ≠ .malformed fault := by
  rcases h with rfl | rfl <;> simp

end Failure.IsCut

/-! ## Runs of which one is cut off -/

/-- Replies of sinks in lockstep, or of two sinks of which the second was cut off. -/
inductive Reply.Follows {σ τ : Type} (R C : σ → τ → Prop) (cut : Failure → Prop) :
    Reply σ → Reply τ → Prop where
  /-- Both accept or both refuse for one reason, and go on from related sinks. -/
  | together {r : Reply σ} {r' : Reply τ} : Related R r r' → Follows R C cut r r'
  /-- The second has refused for a reason of its own. -/
  | cut {r : Reply σ} {s' : τ} {why : Failure} :
      C r.sink s' → cut why → Follows R C cut r (.refused s' why)

/-- Sinks that go in lockstep until the second one is cut off, and that stay as a cut leaves
them whatever the first one is told afterwards. -/
structure Sink.CutsOff {σ τ : Type} [Sink σ] [Sink τ] (R C : σ → τ → Prop)
    (cut : Failure → Prop) : Prop where
  write : ∀ {s : σ} {s' : τ} (event : Event), R s s' →
    Reply.Follows R C cut (Sink.write s event) (Sink.write s' event)
  close : ∀ {s : σ} {s' : τ}, R s s' → Reply.Follows R C cut (Sink.close s) (Sink.close s')
  write_beyond : ∀ {s : σ} {s' : τ} (event : Event), C s s' → C (Sink.write s event).sink s'
  close_beyond : ∀ {s : σ} {s' : τ}, C s s' → C (Sink.close s).sink s'

section Runs

variable {σ τ : Type} {R C : σ → τ → Prop} {cut : Failure → Prop}

/-- What holds of the sink after a reply holds after what follows it, if that keeps it. -/
theorem Reply.sink_andThen {P : σ → Prop} {r : Reply σ} {next : σ → Reply σ} (hr : P r.sink)
    (hnext : ∀ s, P s → P (next s).sink) : P (r.andThen next).sink := by
  cases r with
  | accepted s => exact hnext s hr
  | refused s why => exact hr

theorem Reply.Follows.andThen {r : Reply σ} {r' : Reply τ} {next : σ → Reply σ}
    {next' : τ → Reply τ} (h : Follows R C cut r r')
    (hnext : ∀ s s', R s s' → Follows R C cut (next s) (next' s'))
    (hbeyond : ∀ s s', C s s' → C (next s).sink s') :
    Follows R C cut (r.andThen next) (r'.andThen next') := by
  cases h with
  | together h =>
      cases h with
      | accepted h => exact hnext _ _ h
      | refused h => exact .together (.refused h)
  | @cut s' _ h hwhy => exact .cut (Reply.sink_andThen h fun s => hbeyond s s') hwhy

variable [Sink σ] [Sink τ]

namespace Sink.CutsOff

variable (h : Sink.CutsOff R C cut)
include h

theorem writeAll_beyond (events : List Event) {s : σ} {s' : τ} (hs : C s s') :
    C (Sink.writeAll s events).sink s' := by
  induction events generalizing s with
  | nil => exact hs
  | cons event rest ih =>
      exact Reply.sink_andThen (P := (C · s')) (h.write_beyond event hs) fun _ hs => ih hs

theorem writeAll (events : List Event) {s : σ} {s' : τ} (hs : R s s') :
    Reply.Follows R C cut (Sink.writeAll s events) (Sink.writeAll s' events) := by
  induction events generalizing s s' with
  | nil => exact .together (.accepted hs)
  | cons event rest ih =>
      exact (h.write event hs).andThen (fun _ _ hs => ih hs)
        fun _ _ hs => h.writeAll_beyond rest hs

/-- A source is handed over in lockstep until the second sink is cut off. What the source itself
fails with, only a sink that was not cut off gets to see. -/
theorem into (source : Source) {s : σ} {s' : τ} (hs : R s s') :
    Reply.Follows R C cut (source.into s) (source.into s') := by
  refine (h.writeAll source.events hs).andThen (fun s s' hs => ?_) fun s s' hs => ?_
  · cases source.failure? with
    | none => exact .together (.accepted hs)
    | some why => exact .together (.refused hs)
  · cases source.failure? with
    | none => exact hs
    | some why => exact hs

end Sink.CutsOff

end Runs

/-! ## Filters in front of such sinks -/

namespace Filtering

variable {σ τ : Type} {R C : σ → τ → Prop} {cut : Failure → Prop}

/-- Filters of one tree in the same state, in front of related sinks. -/
structure InFront (R : σ → τ → Prop) (f : Filtering σ) (f' : Filtering τ) : Prop where
  tree : f.tree = f'.tree
  state : f.state = f'.state
  inner : R f.inner f'.inner

/-- Filters in front of sinks of which the second was cut off. -/
def Beyond (C : σ → τ → Prop) (f : Filtering σ) (f' : Filtering τ) : Prop := C f.inner f'.inner

/-- Closes the sink behind a filter. -/
def closeInner [Sink σ] (f : Filtering σ) : Reply (Filtering σ) :=
  match Sink.close f.inner with
  | .accepted inner => .accepted { f with inner }
  | .refused inner why => .refused { f with inner } why

theorem close_eq [Sink σ] (f : Filtering σ) :
    Sink.close f = (f.perform f.state.close).andThen closeInner := rfl

section

variable [Sink σ] [Sink τ] (h : Sink.CutsOff R C cut)
include h

theorem pass_beyond (state : State) (handoffs : List Handoff) {f : Filtering σ}
    {f' : Filtering τ} (hf : Beyond C f f') : Beyond C (f.pass state handoffs).sink f' := by
  induction handoffs generalizing f with
  | nil => exact hf
  | cons handoff rest ih =>
      have hwrite := h.write_beyond handoff.event hf
      rw [pass]
      cases hreply : Sink.write f.inner handoff.event with
      | accepted inner =>
          rw [hreply] at hwrite
          exact ih (f := { f with inner }) hwrite
      | refused inner why =>
          rw [hreply] at hwrite
          exact hwrite

theorem perform_beyond (step : Step) {f : Filtering σ} {f' : Filtering τ}
    (hf : Beyond C f f') : Beyond C (f.perform step).sink f' := by
  cases step with
  | refused why state => exact hf
  | passed handoffs state => exact pass_beyond h state handoffs hf

theorem pass_follows (state : State) (handoffs : List Handoff) {f : Filtering σ}
    {f' : Filtering τ} (hf : InFront R f f') :
    Reply.Follows (InFront R) (Beyond C) cut (f.pass state handoffs)
      (f'.pass state handoffs) := by
  induction handoffs generalizing f f' with
  | nil => exact .together (.accepted ⟨hf.tree, rfl, hf.inner⟩)
  | cons handoff rest ih =>
      have hwrite := h.write handoff.event hf.inner
      rw [pass, pass]
      generalize Sink.write f.inner handoff.event = r at hwrite
      generalize Sink.write f'.inner handoff.event = r' at hwrite
      cases hwrite with
      | together hrelated =>
          cases hrelated with
          | accepted hinner => exact ih ⟨hf.tree, hf.state, hinner⟩
          | refused hinner => exact .together (.refused ⟨hf.tree, rfl, hinner⟩)
      | cut hinner hwhy =>
          refine .cut ?_ hwhy
          -- the second filter has stopped here, while the first may have more to pass on
          cases r with
          | accepted inner => exact pass_beyond h state rest (f := { f with inner }) hinner
          | refused inner why => exact hinner

theorem perform_follows (step : Step) {f : Filtering σ} {f' : Filtering τ}
    (hf : InFront R f f') :
    Reply.Follows (InFront R) (Beyond C) cut (f.perform step) (f'.perform step) := by
  cases step with
  | refused why state => exact .together (.refused ⟨hf.tree, rfl, hf.inner⟩)
  | passed handoffs state => exact pass_follows h state handoffs hf

theorem closeInner_beyond {f : Filtering σ} {f' : Filtering τ} (hf : Beyond C f f') :
    Beyond C f.closeInner.sink f' := by
  have hclose := h.close_beyond hf
  rw [closeInner]
  generalize Sink.close f.inner = r at hclose
  cases r with
  | accepted inner => exact hclose
  | refused inner why => exact hclose

theorem closeInner_follows {f : Filtering σ} {f' : Filtering τ} (hf : InFront R f f') :
    Reply.Follows (InFront R) (Beyond C) cut f.closeInner f'.closeInner := by
  have hclose := h.close hf.inner
  rw [closeInner, closeInner]
  generalize Sink.close f.inner = r at hclose
  generalize Sink.close f'.inner = r' at hclose
  cases hclose with
  | together hrelated =>
      cases hrelated with
      | accepted hinner => exact .together (.accepted ⟨hf.tree, hf.state, hinner⟩)
      | refused hinner => exact .together (.refused ⟨hf.tree, hf.state, hinner⟩)
  | cut hinner hwhy =>
      refine .cut ?_ hwhy
      cases r with
      | accepted inner => exact hinner
      | refused inner why => exact hinner

/-- **A filter is cut off where the sink behind it is.** -/
theorem cutsOff : Sink.CutsOff (InFront (σ := σ) (τ := τ) R) (Beyond C) cut where
  write {f f'} event hf := by
    show Reply.Follows _ _ _ (f.perform (f.state.step f.tree event))
      (f'.perform (f'.state.step f'.tree event))
    rw [← hf.tree, ← hf.state]
    exact perform_follows h _ hf
  close {f f'} hf := by
    have hperform := perform_follows h f.state.close hf
    rw [close_eq, close_eq, ← hf.state]
    exact hperform.andThen (fun _ _ hf => closeInner_follows h hf)
      fun _ _ hf => closeInner_beyond h hf
  write_beyond _ hf := perform_beyond h _ hf
  close_beyond {f f'} hf := by
    rw [close_eq]
    exact Reply.sink_andThen (P := (Beyond C · f')) (perform_beyond h f.state.close hf)
      fun _ hf => closeInner_beyond h hf

end

end Filtering

/-! ## Writers -/

namespace Json

theorem Output.take_of_le {taken bytes : List UInt8} {room : Nat} (h : bytes.length ≤ room) :
    (⟨taken, some room⟩ : Output).take bytes =
      (⟨bytes.reverse ++ taken, some (room - bytes.length)⟩, true) := by
  simp [take, fitting, List.take_of_length_le h, h]

theorem Output.take_of_lt {taken bytes : List UInt8} {room : Nat} (h : room < bytes.length) :
    (⟨taken, some room⟩ : Output).take bytes =
      (⟨(bytes.take room).reverse ++ taken, some (room - bytes.length)⟩, false) := by
  simp [take, fitting, h]

namespace Writer

variable {limit : Nat}

/-- The writer as it is where its output had room for so many bytes at first. -/
def limited (limit : Nat) (w : Writer) : Writer :=
  { w with output := { w.output with room := some (limit - w.output.taken.length) } }

/-- A writer whose output takes everything, and the same one with a limit that was not passed. -/
structure Within (limit : Nat) (w w' : Writer) : Prop where
  unlimited : w.output.room = none
  fits : w.output.taken.length ≤ limit
  eq_limited : w' = w.limited limit

/-- A writer whose output took more than the limit, and one that took what it allows. -/
structure Past (limit : Nat) (w w' : Writer) : Prop where
  unlimited : w.output.room = none
  exceeds : limit < w.output.taken.length
  written_eq : w'.output.written = w.output.written.take limit

/-- More bytes do not change the first ones. -/
theorem Past.extend {w w' : Writer} (h : Past limit w w') {next : Writer} {bytes : List UInt8}
    (houtput : next.output = ⟨bytes.reverse ++ w.output.taken, none⟩) : Past limit next w' := by
  have hexceeds := h.exceeds
  have hwritten : next.output.written = w.output.written ++ bytes := by
    rw [houtput, Output.written, Output.written, List.reverse_append, List.reverse_reverse]
  refine ⟨by rw [houtput], ?_, ?_⟩
  · rw [houtput, List.length_append]
    omega
  · have hle : limit ≤ w.output.written.length := by
      rw [Output.written, List.length_reverse]
      omega
    rw [hwritten, List.take_append_of_le_length hle]
    exact h.written_eq

theorem put_past (state : State) (chunks : List Chunk) {w w' : Writer} (h : Past limit w w') :
    Past limit (w.put state chunks).sink w' := by
  obtain ⟨layout, s, ⟨taken, room⟩⟩ := w
  obtain rfl : room = none := h.unlimited
  rw [put_all]
  exact h.extend rfl

/-- A chunk that fits is taken, and what is left of the limit is room for the others. -/
theorem put_limited_of_le {layout : Layout} {s state : State} {taken : List UInt8} {chunk : Chunk}
    (rest : List Chunk) (h : chunk.bytes.length ≤ limit - taken.length) :
    ((⟨layout, s, ⟨taken, none⟩⟩ : Writer).limited limit).put state (chunk :: rest) =
      ((⟨layout, s, ⟨chunk.bytes.reverse ++ taken, none⟩⟩ : Writer).limited limit).put state
        rest := by
  simp only [limited, put, Output.take_of_le h, List.length_append, List.length_reverse,
    Nat.sub_sub, Nat.add_comm]

/-- Of a chunk that does not fit, so much is taken as does. -/
theorem put_limited_of_lt {layout : Layout} {s state : State} {taken : List UInt8} {chunk : Chunk}
    (rest : List Chunk) (h : limit - taken.length < chunk.bytes.length) :
    ((⟨layout, s, ⟨taken, none⟩⟩ : Writer).limited limit).put state (chunk :: rest) =
      .refused ⟨layout, chunk.ifCut, ⟨(chunk.bytes.take (limit - taken.length)).reverse ++ taken,
        some (limit - taken.length - chunk.bytes.length)⟩⟩
        (if chunk.isContent then .contentCut else .outputFull) := by
  simp only [limited, put, Output.take_of_lt h]

/-- **A chunk that does not fit is cut at the limit**, and those before it are taken by both
outputs. -/
theorem put_follows (state : State) (chunks : List Chunk) {w w' : Writer}
    (h : Within limit w w') :
    Reply.Follows (Within limit) (Past limit) Failure.IsCut (w.put state chunks)
      (w'.put state chunks) := by
  induction chunks generalizing w w' with
  | nil =>
      refine .together (.accepted ⟨h.unlimited, h.fits, ?_⟩)
      rw [h.eq_limited]
      rfl
  | cons chunk rest ih =>
      obtain ⟨layout, s, ⟨taken, room⟩⟩ := w
      obtain ⟨rfl, hfits, rfl⟩ := h
      have hle : taken.length ≤ limit := hfits
      have hwhole : (⟨layout, s, ⟨taken, none⟩⟩ : Writer).put state (chunk :: rest) =
          (⟨layout, s, ⟨chunk.bytes.reverse ++ taken, none⟩⟩ : Writer).put state rest := rfl
      have hlength : (chunk.bytes.reverse ++ taken).length =
          chunk.bytes.length + taken.length := by
        rw [List.length_append, List.length_reverse]
      rw [hwhole]
      by_cases hroom : chunk.bytes.length ≤ limit - taken.length
      · rw [put_limited_of_le rest hroom]
        exact ih ⟨rfl, by rw [hlength]; omega, rfl⟩
      · have hcut : limit - taken.length < chunk.bytes.length := Nat.lt_of_not_le hroom
        rw [put_limited_of_lt rest hcut]
        refine .cut (put_past state rest ⟨rfl, by rw [hlength]; omega, ?_⟩) ?_
        · have htaken : taken.reverse.take limit = taken.reverse :=
            List.take_of_length_le (by rw [List.length_reverse]; exact hle)
          simp [Output.written, List.take_append, htaken]
        · cases chunk.isContent with
          | true => exact Or.inr rfl
          | false => exact Or.inl rfl

/-- **A writer whose output gets full** goes along with one whose output does not, until it is
cut off. -/
theorem cutsOff (limit : Nat) : Sink.CutsOff (Within limit) (Past limit) Failure.IsCut where
  write {w w'} event h := by
    show Reply.Follows _ _ _ (w.write event) (w'.write event)
    obtain ⟨layout, s, output⟩ := w
    have hw' := h.eq_limited
    subst hw'
    simp only [write, limited]
    cases step layout s event with
    | refused why state => exact .together (.refused ⟨h.unlimited, h.fits, rfl⟩)
    | written chunks state => exact put_follows state chunks h
  close {w w'} h := by
    show Reply.Follows _ _ _ w.close w'.close
    obtain ⟨layout, s, output⟩ := w
    have hw' := h.eq_limited
    subst hw'
    simp only [close, limited]
    cases s.frames with
    | nil => exact .together (.accepted h)
    | cons => exact .together (.refused h)
  write_beyond {w w'} event h := by
    show Past limit (w.write event).sink w'
    rw [write]
    cases step w.layout w.state event with
    | refused why state => exact ⟨h.unlimited, h.exceeds, h.written_eq⟩
    | written chunks state => exact put_past state chunks h
  close_beyond {w w'} h := by
    show Past limit w.close.sink w'
    rw [close]
    cases w.state.frames with
    | nil => exact h
    | cons => exact h

end Writer

end Json

/-- What two writers wrote, and why they were left, once both runs are over. -/
theorem Json.Writer.limited_of_follows {σ τ : Type} {R C : σ → τ → Prop} {limit : Nat}
    (writer : σ → Writer) (writer' : τ → Writer)
    (hR : ∀ s s', R s s' → Within limit (writer s) (writer' s'))
    (hC : ∀ s s', C s s' → Past limit (writer s) (writer' s')) {r : Reply σ} {r' : Reply τ}
    (h : Reply.Follows R C Failure.IsCut r r') :
    (writer' r'.sink).output.written = (writer r.sink).output.written.take limit ∧
      ((writer r.sink).output.written.length ≤ limit → r'.failure? = r.failure?) ∧
      (limit < (writer r.sink).output.written.length →
        ∃ why, r'.failure? = some why ∧ why.IsCut) := by
  have hlength : ∀ o : Output, o.written.length = o.taken.length := fun o => List.length_reverse
  rw [hlength]
  cases h with
  | together hrelated =>
      have hwithin := hR _ _ hrelated.sink
      have hsame : (writer' r'.sink).output.written = (writer r.sink).output.written := by
        rw [hwithin.eq_limited]
        rfl
      refine ⟨?_, fun _ => hrelated.failure?_eq.symm, fun hlt => ?_⟩
      · rw [hsame, List.take_of_length_le]
        rw [hlength]
        exact hwithin.fits
      · exact absurd hwithin.fits (Nat.not_le_of_lt hlt)
  | @cut s' why hcut hwhy =>
      have hpast := hC _ _ hcut
      refine ⟨hpast.written_eq, fun hle => ?_, fun _ => ⟨why, rfl, hwhy⟩⟩
      exact absurd hpast.exceeds (Nat.not_lt_of_le hle)

/-- The outputs behind the filters, and why they were left, once both runs are over. -/
theorem Filtering.limited_of_follows {limit : Nat} {r r' : Reply (Filtering Writer)}
    (h : Reply.Follows (InFront (Writer.Within limit)) (Beyond (Writer.Past limit)) Failure.IsCut
      r r') :
    r'.sink.inner.output.written = r.sink.inner.output.written.take limit ∧
      (r.sink.inner.output.written.length ≤ limit → r'.failure? = r.failure?) ∧
      (limit < r.sink.inner.output.written.length → ∃ why, r'.failure? = some why ∧ why.IsCut) :=
  Writer.limited_of_follows Filtering.inner Filtering.inner (fun _ _ h => h.inner)
    (fun _ _ h => h) h

/-- **An output that gets full holds the beginning of what there is to write.** It takes exactly
the bytes up to its limit. Filtering comes to the same if those are all, and otherwise fails
because the disk is full, and not for a fault of the text. -/
theorem filterText_limited (t : Tree) (layout : Layout) (text : List UInt8) (limit : Nat) :
    let whole := filterText text layout {} t
    let limited := filterText text layout { room := some limit } t
    limited.1.written = whole.1.written.take limit ∧
      (whole.1.written.length ≤ limit → limited.2 = whole.2) ∧
      (limit < whole.1.written.length → ∃ why, limited.2 = some why ∧ why.IsCut ∧
        "disk full".toList <:+ why.message.toList ∧ ∀ fault, why ≠ .malformed fault) := by
  intro whole limited
  have hstart : Filtering.InFront (Writer.Within limit) (⟨t, {}, { layout }⟩ : Filtering Writer)
      (⟨t, {}, { layout, output := { room := some limit } }⟩ : Filtering Writer) :=
    ⟨rfl, rfl, rfl, Nat.zero_le limit, rfl⟩
  have hsinks := Filtering.cutsOff (Writer.cutsOff limit)
  have hcopy := (hsinks.into (stream text) hstart).andThen (fun _ _ h => hsinks.close h)
    fun _ _ h => hsinks.close_beyond h
  obtain ⟨hwritten, hsame, hcut⟩ := Filtering.limited_of_follows hcopy
  refine ⟨hwritten, hsame, fun hlt => ?_⟩
  obtain ⟨why, hfailure, hwhy⟩ := hcut hlt
  exact ⟨why, hfailure, hwhy, hwhy.message_suffix, hwhy.ne_malformed⟩

-- The disk is full before the text is found to be malformed.
example : (filterText (ascii "[1,x") .compact { room := some 1 } .empty).2 =
    some .contentCut := by
  decide +kernel

end FieldSelection
