import FieldSelection.Proofs.Json.Acceptance
import FieldSelection.Proofs.Json.Agreement

/-!
# Collecting what is told of a text

An assembly that is handed the events of a text ends up with the value that the text is read as.
The two readers take the same texts, so there is nothing to collect exactly if there is nothing to
read. Where they take one, the assembly puts the document together that was told: of several
members of one name it keeps the last, as the reader of values does, and what the reader of events
took for a number comes as a scalar and stays one.
-/

namespace FieldSelection.Json

/-- To tell a value to an assembly sorts it. -/
theorem Assembly.writeAll_value (d : Value) :
    Sink.writeAll ({} : Assembly) d.events = .accepted ⟨[], some d.sorted⟩ := by
  rw [← d.told_events]
  exact Assembly.writeAll_events d.told rfl

/-- A text is told as a document and read as that document sorted, or both readers find it
faulty. -/
theorem stream_cases (text : List UInt8) :
    (∃ d : Value, stream text = .ofValue d ∧ Value.parse text = .ok d.sorted) ∨
      ∃ why why', (stream text).failure? = some why ∧ Value.parse text = .error why' := by
  cases hparse : Value.parse text with
  | ok v =>
      obtain ⟨d, hstream, hsorted, -⟩ := stream_of_parse hparse
      exact Or.inl ⟨d, hstream, by rw [hsorted]⟩
  | error why' =>
      right
      cases hfailure : (stream text).failure? with
      | some why => exact ⟨why, why', rfl, rfl⟩
      | none =>
          -- a text that is told without a failure is told as a document
          rcases agree_value depthLimit text with ⟨_, rest, _, -, htell, d, -, rfl, -⟩ |
            ⟨_, told, why, -, htell⟩
          · cases hdone : endOfDocument rest with
            | error why =>
                exact absurd hfailure (by
                  simp [stream, Telling.andThen, htell, Telling.ofReading, hdone, Telling.silent])
            | ok u =>
                have hstream : stream text = .ofValue d := by
                  simp [stream, Telling.andThen, htell, Telling.ofReading, hdone, Telling.silent,
                    Source.ofValue]
                exact absurd (hparse.symm.trans (parse_of_stream hstream)) (by simp)
          · exact absurd hfailure (by simp [stream, Telling.andThen, htell])

/-- A source that fails is never taken to the end. -/
theorem into_ne_accepted {σ : Type} [Sink σ] {source : Source} {why : Failure}
    (h : source.failure? = some why) (s s' : σ) : source.into s ≠ .accepted s' := by
  intro hinto
  obtain ⟨mid, -, hend⟩ := Reply.andThen_eq_accepted hinto
  rw [h] at hend
  exact absurd hend (by simp)

theorem into_assembly {text : List UInt8} {d : Value} (h : stream text = .ofValue d) :
    (stream text).into ({} : Assembly) = .accepted ⟨[], some d.sorted⟩ := by
  rw [h, Source.into, Source.ofValue, Assembly.writeAll_value]
  rfl

/-- **To collect what is told of a text is to read it as a value.** An assembly takes the events of
a text to the end exactly if the text is read as a value, and then it has this value. -/
theorem collects_iff_parses (text : List UInt8) :
    ((∃ a, (stream text).into ({} : Assembly) = .accepted a) ↔
        ∃ v, Value.parse text = .ok v) ∧
      ∀ a, (stream text).into ({} : Assembly) = .accepted a →
        ∃ v, a.value? = some v ∧ Value.parse text = .ok v := by
  rcases stream_cases text with ⟨d, hstream, hparse⟩ | ⟨why, why', hfailure, hparse⟩
  · have hinto := into_assembly hstream
    refine ⟨iff_of_true ⟨_, hinto⟩ ⟨_, hparse⟩, fun a ha => ?_⟩
    cases hinto.symm.trans ha
    exact ⟨d.sorted, rfl, hparse⟩
  · have hnot : ∀ a, (stream text).into ({} : Assembly) ≠ .accepted a :=
      into_ne_accepted hfailure _
    refine ⟨iff_of_false ?_ ?_, fun a ha => absurd ha (hnot a)⟩
    · rintro ⟨a, ha⟩
      exact hnot a ha
    · rintro ⟨v, hv⟩
      exact absurd (hparse.symm.trans hv) (by simp)

/-- A name comes twice, an empty object comes before an object that stands for a number, and the
digits of numbers are kept. Without its end, the text is neither collected nor read. -/
theorem collects_iff_parses_number :
    let text := ascii ("\x7b\"b\":1,\"a\":[\x7b\x7d," ++
      "\x7b\"$serde_json::private::Number\":\"1.50\"\x7d],\"b\":2E7\x7d ")
    (∃ a, (stream text).into ({} : Assembly) = .accepted a ∧
        a.value?.map Value.compact = some (ascii "\x7b\"a\":[\x7b\x7d,1.50],\"b\":2e+7\x7d")) ∧
      ¬ ∃ a, (stream text.dropLast.dropLast).into ({} : Assembly) = .accepted a := by
  intro text
  have hread : (Value.parse text).map Value.compact =
      .ok (ascii "\x7b\"a\":[\x7b\x7d,1.50],\"b\":2e+7\x7d") := by decide +kernel
  have hcut : (Value.parse text.dropLast.dropLast).isOk = false := by decide +kernel
  refine ⟨?_, fun hcollected => ?_⟩
  · cases hparse : Value.parse text with
    | error why =>
        rw [hparse] at hread
        exact absurd hread (by simp [Except.map])
    | ok v =>
        obtain ⟨a, ha⟩ := (collects_iff_parses text).1.mpr ⟨v, hparse⟩
        obtain ⟨v', hv', hparse'⟩ := (collects_iff_parses text).2 a ha
        rw [hparse'] at hread
        exact ⟨a, ha, by rw [hv', Option.map_some, Except.ok.inj hread]⟩
  · obtain ⟨v, hv⟩ := (collects_iff_parses _).1.mp hcollected
    rw [hv] at hcut
    exact absurd hcut (by simp [Except.isOk, Except.toBool])

end FieldSelection.Json
