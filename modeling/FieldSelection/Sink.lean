import FieldSelection.Failure

/-!
# Sources and sinks of events

A sink takes events in order and is closed after the last one. It may refuse an event, and
goes on from some state either way. A source is a list of events that may end in a failure
of its own; whatever the sink refuses first is what counts.
-/

namespace FieldSelection

open Json

/-- What a sink says, and the state that it goes on from. -/
inductive Reply (σ : Type) where
  /-- All is well. -/
  | accepted (sink : σ)
  /-- The sink refuses, for this reason. -/
  | refused (sink : σ) (why : Failure)

namespace Reply

/-- The sink after the reply. -/
def sink {σ : Type} : Reply σ → σ
  | .accepted s => s
  | .refused s _ => s

/-- Why the sink refused, if it did. -/
def failure? {σ : Type} : Reply σ → Option Failure
  | .accepted _ => none
  | .refused _ why => some why

/-- Goes on with a sink that did not refuse. -/
def andThen {σ : Type} (reply : Reply σ) (next : σ → Reply σ) : Reply σ :=
  match reply with
  | .accepted s => next s
  | .refused s why => .refused s why

end Reply

/-- What takes events in document order. -/
class Sink (σ : Type) where
  /-- Takes one event. -/
  write : σ → Event → Reply σ
  /-- Called once after the last event. -/
  close : σ → Reply σ

namespace Sink

/-- Hands events to a sink until it refuses one. -/
def writeAll {σ : Type} [Sink σ] (s : σ) : List Event → Reply σ
  | [] => .accepted s
  | event :: rest => (write s event).andThen (writeAll · rest)

end Sink

/-- Events in document order, with the failure that they end in, if any. -/
structure Source where
  /-- The events before the failure or the end. -/
  events : List Event
  /-- Why there are no more, if the document is not complete. -/
  failure? : Option Failure := none

namespace Source

/-- Hands a source over to a sink, which is not closed. -/
def into {σ : Type} [Sink σ] (source : Source) (s : σ) : Reply σ :=
  (Sink.writeAll s source.events).andThen fun s =>
    match source.failure? with
    | none => .accepted s
    | some why => .refused s why

/-- The events of a value. -/
def ofValue (v : Value) : Source := ⟨v.events, none⟩

end Source

end FieldSelection
