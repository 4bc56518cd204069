import FieldSelection.Sink

/-!
# Recorders

A recorder is the plainest sink: it remembers what it is told. It can be made to refuse one
of its calls, which shows how a sink in front of it behaves then.
-/

namespace FieldSelection

open Json

/-- What a recorder was told. -/
inductive Record where
  /-- An event. -/
  | event (event : Event)
  /-- The end of the document. -/
  | closed
  deriving DecidableEq

/-- A sink that remembers what it was told. -/
structure Recorder where
  /-- What was told and not refused, the last first. -/
  taken : List Record := []
  /-- How often the recorder was called. -/
  calls : Nat := 0
  /-- The number of the call that is refused, counted from 0. -/
  refuses : Option Nat := none

namespace Recorder

/-- What was told and not refused, in order. -/
def records (r : Recorder) : List Record := r.taken.reverse

/-- Takes one call. -/
def call (r : Recorder) (record : Record) : Reply Recorder :=
  if r.refuses = some r.calls then .refused { r with calls := r.calls + 1 } .outputFull
  else .accepted { r with taken := record :: r.taken, calls := r.calls + 1 }

instance : Sink Recorder where
  write r event := r.call (.event event)
  close r := r.call .closed

end Recorder

end FieldSelection
