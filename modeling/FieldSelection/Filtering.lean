import FieldSelection.Filtering.State
import FieldSelection.Json.Assembly
import FieldSelection.Json.Stream
import FieldSelection.Json.Writer

/-!
# Filtering documents

A filtering sink stands in front of another sink and passes on what a tree selects of the
document. With a source on one side and a writer or an assembly on the other, it filters
texts and values.
-/

namespace FieldSelection

open Json

/-- A sink behind a filter. -/
structure Filtering (σ : Type) where
  /-- What is selected. -/
  tree : Tree
  /-- What the filter knows about the document so far. -/
  state : Filtering.State := {}
  /-- The sink that gets what is selected. -/
  inner : σ

namespace Filtering

variable {σ : Type} [Sink σ]

/-- Passes events on until the inner sink refuses one. -/
def pass (f : Filtering σ) (state : State) : List Handoff → Reply (Filtering σ)
  | [] => .accepted { f with state }
  | handoff :: rest =>
    match Sink.write f.inner handoff.event with
    | .accepted inner => pass { f with inner } state rest
    | .refused inner why => .refused { f with inner, state := handoff.ifRefused } why

/-- Does what a step comes to. -/
def perform (f : Filtering σ) : Step → Reply (Filtering σ)
  | .refused why state => .refused { f with state } (.unbalanced why)
  | .passed handoffs state => f.pass state handoffs

instance : Sink (Filtering σ) where
  write f event := f.perform (f.state.step f.tree event)
  close f := (f.perform f.state.close).andThen fun f =>
    match Sink.close f.inner with
    | .accepted inner => .accepted { f with inner }
    | .refused inner why => .refused { f with inner } why

omit [Sink σ] in
/-- How many values were kept so far. One kept as a whole counts once. -/
def matchCount (f : Filtering σ) : Nat := f.state.matched

end Filtering

/-- Hands what a tree selects of a source to a sink, and closes the sink. -/
def copyFiltered {σ : Type} [Sink σ] (source : Source) (sink : σ) (tree : Tree) :
    Reply (Filtering σ) :=
  (source.into (⟨tree, {}, sink⟩ : Filtering σ)).andThen Sink.close

/-- Filters a value. -/
def filterValue (v : Value) (tree : Tree) : Except Failure Value :=
  match copyFiltered (Source.ofValue v) ({} : Assembly) tree with
  | .refused _ why => .error why
  | .accepted f =>
    match f.inner.value? with
    | some v => .ok v
    | none => .error (.unbalanced .nothingProduced)

/-- Filters the text of a document into an output. Gives the output in any case, and what
went wrong. -/
def filterText (text : List UInt8) (layout : Layout) (output : Output) (tree : Tree) :
    Output × Option Failure :=
  let reply := copyFiltered (stream text) ({ layout, output } : Writer) tree
  (reply.sink.inner.output, reply.failure?)

end FieldSelection
