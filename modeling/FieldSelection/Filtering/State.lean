import FieldSelection.Context
import FieldSelection.Sink

/-!
# Filtering event by event

The filter holds back the start of a container until something inside it is kept. It
remembers, for each open container, what is kept inside, the field it is the value of, and
whether its start was passed on.

An event comes to a list of events to pass on, each with the state to go on from if the
receiver refuses it. A container kept as a whole counts as one match, and so does each
value that is kept outside of such containers.
-/

namespace FieldSelection.Filtering

open Json

/-- A field whose value comes next. -/
structure PendingField where
  /-- The name of the field. -/
  name : String
  /-- What is kept of the value, if anything. -/
  context : Option Context
  deriving DecidableEq, Repr

/-- An open container. -/
structure Frame where
  /-- Its kind. -/
  kind : Container
  /-- What is kept inside, if anything. -/
  context : Option Context
  /-- The field that the container is the value of. -/
  field : Option String
  /-- Whether its start was passed on. -/
  written : Bool := false
  /-- The field inside whose value comes next. -/
  pending : Option PendingField := none
  deriving DecidableEq, Repr

/-- The frame after its start was passed on. -/
def Frame.opened (frame : Frame) : Frame := { frame with written := true }

/-- The events that open a container: the name of its field, if it has one, and its start. -/
def Frame.opening (frame : Frame) : List Event :=
  frame.field.toList.map .field ++ [.start frame.kind]

/-- What the filter knows about the document so far. -/
structure State where
  /-- The open containers, innermost first. -/
  frames : List Frame := []
  /-- The kind of the outermost container, once it was started. -/
  rootKind : Option Container := none
  /-- Whether the document has ended. -/
  rootDone : Bool := false
  /-- How many matches there were. -/
  matched : Nat := 0
  deriving DecidableEq, Repr

/-- An event to pass on. -/
structure Handoff where
  /-- The event. -/
  event : Event
  /-- The state to go on from if the receiver refuses it. -/
  ifRefused : State

/-- What an event comes to. -/
inductive Step where
  /-- The event does not fit. -/
  | refused (why : Imbalance) (state : State)
  /-- These events are passed on. -/
  | passed (handoffs : List Handoff) (state : State)

namespace State

/-- Whether the innermost container is kept as a whole, and so was counted. -/
def isCounted (s : State) : Bool :=
  match s.frames with
  | [] => false
  | frame :: _ => frame.context == some .all

/-- The state with one more match, unless what matched was counted. -/
def count (s : State) (counted : Bool) : State :=
  if counted then s else { s with matched := s.matched + 1 }

/-- What is kept of the next value and the field it belongs to, and the state in which it
is no longer due. -/
def nextValue (t : Tree) (s : State) :
    Except Imbalance (Option Context × Option String × State) :=
  match s.frames with
  | [] =>
    if s.rootDone then .error .secondRoot else .ok (some (.ofNode t.graph t.root), none, s)
  | frame :: outer =>
    match frame.kind, frame.pending with
    | .array, _ => .ok (frame.context, none, s)
    | .object, none => .error .unnamedValue
    | .object, some pending =>
      .ok (pending.context, some pending.name,
        { s with frames := { frame with pending := none } :: outer })

/-- The starts that were held back, outermost first, each after the name of its field. The
frames `inner` are those inside of the ones to look at. -/
def heldBack (s : State) (inner : List Frame) : List Frame → List Handoff
  | [] => []
  | frame :: outer =>
    let before := { s with frames := inner ++ frame :: outer.map Frame.opened }
    s.heldBack (inner ++ [frame]) outer ++
      if frame.written then []
      else frame.opening.map fun event => ⟨event, before⟩

/-- The state in which no start is held back. -/
def opened (s : State) : State := { s with frames := s.frames.map Frame.opened }

/-- Passes on the starts that were held back, and then these events. -/
def passing (s : State) (events : List Event) : List Handoff :=
  s.heldBack [] s.frames ++ events.map fun event => ⟨event, s.opened⟩

/-- A container starts. -/
def start (t : Tree) (kind : Container) (s : State) : Step :=
  match s.nextValue t with
  | .error why => .refused why s
  | .ok (context, field, next) =>
    let rootKind := if next.frames.isEmpty then some kind else next.rootKind
    let frame : Frame := { kind, context, field }
    let next := { next with rootKind, frames := frame :: next.frames }
    if context = some .all then .passed (next.passing []) (next.opened.count s.isCounted)
    else .passed [] next

/-- A container ends. The innermost one is closed even if the end does not fit. -/
def stop (kind : Container) (s : State) : Step :=
  match s.frames with
  | [] => .refused .strayEnd s
  | frame :: outer =>
    let next := { s with frames := outer }
    if frame.kind ≠ kind then .refused .mismatchedEnd next
    else if frame.pending.isSome then .refused .unusedName next
    else
      .passed (if frame.written then [⟨.stop kind, next⟩] else [])
        { next with rootDone := next.rootDone || outer.isEmpty }

/-- A field is named. -/
def field (t : Tree) (name : String) (s : State) : Step :=
  match s.frames with
  | [] => .refused .strayName s
  | frame :: outer =>
    match frame.kind, frame.pending with
    | .object, none =>
      let context := frame.context.bind (Context.field t.graph name)
      .passed [] { s with frames := { frame with pending := some ⟨name, context⟩ } :: outer }
    | _, _ => .refused .strayName s

/-- A value without values inside. At the root there is no field to leave it out by. -/
def scalar (t : Tree) (v : Value) (s : State) : Step :=
  match s.nextValue t with
  | .error why => .refused why s
  | .ok (context, field, next) =>
    let atRoot := s.frames.isEmpty
    let next := { next with rootDone := next.rootDone || atRoot }
    if atRoot || context.any (Context.keepsScalar t.graph) then
      .passed (next.passing (field.toList.map .field ++ [.scalar v]))
        (next.opened.count s.isCounted)
    else .passed [] next

/-- What an event comes to. -/
def step (t : Tree) (s : State) : Event → Step
  | .start kind => s.start t kind
  | .stop kind => s.stop kind
  | .field name => s.field t name
  | .scalar v => s.scalar t v

/-- What the end of the document comes to. Where nothing was kept of a container, an empty
one of its kind is passed on. -/
def close (s : State) : Step :=
  match s.frames with
  | _ :: _ => .refused .unfinished s
  | [] =>
    match s.matched, s.rootKind with
    | 0, some kind => .passed [⟨.start kind, s⟩, ⟨.stop kind, s⟩] s
    | _, _ => .passed [] s

end State

end FieldSelection.Filtering
