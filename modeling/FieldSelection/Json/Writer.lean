import FieldSelection.Sink

/-!
# Writing events as text

A writer is a sink that turns events into the bytes of a document. It refuses what would
not make one. Of its two layouts one has no blanks, and the other gives each value a line
of its own, indented by two spaces for each container around it.

An output may take a limited number of bytes. The bytes of an event are handed over in
chunks, each with the state that the writer goes on from if the output is full. Whether the
chunk belongs to a name or a value decides what the failure is called.
-/

namespace FieldSelection.Json

/-- How a document is laid out. -/
inductive Layout where
  /-- Without blanks. -/
  | compact
  /-- One value a line. -/
  | pretty
  deriving DecidableEq, Repr

/-- Where the bytes go. -/
structure Output where
  /-- The bytes that were taken, the last one first. -/
  taken : List UInt8 := []
  /-- How many more are taken, if not all. -/
  room : Option Nat := none
  deriving DecidableEq, Repr

namespace Output

/-- The bytes that were taken, in order. -/
def written (o : Output) : List UInt8 := o.taken.reverse

/-- The bytes for which there is room. -/
def fitting (o : Output) (bytes : List UInt8) : List UInt8 :=
  match o.room with
  | none => bytes
  | some room => bytes.take room

/-- Takes as many bytes as there is room for. Tells whether those were all. -/
def take (o : Output) (bytes : List UInt8) : Output × Bool :=
  (⟨(o.fitting bytes).reverse ++ o.taken, o.room.map (· - bytes.length)⟩,
    o.room.all (bytes.length ≤ ·))

end Output

namespace Writer

/-- A container whose end is not written yet. -/
inductive Open where
  /-- An object: whether it is still empty, and whether a name waits for its value. -/
  | object (empty named : Bool)
  /-- An array: whether it is still empty. -/
  | array (empty : Bool)
  deriving DecidableEq, Repr

/-- What the writer knows about the document so far. -/
structure State where
  /-- The open containers, innermost first. -/
  frames : List Open := []
  /-- Whether the document has ended. -/
  rootWritten : Bool := false
  /-- How far the next line is indented. -/
  indent : Nat := 0
  /-- Whether the container that ends next has something in it. -/
  hasValue : Bool := false
  deriving DecidableEq, Repr

/-- Bytes that belong together. -/
structure Chunk where
  /-- The bytes. -/
  bytes : List UInt8
  /-- Whether they are a name or a value, rather than what stands between those. -/
  isContent : Bool
  /-- The state to go on from if the output does not take them. -/
  ifCut : State

/-- What an event comes to. -/
inductive Step where
  /-- The event does not fit. -/
  | refused (why : Imbalance) (state : State)
  /-- The event is written as these chunks. -/
  | written (chunks : List Chunk) (state : State)

/-- Puts chunks in front of those of a step that goes on from a state. -/
def Step.andThen (step : Step) (next : State → Step) : Step :=
  match step with
  | .refused why s => .refused why s
  | .written chunks s =>
    match next s with
    | .refused why s => .refused why s
    | .written more s => .written (chunks ++ more) s

/-- Starts a new line if the layout has lines. -/
def newLine (layout : Layout) (indent : Nat) : List UInt8 :=
  match layout with
  | .compact => []
  | .pretty => byte '\n' :: List.replicate (2 * indent) (byte ' ')

/-- What stands in front of an element or a name. -/
def separator (layout : Layout) (empty : Bool) (indent : Nat) : List UInt8 :=
  (if empty then [] else [byte ',']) ++ newLine layout indent

/-- What stands between a name and its value. -/
def assignment : Layout → List UInt8
  | .compact => [byte ':']
  | .pretty => ascii ": "

/-- A container that was just opened. -/
def Open.new : Container → Open
  | .object => .object true false
  | .array => .array true

/-- Makes room for a value: in an array with what stands in front of it. -/
def beginValue (layout : Layout) (s : State) : Step :=
  match s.frames with
  | [] => if s.rootWritten then .refused .secondRoot s else .written [] s
  | .array empty :: outer =>
    .written [⟨separator layout empty s.indent, false, s⟩]
      { s with frames := .array false :: outer }
  | .object _ true :: _ => .written [] s
  | .object _ false :: _ => .refused .unnamedValue s

/-- The state after a value was written. -/
def endValue (s : State) : State :=
  match s.frames with
  | [] => { s with rootWritten := true }
  | .array _ :: _ => { s with hasValue := true }
  | .object empty _ :: outer =>
    { s with frames := .object empty false :: outer, hasValue := true }

/-- Opens a container. -/
def start (layout : Layout) (kind : Container) (s : State) : Step :=
  (beginValue layout s).andThen fun s =>
    let s := { s with indent := s.indent + 1, hasValue := false }
    .written [⟨[kind.startByte], false, s⟩] { s with frames := Open.new kind :: s.frames }

/-- Closes a container. The innermost one is closed even if it does not fit. -/
def stop (layout : Layout) (kind : Container) (s : State) : Step :=
  let popped := { s with frames := s.frames.tail }
  let fits := match kind, s.frames with
    | .object, .object _ false :: _ => true
    | .array, .array _ :: _ => true
    | _, _ => false
  if fits then
    let s := { popped with indent := s.indent - 1 }
    let lead := if s.hasValue then newLine layout s.indent else []
    .written [⟨lead ++ [kind.stopByte], false, s⟩] (endValue s)
  else .refused (.unexpectedEnd kind) popped

/-- Writes a name. -/
def field (layout : Layout) (name : String) (s : State) : Step :=
  match s.frames with
  | .object _ true :: _ => .refused .unusedName s
  | .object empty false :: outer =>
    .written
      [⟨separator layout empty s.indent, false, s⟩, ⟨quoted name, true, s⟩,
        ⟨assignment layout, false, s⟩]
      { s with frames := .object false true :: outer }
  | _ => .refused .strayName s

/-- Writes a value as a whole. -/
def scalar (layout : Layout) (v : Value) (s : State) : Step :=
  (beginValue layout s).andThen fun s => .written [⟨v.compact, true, s⟩] (endValue s)

/-- What an event comes to. -/
def step (layout : Layout) (s : State) : Event → Step
  | .start kind => start layout kind s
  | .stop kind => stop layout kind s
  | .field name => field layout name s
  | .scalar v => scalar layout v s

end Writer

/-- A document that is being written. -/
structure Writer where
  /-- How it is laid out. -/
  layout : Layout := .compact
  /-- What is known about it so far. -/
  state : Writer.State := {}
  /-- Where its bytes go. -/
  output : Output := {}

namespace Writer

/-- Hands chunks to the output until it does not take one. -/
def put (w : Writer) (state : State) : List Chunk → Reply Writer
  | [] => .accepted { w with state }
  | chunk :: rest =>
    match w.output.take chunk.bytes with
    | (output, true) => put { w with output } state rest
    | (output, false) =>
      .refused { w with output, state := chunk.ifCut }
        (if chunk.isContent then .contentCut else .outputFull)

/-- Takes one event. -/
def write (w : Writer) (event : Event) : Reply Writer :=
  match step w.layout w.state event with
  | .refused why state => .refused { w with state } (.unbalanced why)
  | .written chunks state => w.put state chunks

/-- Ends the document. -/
def close (w : Writer) : Reply Writer :=
  match w.state.frames with
  | [] => .accepted w
  | _ :: _ => .refused w (.unbalanced .unfinished)

instance : Sink Writer where
  write := write
  close := close

end Writer

end FieldSelection.Json
