import FieldSelection.Expression
import FieldSelection.Filtering
import FieldSelection.Schema.Repository

/-!
# The command line

The program filters the document on its input down to the fields of an expression. It can
check the expression first, against a schema of a description. Options are given by a
letter or by a name, a value after them or joined to them; an option may be given once
only, except for the one that asks for more detail.
-/

namespace FieldSelection.CommandLine

/-- An option that takes a value. -/
inductive Key where
  /-- The fields expression. -/
  | fields
  /-- The file with a description. -/
  | discovery
  /-- The name of a schema of the description. -/
  | resource
  deriving DecidableEq, Repr

/-- Why the program does not run. -/
inductive Stop where
  /-- The arguments are wrong. -/
  | usage (why : String)
  /-- The user asked for help. -/
  | help
  /-- The user asked for the version. -/
  | version
  deriving DecidableEq, Repr

/-- The options given so far. -/
structure Given where
  /-- The fields expression. -/
  fields : Option String := none
  /-- The file with a description. -/
  discovery : Option String := none
  /-- The name of a schema of the description. -/
  resource : Option String := none
  /-- Whether the output is indented. -/
  pretty : Bool := false
  /-- How much detail to log. -/
  verbosity : Nat := 0
  deriving DecidableEq, Repr

/-- What the program is asked to do. -/
structure Options where
  /-- The fields expression. -/
  fields : String
  /-- The file with a description and the name of a schema in it. -/
  schema : Option (String × String)
  /-- Whether the output is indented. -/
  pretty : Bool
  /-- How much detail to log. -/
  verbosity : Nat
  deriving DecidableEq, Repr

/-- An option as it was recognised. -/
inductive Switch where
  /-- It takes a value. -/
  | key (key : Key)
  /-- It indents the output. -/
  | pretty
  /-- It asks for more detail. -/
  | verbose
  /-- It asks for help. -/
  | help
  /-- It asks for the version. -/
  | version

/-- The option of a name. -/
def Switch.ofName? (name : String) : Option Switch :=
  if name = "fields" then some (.key .fields)
  else if name = "discovery" then some (.key .discovery)
  else if name = "resource" then some (.key .resource)
  else if name = "pretty" then some .pretty
  else if name = "verbose" then some .verbose
  else if name = "help" then some .help
  else if name = "version" then some .version
  else none

/-- The option of a letter. -/
def Switch.ofLetter? (letter : Char) : Option Switch :=
  if letter = 'f' then some (.key .fields)
  else if letter = 'd' then some (.key .discovery)
  else if letter = 'r' then some (.key .resource)
  else if letter = 'v' then some .verbose
  else if letter = 'h' then some .help
  else if letter = 'V' then some .version
  else none

/-- Whether an option can have this value. The name of a file is never empty. -/
def Key.admits : Key → String → Bool
  | .discovery, value => !value.isEmpty
  | .fields, _ => true
  | .resource, _ => true

namespace Given

/-- Sets an option that was not given before. -/
def set (g : Given) (key : Key) (value : String) : Except Stop Given :=
  if key.admits value then
    match key, g.fields, g.discovery, g.resource with
    | .fields, none, _, _ => .ok { g with fields := some value }
    | .discovery, _, none, _ => .ok { g with discovery := some value }
    | .resource, _, _, none => .ok { g with resource := some value }
    | _, _, _, _ => .error (.usage "an option is given twice")
  else .error (.usage "an option has an empty value")

/-- Takes an option without a value. -/
def switch (g : Given) : Switch → Except Stop Given
  | .key _ => .error (.usage "an option lacks its value")
  | .pretty =>
    if g.pretty then .error (.usage "an option is given twice")
    else .ok { g with pretty := true }
  | .verbose => .ok { g with verbosity := g.verbosity + 1 }
  | .help => .error .help
  | .version => .error .version

/-- Takes an argument that starts with two dashes. The option is handed back if its value
is still to come. -/
def takeLong (g : Given) (argument : List Char) : Except Stop (Given × Option Key) :=
  let name := argument.takeWhile (· != '=')
  match Switch.ofName? (String.ofList name), argument.drop name.length with
  | none, _ => .error (.usage "an option is unknown")
  | some (.key key), [] => .ok (g, some key)
  | some (.key key), _ :: value => (g.set key (String.ofList value)).map (·, none)
  | some switch, [] => (g.switch switch).map (·, none)
  | some _, _ :: _ => .error (.usage "an option takes no value")

/-- Takes the letters after one dash. The first that takes a value has the rest of them
for its value; the option is handed back if there is no rest. -/
def takeShort (g : Given) : List Char → Except Stop (Given × Option Key)
  | [] => .ok (g, none)
  | letter :: rest =>
    match Switch.ofLetter? letter, rest with
    | none, _ => .error (.usage "an option is unknown")
    | some (.key key), [] => .ok (g, some key)
    | some (.key key), '=' :: value => (g.set key (String.ofList value)).map (·, none)
    | some (.key key), value => (g.set key (String.ofList value)).map (·, none)
    | some switch, rest => do takeShort (← g.switch switch) rest

/-- Takes the arguments one by one. The option whose value comes next is given by
`awaiting`. A dash alone is a value like any other. -/
def takeAll (g : Given) (awaiting : Option Key) : List String → Except Stop Given
  | [] =>
    match awaiting with
    | none => .ok g
    | some _ => .error (.usage "an option lacks its value")
  | argument :: rest =>
    match awaiting, argument.toList with
    | some _, '-' :: _ :: _ => .error (.usage "an option lacks its value")
    | some key, _ => do takeAll (← g.set key argument) none rest
    | none, ['-', '-'] =>
      if rest.isEmpty then .ok g else .error (.usage "an argument is not expected")
    | none, '-' :: '-' :: long => do
      let (g, awaiting) ← g.takeLong long
      takeAll g awaiting rest
    | none, '-' :: letter :: letters => do
      let (g, awaiting) ← g.takeShort (letter :: letters)
      takeAll g awaiting rest
    | none, _ => .error (.usage "an argument is not expected")

/-- Makes sure that everything needed was given. -/
def options (g : Given) : Except Stop Options :=
  match g.fields, g.discovery, g.resource with
  | none, _, _ => .error (.usage "the fields expression is missing")
  | some fields, none, none => .ok ⟨fields, none, g.pretty, g.verbosity⟩
  | some fields, some discovery, some resource =>
    .ok ⟨fields, some (discovery, resource), g.pretty, g.verbosity⟩
  | some _, _, _ => .error (.usage "a description and a resource come together")

end Given

/-- What the arguments ask for. -/
def parse (arguments : List String) : Except Stop Options := do
  (← Given.takeAll {} none arguments).options

/-- What the program did. -/
structure Outcome where
  /-- The exit code. -/
  exit : Nat
  /-- What was written to the standard output. -/
  stdout : List UInt8 := []
  /-- What was written to the standard error. -/
  stderr : String := ""
  deriving DecidableEq, Repr

/-- The outcome of a run that fails before anything is written. -/
def Outcome.failed (why : String) : Outcome := { exit := 1, stderr := why }

/-- Checks an expression against a schema. -/
def validate (e : Expression) (description : List UInt8) (resource : String) :
    Except String Unit :=
  match Repository.parse description with
  | .error why => .error why.message
  | .ok repository =>
    match (repository.tree resource).1 with
    | .error why => .error why.message
    | .ok schema =>
      if e.isValidAgainst schema then .ok ()
      else .error ("fields expression '" ++ e.text ++ "' does not match resource " ++ resource)

/-- Filters the input. A complete document ends with a line feed. -/
def filter (e : Expression) (pretty : Bool) (stdin : List UInt8) : Outcome :=
  let layout := if pretty then Json.Layout.pretty else .compact
  match filterText stdin layout {} e.filterTree with
  | (output, some why) => { exit := 1, stdout := output.written, stderr := why.message }
  | (output, none) =>
    let ending := if output.written.isEmpty then [] else [0x0A]
    { exit := 0, stdout := output.written ++ ending }

/-- Does what the options ask for. A file that cannot be read has no content. -/
def run (o : Options) (readFile : String → Option (List UInt8)) (stdin : List UInt8) :
    Outcome :=
  match Expression.parse o.fields with
  | .error why => .failed why.message
  | .ok e =>
    match o.schema with
    | none => filter e o.pretty stdin
    | some (path, resource) =>
      match readFile path with
      | none => .failed ("cannot read " ++ path)
      | some description =>
        match validate e description resource with
        | .error why => .failed why
        | .ok () => filter e o.pretty stdin

/-- What the user is told about the options. -/
def helpText : String :=
  String.join (List.map (· ++ "\n")
    ["Filters the JSON document on stdin down to the fields selected by an expression.",
      "",
      "Options:",
      "  -f, --fields <FIELDS>        The fields expression, e.g. \"items(id,title)\"",
      "  -d, --discovery <DISCOVERY>  A discovery document to validate the expression against",
      "  -r, --resource <RESOURCE>    The schema of the discovery document describing the input",
      "      --pretty                 Indent the output",
      "  -v, --verbose...             Log to stderr, repeat for more detail",
      "  -h, --help                   Print help",
      "  -V, --version                Print version"])

/-- The outcome of a run that does not filter anything. -/
def stopped : Stop → Outcome
  | .usage why => { exit := 2, stderr := "error: " ++ why ++ "\n\n" ++ helpText }
  | .help => { exit := 0, stdout := Text.bytes helpText }
  | .version => { exit := 0, stdout := Text.bytes "0.1.0\n" }

/-- Does what the arguments ask for. -/
def execute (arguments : List String) (readFile : String → Option (List UInt8))
    (stdin : List UInt8) : Outcome :=
  match parse arguments with
  | .error stop => stopped stop
  | .ok options => run options readFile stdin

end FieldSelection.CommandLine
