import FieldSelection.CommandLine

/-!
# The program

Reads the arguments, the description and the document, and writes what comes of them.
-/

open FieldSelection

/-- Reads all bytes of a stream. -/
partial def readToEnd (stream : IO.FS.Stream) (bytes : ByteArray) : IO ByteArray := do
  let more ← stream.read 65536
  if more.isEmpty then return bytes else readToEnd stream (bytes ++ more)

/-- The bytes of a text file, if it can be read. -/
def readTextFile? (path : String) : IO (Option (List UInt8)) := do
  try
    return some (Text.bytes (← IO.FS.readFile path))
  catch _ =>
    return none

/-- Filters the standard input. -/
def main (arguments : List String) : IO UInt32 := do
  let outcome ←
    match CommandLine.parse arguments with
    | .error stop => pure (CommandLine.stopped stop)
    | .ok options =>
      let description ←
        match options.schema with
        | some (path, _) => readTextFile? path
        | none => pure none
      let stdin ← readToEnd (← IO.getStdin) .empty
      pure (CommandLine.run options (fun _ => description) stdin.toList)
  let stdout ← IO.getStdout
  stdout.write outcome.stdout.toByteArray
  stdout.flush
  unless outcome.stderr.isEmpty do
    IO.eprintln outcome.stderr
  return outcome.exit.toUInt32
