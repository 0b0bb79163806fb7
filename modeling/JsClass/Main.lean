import JsClass.CommandLine.Run

/-! The command as a program. -/
namespace JsClass.Main

/-- A text for the terminal, where a surrogate cannot be shown. -/
def printable (t : Text) : String := .ofList (t.map fun p => p.toChar?.getD '\ufffd')

/-- What is in the file that the arguments ask for. -/
def contents (args : List String) : IO (Except CommandLine.FileError String) := do
  match CommandLine.Invocation.ofArguments args with
  | .error _ => return .error .notFound
  | .ok i =>
    match i.input with
    | none => return .error .notFound
    | some path =>
      try return .ok (← IO.FS.readFile path)
      catch _ => return .error .notFound

end JsClass.Main

open JsClass in
def main (args : List String) : IO UInt32 := do
  let text ← Main.contents args
  match CommandLine.run args fun _ => text with
  | .ok outcome =>
    IO.print (Main.printable outcome.stdout)
    IO.eprint (Main.printable outcome.stderr)
    return outcome.exit.toUInt32
  | .error _ =>
    IO.eprintln "The file cannot be read, or it has a number or an escape without a value."
    return 1
