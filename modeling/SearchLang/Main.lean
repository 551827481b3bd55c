import SearchLang.Command

/-!
# The program

Reads the settings file that the arguments name, and prints what the command
leaves behind.
-/

namespace SearchLang

/-- The content of a file, or why it cannot be read. -/
def readContent (path : String) : IO (Except Text Text) := do
  try
    let bytes ← IO.FS.readBinFile path
    match String.fromUTF8? bytes with
    | some s => pure (.ok s.toList)
    | none => pure (.error "stream did not contain valid UTF-8".toList)
  catch e =>
    match e with
    | .noFileOrDirectory .. => pure (.error "No such file or directory (os error 2)".toList)
    | .permissionDenied .. => pure (.error "Permission denied (os error 13)".toList)
    | e => pure (.error (toString e).toList)

end SearchLang

open SearchLang in
/-- Runs the command. -/
def main (args : List String) : IO UInt32 := do
  let args := args.map String.toList
  let content ←
    match Command.invocation args with
    | .ok ⟨⟨some path, _⟩, _, _⟩ => readContent (String.ofList path)
    | _ => pure (.ok [])
  let outcome := Command.run (fun _ => content) args
  IO.print (String.ofList outcome.output)
  IO.eprint (String.ofList outcome.errors)
  pure outcome.code.toUInt32
