import NamedSchemas.CommandLine.Run
import NamedSchemas.Yaml.Writer
/-!
# The program

Connects the command line to the files and the streams of the machine.
-/

namespace NamedSchemas

def programName : Text := "extract-openapi-components"

/-- What the machine answers when a file cannot be opened. -/
def FileFault.ofError (path : Path) (error : IO.Error) : FileFault :=
  match error with
  | .noFileOrDirectory .. => .notFound path
  | .noSuchThing .. => .notFound path
  | .inappropriateType _ _ details =>
    if details = "not a directory" then .notDirectory path else .isDirectory path
  | e => .other (Text.ofString e.toString)

def machineFiles : FileAccess IO where
  present path := do
    try
      discard (IO.FS.realPath path.text.asString)
      return .ok true
    catch _ => return .ok false
  read path := do
    try return .ok (← IO.FS.readBinFile path.text.asString).toList
    catch e => return .error (.ofError path e)
  write path content := do
    try
      IO.FS.writeBinFile path.text.asString ⟨content.toArray⟩
      return .ok ()
    catch e => return .error (.ofError path e)

end NamedSchemas

open NamedSchemas

def main (arguments : List String) : IO UInt32 := do
  let outcome ←
    CommandLine.run Yaml.library machineFiles programName (arguments.map Text.ofString)
  IO.eprint outcome.errors.asString
  IO.print outcome.output.asString
  match outcome.ending with
  | .answered code => return code.toUInt32
  | .finished code => return code.toUInt32
  | .escaped fault =>
    IO.eprintln fault.message.asString
    return 1
