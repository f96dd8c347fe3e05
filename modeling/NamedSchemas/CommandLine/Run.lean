import NamedSchemas.CommandLine.Usage
import NamedSchemas.Shared.Document
import NamedSchemas.Storage.Documents
/-!
# Running the command line

A run reads one document, extracts its schemas and writes the result to one place: a file or the
standard output. The result is complete before anything is written.
-/

namespace NamedSchemas.CommandLine

/-- A fault that ends the program without an exit code of its own. -/
inductive Escape where
  /-- The result has no text in the format that was asked for. -/
  | unwritable (fault : DumpFault)
  /-- The name of the document cannot be looked up, or the output file cannot be written. -/
  | file (fault : FileFault)
  deriving DecidableEq

def Escape.message : Escape → Text
  | .unwritable fault => fault.message
  | .file fault => fault.message

/-- How a run ends. -/
inductive Ending where
  /-- The arguments ask for help or are refused. -/
  | answered (code : Nat)
  /-- The run comes to its end. -/
  | finished (code : Nat)
  | escaped (fault : Escape)
  deriving DecidableEq

structure Outcome where
  output : Text
  errors : Text
  ending : Ending

def Outcome.failed (code : Nat) (message : Text) : Outcome :=
  ⟨[], Text.ofString "error: " ++ message ++ Text.ofString "\n", .finished code⟩

inductive DocumentFault where
  | load (fault : LoadFault)
  | extraction (fault : SharedFault)
  deriving DecidableEq

def DocumentFault.message : DocumentFault → Text
  | .load fault => fault.message
  | .extraction fault => fault.message

def resultOf (r : Request) (loaded : Except LoadFault (Graph Empty)) :
    Except DocumentFault SharedExtraction :=
  match loaded with
  | .error fault => .error (.load fault)
  | .ok document =>
    (extractShared ⟨r.mediaType, r.assignIds, r.shortenNames⟩ document).mapError .extraction

def count (n : Nat) : Text := Text.ofChars (Numeral.natural n)

/-- The report on a result: its components, its renamings and how many of each. -/
def report (e : SharedExtraction) : Text :=
  let created := e.created.flatMap fun name =>
    Text.ofString "extracted: " ++ name ++ Text.ofString "\n"
  let renamed := e.renamed.flatMap fun pair =>
    Text.ofString "renamed: " ++ pair.1 ++ Text.ofString " -> " ++ pair.2 ++ Text.ofString "\n"
  let shared := e.usages.entries.countP fun entry => 1 < entry.2.length
  created ++ renamed ++ count e.created.length ++ Text.ofString " schema(s) extracted, " ++
    count shared ++ Text.ofString " shared, " ++ count e.renamed.length ++
    Text.ofString " renamed.\n"

def contentOf (yaml : YamlLibrary) (r : Request) (entrypoint : Path) (e : SharedExtraction) :
    Except DumpFault (List Char) :=
  dump yaml (r.format.getD (Format.ofPath entrypoint)) r.pretty e.document

/-- The name of the document to read: the option counts before the argument without one, and an
empty name counts as none. -/
def Request.source (r : Request) : Option Text :=
  [r.entrypoint, r.positional].findSome? fun name => name.filter fun t => !t.isEmpty

/-- The name of the file to write; an empty name counts as none. -/
def Request.target (r : Request) : Option Text := r.output.filter fun t => !t.isEmpty

variable {m : Type → Type} [Monad m]

/-- Writes the complete text to the one place where it belongs. -/
def deliver (files : FileAccess m) (target : Option Text) (errors : Text) (content : List Char) :
    m Outcome := do
  match target with
  | none => pure ⟨Text.ofChars content, errors, .finished 0⟩
  | some name =>
    match ← files.write (Path.ofText name) (Utf8.encode content) with
    | .ok () => pure ⟨[], errors, .finished 0⟩
    | .error fault => pure ⟨[], errors, .escaped (.file fault)⟩

def Request.run (yaml : YamlLibrary) (files : FileAccess m) (r : Request) : m Outcome := do
  match r.source with
  | none =>
    pure (.failed 2 "missing entrypoint (provide a positional entrypoint or --entrypoint).")
  | some name =>
    let entrypoint := Path.ofText name
    match ← files.present entrypoint with
    | .error fault => pure ⟨[], [], .escaped (.file fault)⟩
    | .ok false =>
      pure (.failed 2 (Text.ofString "entrypoint does not exist: " ++ entrypoint.text))
    | .ok true =>
      match resultOf r (← loadDocument yaml files entrypoint) with
      | .error fault => pure (.failed 1 fault.message)
      | .ok e =>
        let errors := if r.verbose then report e else []
        match contentOf yaml r entrypoint e with
        | .error fault => pure ⟨[], errors, .escaped (.unwritable fault)⟩
        | .ok content => deliver files r.target errors content

def run (yaml : YamlLibrary) (files : FileAccess m) (program : Text) (arguments : List Text) :
    m Outcome :=
  match Command.ofArguments arguments with
  | .error fault => pure ⟨[], refusal program fault, .answered 2⟩
  | .ok .help => pure ⟨help program, [], .answered 0⟩
  | .ok (.run r) => r.run yaml files

end NamedSchemas.CommandLine
