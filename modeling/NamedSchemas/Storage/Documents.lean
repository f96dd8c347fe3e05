import NamedSchemas.Json.Reader
import NamedSchemas.Json.Writer
import NamedSchemas.Shared.Graph
import NamedSchemas.Storage.FileTree
/-!
# Documents in files

A document is read from a file, and written, in the format that the name of the file tells. YAML is
left to a library that the program is given. Whatever keeps a document from being read is one fault
that names the file, unless the library breaks down over the text.
-/

namespace NamedSchemas

/-! ### A library for YAML -/

/-- What a library for YAML gives in the place of a document. -/
inductive YamlFault where
  /-- The text is refused: it is not YAML, or not one document, or no text at all. -/
  | refused (message : Text)
  /-- The library fails in a way that is not meant for texts that it refuses. -/
  | breakdown (message : Text)
  deriving DecidableEq

def YamlFault.message : YamlFault → Text
  | .refused message => message
  | .breakdown message => message

/-- A library that reads and writes YAML as far as plain data goes. -/
structure YamlLibrary where
  /-- The document that the octets of a file denote. Aliases share the value of their anchor. -/
  read : List UInt8 → Except YamlFault (Graph Empty)
  /-- The text of a document, with the keys in their order and all that is not ASCII escaped. On
  request, collections that hold only scalars are written on one line. -/
  write : Bool → Graph Empty → Except Text (List Char)

/-! ### Loading -/

inductive ContentFault where
  | file (fault : FileFault)
  | encoding (fault : Utf8.Fault)
  | json (fault : Json.ReadFault)
  | yaml (fault : YamlFault)
  deriving DecidableEq

def ContentFault.message : ContentFault → Text
  | .file fault => fault.message
  | .encoding fault => fault.message
  | .json fault => fault.message
  | .yaml fault => fault.message

inductive LoadFault where
  | unreadable (path : Path) (cause : ContentFault)
  /-- The value in the file is not a map. -/
  | notObject (path : Path)
  /-- The library for YAML breaks down. This fault does not name the file. -/
  | breakdown (message : Text)
  deriving DecidableEq

def LoadFault.message : LoadFault → Text
  | .unreadable path cause =>
    Text.ofString "Failed to read " ++ path.text ++ Text.ofString ": " ++ cause.message
  | .notObject path => path.text ++ Text.ofString " does not contain an object at the top level."
  | .breakdown message => message

/-- The value of the octets of a file. JSON is decoded as a whole. -/
def readContent (yaml : YamlLibrary) (format : Format) (octets : List UInt8) :
    Except ContentFault (Graph Empty) :=
  match format with
  | .yaml => (yaml.read octets).mapError ContentFault.yaml
  | .json =>
    match Utf8.decode octets with
    | .error fault => .error (.encoding fault)
    | .ok cs =>
      match Json.read (Lines.unified cs) with
      | .error fault => .error (.json fault)
      | .ok d => .ok (.ofDocument d)

def LoadFault.ofContent (path : Path) : ContentFault → LoadFault
  | .yaml (.breakdown message) => .breakdown message
  | cause => .unreadable path cause

/-- The document in a file, from the octets or the fault that reading the file gave. -/
def documentIn (yaml : YamlLibrary) (path : Path) (content : Except FileFault (List UInt8)) :
    Except LoadFault (Graph Empty) :=
  match content with
  | .error fault => .error (.unreadable path (.file fault))
  | .ok octets =>
    match readContent yaml (Format.ofPath path) octets with
    | .error cause => .error (.ofContent path cause)
    | .ok document => if document.isMap then .ok document else .error (.notObject path)

def loadDocument {m : Type → Type} [Monad m] (yaml : YamlLibrary) (files : FileAccess m)
    (path : Path) : m (Except LoadFault (Graph Empty)) := do
  pure (documentIn yaml path (← files.read path))

/-! ### Dumping -/

inductive DumpFault where
  | json (fault : Json.WriteFault)
  /-- The document contains itself, and JSON has no way to write that. -/
  | circular
  | yaml (message : Text)
  deriving DecidableEq

def DumpFault.message : DumpFault → Text
  | .json fault => fault.message
  | .circular => "Circular reference detected"
  | .yaml message => message

/-- The JSON text of a document: indented with a line feed at its end, or on one line without. -/
def jsonText (pretty : Bool) (d : Document) : Except Json.WriteFault (List Char) :=
  if pretty then (Json.pretty d).map (· ++ ['\n']) else Json.compact d

def dump (yaml : YamlLibrary) (format : Format) (pretty : Bool) (document : Graph Empty) :
    Except DumpFault (List Char) :=
  match format with
  | .yaml => (yaml.write (!pretty) document).mapError DumpFault.yaml
  | .json =>
    if document.isFinite then (jsonText pretty document.tree).mapError DumpFault.json
    else .error .circular

end NamedSchemas
