import NamedSchemas.Storage.Path
import NamedSchemas.Table
import NamedSchemas.Text.Quoted
import NamedSchemas.Text.Utf8
/-!
# Files

What can be asked of the place where files are kept, and a tree of files and directories that
answers without a disk.
-/

namespace NamedSchemas

inductive FileFault where
  | notFound (path : Path)
  | notDirectory (path : Path)
  | isDirectory (path : Path)
  /-- The path or one of its components is too long. -/
  | nameTooLong (path : Path)
  /-- The path holds a character that no file name can hold. -/
  | nullCharacter
  /-- The path cannot be encoded. -/
  | unencodable (fault : Utf8.EncodeFault)
  /-- Another answer of the place where files are kept. -/
  | other (description : Text)
  deriving DecidableEq

def FileFault.message : FileFault → Text
  | .notFound path => Text.ofString "[Errno 2] No such file or directory: " ++ path.text.quoted
  | .notDirectory path => Text.ofString "[Errno 20] Not a directory: " ++ path.text.quoted
  | .isDirectory path => Text.ofString "[Errno 21] Is a directory: " ++ path.text.quoted
  | .nameTooLong path => Text.ofString "[Errno 36] File name too long: " ++ path.text.quoted
  | .nullCharacter => "embedded null byte"
  | .unencodable fault => fault.message
  | .other description => description

/-- The place where files are kept, seen from a program that runs in `m`. -/
structure FileAccess (m : Type → Type) where
  /-- Is there a file or a directory with this name? -/
  present : Path → m (Except FileFault Bool)
  read : Path → m (Except FileFault (List UInt8))
  /-- Makes the octets the content of a file, which is created when it is not there. -/
  write : Path → List UInt8 → m (Except FileFault Unit)

/-- Files and directories below a current directory, named by their components. -/
structure FileTree where
  /-- The directories, without the current one. -/
  directories : List (List Text)
  files : Table (List Text) (List UInt8)

namespace FileTree

/-- Where a path leads: to a place below the current directory, to a directory above it, or to a
place that is named from the root on. -/
inductive Place where
  | below (parts : List Text)
  | above
  | fromRoot (parts : List Text)
  deriving DecidableEq

/-- The directories below the root that are always there. -/
def rootDirectories : List (List Text) :=
  ["bin", "dev", "etc", "home", "lib", "opt", "proc", "root", "run", "sbin", "srv", "sys", "tmp",
    "usr", "var"].map fun name => [Text.ofString name]

/-- The file that is always empty and takes everything. -/
def nullDevice : Place := .fromRoot ["dev", "null"]

def isDirectory (t : FileTree) : Place → Bool
  | .below parts => parts.isEmpty || parts ∈ t.directories
  | .above => true
  | .fromRoot parts => parts.isEmpty || parts ∈ rootDirectories

def content? (t : FileTree) (place : Place) : Option (List UInt8) :=
  match place with
  | .below parts => t.files.get? parts
  | place => if place = nullDevice then some [] else none

/-- Puts a file at a place. The null device stays as it is, and nothing is put outside the current
directory. -/
def put (t : FileTree) (content : List UInt8) (place : Place) : Option FileTree :=
  match place with
  | .below parts => some { t with files := t.files.insert parts content }
  | place => if place = nullDevice then some t else none

/-- One component further from a directory; what lies above the current directory is not known apart
from the directories that lead there. -/
def step : Place → Text → Option Place
  | .below parts, part =>
    if part = Text.ofString ".." then
      if parts.isEmpty then some .above else some (.below parts.dropLast)
    else some (.below (parts ++ [part]))
  | .above, part => if part = Text.ofString ".." then some .above else none
  | .fromRoot parts, part =>
    some (.fromRoot (if part = Text.ofString ".." then parts.dropLast else parts ++ [part]))

/-- How many octets a component may have. -/
def componentLimit : Nat := 255

/-- How many octets a path has to be shorter than. -/
def pathLimit : Nat := 4096

/-- Follows the components of a path; all but the last must lead to directories. -/
def follow (t : FileTree) (path : Path) : Place → List Text → Except FileFault Place
  | place, [] => .ok place
  | place, part :: rest =>
    if t.isDirectory place then
      if componentLimit < Path.octetCount part then .error (.nameTooLong path)
      else match step place part with
        | some next => follow t path next rest
        | none => .error (.notFound path)
    else if (t.content? place).isSome then .error (.notDirectory path)
    else .error (.notFound path)

def resolve (t : FileTree) (path : Path) : Except FileFault Place :=
  match Utf8.encodeFault? Path.hasNoOctets path.text with
  | some fault => .error (.unencodable fault)
  | none =>
    if path.text.any fun c => c.toNat = 0 then .error .nullCharacter
    else if pathLimit ≤ Path.octetCount path.text then .error (.nameTooLong path)
    else t.follow path (if path.root.isEmpty then .below [] else .fromRoot []) path.parts

/-- Is there a file or a directory with this name? Only of a name that is too long this cannot be
told. -/
def present (t : FileTree) (path : Path) : Except FileFault Bool :=
  match t.resolve path with
  | .ok place => .ok (t.isDirectory place || (t.content? place).isSome)
  | .error (.nameTooLong path) => .error (.nameTooLong path)
  | .error _ => .ok false

def read (t : FileTree) (path : Path) : Except FileFault (List UInt8) :=
  match t.resolve path with
  | .error fault => .error fault
  | .ok place =>
    if t.isDirectory place then .error (.isDirectory path)
    else match t.content? place with
      | some content => .ok content
      | none => .error (.notFound path)

def write (t : FileTree) (path : Path) (content : List UInt8) : Except FileFault FileTree :=
  match t.resolve path with
  | .error fault => .error fault
  | .ok place =>
    if t.isDirectory place then .error (.isDirectory path)
    else match t.put content place with
      | some t => .ok t
      | none => .error (.notFound path)

/-- Access to a tree that the program carries along. -/
def access : FileAccess (StateM FileTree) where
  present path := do pure ((← get).present path)
  read path := do pure ((← get).read path)
  write path content := do
    match (← get).write path content with
    | .ok t => set t; pure (.ok ())
    | .error fault => pure (.error fault)

end FileTree

end NamedSchemas
