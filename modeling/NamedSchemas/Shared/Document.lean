import NamedSchemas.Document.Components
import NamedSchemas.Shared.Extraction
import NamedSchemas.Value.Equality
/-!
# Components of shared documents

The transformation of a document in which values are shared. A body is put back where its media type
stands. When a shared value is on the way to it, that is a place in the shared value, and the body
changes wherever the shared value stands.
-/

namespace NamedSchemas

namespace Shared

def replace (n : Nat) (v : SharedValue) (w : SharedState) : SharedState :=
  let (v, shared) := (Sharing.shareParts v).run w.shared
  { w with shared := shared.set n v }

/-- Visits the value that stands at a position. What becomes of a shared value stands in all its
places. -/
def enter (visit : SharedValue → SharedM SharedValue) : SharedValue → SharedM SharedValue
  | .ref (.shared n) => do
    let found := (← get).shared.value n
    let v ← visit found
    -- what stays was perhaps changed further inside, when it contains itself
    if v ≠ found then modify (replace n v)
    pure (.ref (.shared n))
  | v => visit v

/-- Changes the map under a key, which is made where it is missing or null. -/
def changeMap (key : Text) (change : SharedValue → SharedM SharedValue) :
    SharedValue → SharedM SharedValue
  | .map entries => do
    let v ← match Entries.get? key entries with
      | none => change (.map [])
      | some (.scalar .null) => change (.map [])
      | some v => enter change v
    pure (.map (Entries.insert (.text key) v entries))
  | v => pure v

/-- Puts further schemas among the named schemas of a document. -/
def addSchemas (added : List (Text × SharedValue)) : SharedValue → SharedM SharedValue :=
  changeMap "components" (changeMap "schemas" fun schemas =>
    match schemas with
    | .map entries => pure (.map (added.foldl
        (fun entries pair => Entries.insert (.text pair.1) pair.2 entries) entries))
    | v => pure v)

/-- The steps of an extraction from a document. Gives the document, the names as first given and the
renamings. -/
def extractBodies (digest : Text → Text) (options : ExtractionOptions) (root : SharedValue) :
    SharedM (SharedValue × List Text × List (Text × Text)) := do
  let root ← enter (addSchemas []) root
  let visit (schema : SharedValue) (place : BodyPlace) : SharedM SharedValue := do
    let c ← onRegistry (RegistryM.ask fun _ => place.context)
    let shared := (← get).shared
    let depth := (shared.tree schema).depth + 1
    pure ((← extract ⟨digest, options.assignIds⟩ shared depth schema c).getD schema)
  let visited ← enter (Value.bodiesM enter options.mediaType visit) root
  let created := (← get).registry.schemas.keys
  let plan ← if options.shortenNames then shorten else pure []
  let components := (← get).components.entries
  let root ← enter (addSchemas components) (visited.relabel (.map (.mapName (renamedBy plan))))
  pure (root, created, plan)

/-- A value of a document as one that could refer to components. -/
def linked (v : Value (Position Empty)) : SharedValue := v.relabel (.map Empty.elim)

/-- The value with its references to components written out. -/
def written (v : SharedValue) : Value (Position Empty) :=
  v.subst fun position =>
    match position with
    | .own link => .ofDocument link.written
    | .shared n => .ref (.shared n)

end Shared

/-- What an extraction from a document in which values are shared gives. -/
structure SharedExtraction where
  document : Graph Empty
  created : List Text
  renamed : List (Text × Text)
  usages : Table Text (List Context)

def SharedExtraction.tree (e : SharedExtraction) : Extraction :=
  ⟨e.document.tree, e.created, e.renamed, e.usages⟩

/-- The parts of a document that matter, as far as its keys go. The named schemas are three maps
deep, also in a document that contains itself. -/
def Graph.parts (document : Graph Empty) : Except Fault Parts :=
  Parts.of (.ofDocument (document.root.subst (document.shared.expand (document.shared.length + 3))))

def extractSharedWith (digest : Text → Text) (options : ExtractionOptions)
    (document : Graph Empty) : Except SharedFault SharedExtraction := do
  let parts ← document.parts.mapError SharedFault.ofTree
  let start : SharedState := ⟨.empty parts.names, document.shared.map Shared.linked, ∅⟩
  match (Shared.extractBodies digest options (Shared.linked document.root)).run.run start with
  | (.ok (root, created, plan), w) =>
    .ok ⟨⟨w.shared.map Shared.written, Shared.written root⟩, created, plan, w.registry.usages⟩
  | (.error fault, _) => .error fault

/-- Extracts the schemas of a document in which values are shared. -/
def extractShared (options : ExtractionOptions) (document : Graph Empty) :
    Except SharedFault SharedExtraction :=
  extractSharedWith Sha256.hex options document

end NamedSchemas
