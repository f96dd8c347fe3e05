import NamedSchemas.Digest.Sha256
import NamedSchemas.Document.Bodies
import NamedSchemas.Extraction.Basic
import NamedSchemas.Shortening
/-!
# Components

The whole transformation of a document: the schemas of its bodies are moved to the named schemas
among its components, and each is replaced by a reference. Named schemas that are there already
stay, and their names are not used again.

Documents are trees here. What happens to lists and maps that stand in several places is the matter
of `extractShared`, which does the same as this on documents without such values.
-/

namespace NamedSchemas

/-- What the caller of an extraction may choose. -/
structure ExtractionOptions where
  mediaType : Text
  /-- Are components given their name as their identifier? -/
  assignIds : Bool
  /-- Are shared schemas renamed after their shallowest usage? -/
  shortenNames : Bool

/-- The usual choice: JSON bodies, with identifiers and short names. -/
def ExtractionOptions.usual : ExtractionOptions := ⟨jsonMediaType, true, true⟩

structure Extraction where
  /-- The document with its bodies replaced and its components added. -/
  document : Document
  created : List Text
  /-- The renamings, as pairs of old and new name. -/
  renamed : List (Text × Text)
  /-- Where each added component is used. -/
  usages : Table Text (List Context)

/-- The map under a key, which is empty when the key is missing or null. -/
def subMap (key : Text) (fault : Fault) (entries : Entries (Link Empty)) :
    Except Fault (Entries (Link Empty)) :=
  match Entries.get? key entries with
  | none => .ok []
  | some (.scalar .null) => .ok []
  | some (.map inner) => .ok inner
  | some _ => .error fault

/-- The parts of a document that matter: its entries, its components and its named schemas. -/
structure Parts where
  entries : Entries (Link Empty)
  components : Entries (Link Empty)
  schemas : Entries (Link Empty)

def Parts.of : Linked Empty → Except Fault Parts
  | .map entries => do
    let components ← subMap "components" .componentsNotObject entries
    let schemas ← subMap "schemas" .schemasNotObject components
    pure ⟨entries, components, schemas⟩
  | _ => .error .documentNotObject

/-- The document with its named schemas put where they belong; a missing map is added. -/
def Parts.document (p : Parts) : Linked Empty :=
  .map (Entries.insert "components" (.map (Entries.insert "schemas" (.map p.schemas) p.components))
    p.entries)

def Parts.names (p : Parts) : List Text := p.schemas.filterMap fun entry => entry.1.text?

def addSchemas (added : List (Text × Linked Empty)) (document : Linked Empty) :
    Except Fault (Linked Empty) := do
  let parts ← Parts.of document
  let schemas := added.foldl (fun entries pair => Entries.insert (.text pair.1) pair.2 entries)
    parts.schemas
  pure { parts with schemas := schemas }.document

/-- The steps of an extraction on a document that has its maps in place: the bodies, then the
renamings. Gives the document with references, the names as first given and the renamings. -/
def extractBodies (digest : Text → Text) (options : ExtractionOptions) (document : Linked Empty) :
    RegistryM Empty (Linked Empty × List Text × List (Text × Text)) := do
  let visited ← document.bodiesM id options.mediaType fun schema place => do
    extract ⟨digest, options.assignIds⟩ schema (← RegistryM.ask fun _ => place.context)
  let created := (← get).schemas.keys
  let plan ← if options.shortenNames then shorten else pure []
  pure (visited.renameAll plan, created, plan)

/-- Extracts the schemas of a document, with a digest of one's own choice. -/
def extractWith (digest : Text → Text) (options : ExtractionOptions) (document : Document) :
    Except Fault Extraction := do
  let parts ← Parts.of (Value.ofDocument document)
  match (extractBodies digest options parts.document).run.run (.empty parts.names) with
  | (.ok (visited, created, plan), registry) =>
    let complete ← addSchemas registry.schemas.entries visited
    pure ⟨complete.written, created, plan, registry.usages⟩
  | (.error fault, _) => .error fault

def extractComponents (options : ExtractionOptions) (document : Document) :
    Except Fault Extraction :=
  extractWith Sha256.hex options document

end NamedSchemas
