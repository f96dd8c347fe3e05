import NamedSchemas.Fault
/-!
# Bodies

The schemas of the response and request bodies of an interface document, in order: for every
operation under `paths` the responses, then the request body. Visiting a body puts another value in
its place and leaves all else as it is. That is so for trees; in a graph the new value stands in all
places of the media object around it.
-/

namespace NamedSchemas

/-- The media type whose schemas are visited unless another is asked for. -/
def jsonMediaType : Text := "application/json"

/-- The keys of a path item that hold operations. -/
def methodNames : List Text :=
  ["get", "put", "post", "delete", "options", "head", "patch", "trace"].map Text.ofString

def methodOf? (key : Scalar) : Option Text :=
  match key with
  | .text t => if t ∈ methodNames then some t else none
  | _ => none

inductive BodyRole where
  | response (status : Scalar)
  | request

/-- Where a body stands in a document. -/
structure BodyPlace where
  path : Scalar
  operationId : Option Text
  role : BodyRole

/-- The status of a response as text. An integer with too many digits has none. -/
def statusText : Scalar → Except Fault Text
  | .int i =>
    match Json.writeInt i with
    | .ok cs => .ok (Text.ofChars cs)
    | .error fault => .error (.unwritable fault)
  | s => .ok s.display

def BodyPlace.context (p : BodyPlace) : Except Fault Context :=
  match p.role with
  | .response status => do
    pure ⟨[.scalar p.path], p.operationId, some (.text (← statusText status)), false⟩
  | .request => pure ⟨[.scalar p.path], p.operationId, none, true⟩

namespace Value

variable {ρ : Type} {m : Type → Type} [Monad m]

def eachEntryM (visit : Scalar → Value ρ → m (Value ρ)) : Value ρ → m (Value ρ)
  | .map entries => do
    pure (.map (← entries.mapM fun entry => do pure (entry.1, ← visit entry.1 entry.2)))
  | v => pure v

/-- Visits the value under a text key of a map. -/
def atKeyM (key : Text) (visit : Value ρ → m (Value ρ)) (v : Value ρ) : m (Value ρ) :=
  v.eachEntryM fun k value => if k = .text key then visit value else pure value

def operationId? : Value ρ → Option Text
  | .map entries => (Entries.get? "operationId" entries).bind Value.text?
  | _ => none

section Bodies

-- how the visits get from a position to what stands there: `id` where values stand at one position
variable (enter : (Value ρ → m (Value ρ)) → Value ρ → m (Value ρ))

/-- Visits the schema that a response or a request body has for a media type. -/
def mediaSchemaM (mediaType : Text) (visit : Value ρ → m (Value ρ)) : Value ρ → m (Value ρ) :=
  enter (atKeyM "content" (enter (atKeyM mediaType (enter (atKeyM "schema" visit)))))

/-- Visits the bodies of one operation: its responses, then its request body. -/
def operationBodiesM (mediaType : Text) (visit : Value ρ → BodyPlace → m (Value ρ))
    (path : Scalar) : Value ρ → m (Value ρ) :=
  enter fun operation => do
    let operationId := operation.operationId?
    let operation ← operation.atKeyM "responses" (enter (eachEntryM fun status =>
      mediaSchemaM enter mediaType fun schema => visit schema ⟨path, operationId, .response status⟩))
    operation.atKeyM "requestBody" (mediaSchemaM enter mediaType fun schema =>
      visit schema ⟨path, operationId, .request⟩)

def bodiesM (mediaType : Text) (visit : Value ρ → BodyPlace → m (Value ρ)) (document : Value ρ) :
    m (Value ρ) :=
  document.atKeyM "paths" (enter (eachEntryM fun path => enter (eachEntryM fun key operation =>
    if (methodOf? key).isSome then operationBodiesM enter mediaType visit path operation
    else pure operation)))

end Bodies

end Value

end NamedSchemas
