import NamedSchemas.Extraction.Basic
import NamedSchemas.Shared.Graph
import NamedSchemas.Shortening
/-!
# Extraction from shared values

A schema is read as its tree, but what stays of it stays shared: a component is a new map with the
values of the schema in it, and not a copy of them. The registry keeps the trees by which schemas
are recognised; what the components hold is kept beside it. A schema without a tree cannot become a
component. A way inwards that does not end is a fault, but no limit is set to one that does.
-/

namespace NamedSchemas

/-- A value of a document under extraction. -/
abbrev SharedValue := Value (Position (Link Empty))

structure SharedState where
  /-- The registry, in which schemas are as they were when they were registered. -/
  registry : Registry Empty
  shared : Sharing (Link Empty)
  /-- What the registered schemas hold. -/
  components : Table Text SharedValue

/-- What keeps an extraction from a document with shared values from its result. -/
inductive SharedFault where
  /-- What can keep the extraction from a tree from it as well. -/
  | ofTree (fault : Fault)
  /-- A schema contains itself as a property or an item, and the way inwards does not end. -/
  | endless
  /-- A schema that is to become a component contains itself in another part. -/
  | circular
  deriving DecidableEq

def SharedFault.message : SharedFault → Text
  | .ofTree fault => fault.message
  | .endless => "maximum recursion depth exceeded"
  | .circular => "Circular reference detected"

abbrev SharedM := ExceptT SharedFault (StateM SharedState)

namespace Shared

def onRegistry {α : Type} (step : RegistryM Empty α) : SharedM α := do
  let w ← get
  let (result, registry) := step.run.run w.registry
  set { w with registry := registry }
  match result with
  | .ok a => pure a
  | .error fault => throw (.ofTree fault)

/-- Keeps what a component holds, if it was not among the known ones and is one now. -/
def keepNew (known : List Text) (name : Text) (schema : SharedValue) (w : SharedState) :
    SharedState :=
  if name ∈ w.registry.schemas.keys ∧ name ∉ known then
    { w with components := w.components.insert name schema }
  else w

def hoist (s : ExtractionSettings) (entries : Entries (Position (Link Empty))) (c : Context) :
    SharedM SharedValue := do
  let w ← get
  if w.shared.isFinite (.map entries) then
    match ← onRegistry (NamedSchemas.hoist s (Value.substEntries w.shared.meaning entries) c) with
    | .ref (.component name) =>
      let stored :=
        if s.assignIds then Entries.insert (.text identifierKey) (.text name) entries else entries
      modify (keepNew w.registry.schemas.keys name (.map stored))
      pure (.ref (.own (.component name)))
    | v => pure (v.relabel .own)
  else throw .circular

/-- The map that a value is gone through as: a shared one, or the one that a reference reads as. -/
def opened (shared : Sharing (Link Empty)) : SharedValue → SharedValue
  | .ref (.own link) => .ofDocument link.written
  | v => shared.resolve v

def visitEntries (visit : Scalar → SharedValue → SharedM SharedValue)
    (entries : Entries (Position (Link Empty))) : SharedM (Entries (Position (Link Empty))) :=
  entries.mapM fun entry => do pure (entry.1, ← visit entry.1 entry.2)

def visitAt (key : Text) (visit : SharedValue → SharedM SharedValue) :
    Entries (Position (Link Empty)) → SharedM (Entries (Position (Link Empty))) :=
  visitEntries fun k value => if k = .text key then visit value else pure value

/-- Visits the values of a map, which makes a new one of it. -/
def visitEach (shared : Sharing (Link Empty)) (visit : Scalar → SharedValue → SharedM SharedValue)
    (v : SharedValue) : SharedM SharedValue :=
  match opened shared v with
  | .map entries => .map <$> visitEntries visit entries
  | _ => pure v

/-- Gives what takes the place of a schema, or nothing when the schema stays where it is. The
schemas inside it are extracted to a depth. -/
def extract (s : ExtractionSettings) (shared : Sharing (Link Empty)) :
    Nat → SharedValue → Context → SharedM (Option SharedValue)
  | 0, _, _ => throw .endless
  | depth + 1, v, c => do
    let inside (v : SharedValue) (segment : Document) : SharedM SharedValue := do
      pure ((← extract s shared depth v (c.child segment)).getD v)
    match shared.resolve v with
    | .map entries =>
      let read := Value.substEntries shared.meaning entries
      if Entries.isReference read then pure none
      else match SchemaKind.of read with
        | .object => do
          let entries ← visitAt propertiesKey
            (visitEach shared fun key property => inside property (.scalar key)) entries
          some <$> hoist s entries c
        | .array =>
          if (Entries.get? "items" read).any Value.isMapping then do
            pure (some (.map (← visitAt "items" (inside · (.text itemSegment)) entries)))
          else some <$> hoist s entries c
        | .other => if Entries.contains "enum" read then some <$> hoist s entries c else pure none
        | .untyped => some <$> hoist s entries c
    | _ => pure none

/-- Renames a schema: in the registry, in what the components hold and in what is shared. -/
def rename (old new : Text) : SharedM Unit := do
  onRegistry (RegistryM.rename old new)
  let repointed (v : SharedValue) : SharedValue := v.relabel (.map (.rename old new none))
  modify fun w =>
    let moved := match w.components.get? old with
      | some schema => (w.components.erase old).insert new (schema.renameId old new)
      | none => w.components
    { w with
      components := moved.mapValues fun _ v => repointed v
      shared := w.shared.map repointed }

def renameEach : List (Text × Text) → SharedM Unit
  | [] => pure ()
  | (old, new) :: rest => do
    rename old new
    renameEach rest

def shorten : SharedM (List (Text × Text)) := do
  let plan ← onRegistry (RegistryM.ask Registry.plan)
  renameEach plan
  pure plan

end Shared

end NamedSchemas
