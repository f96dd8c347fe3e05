import NamedSchemas.Extraction.Kind
import NamedSchemas.Registry.Basic
/-!
# Extraction

Schemas are moved into the registry from the inside out. The properties of an object come before the
object, so when a schema is recognised by its canonical text, the schemas inside it are references
already: two schemas are one component when their properties refer to the same components. What is
moved or rebuilt is a copy, which has an identifier of its own.
-/

namespace NamedSchemas

/-- What an extraction depends on besides the schema. -/
structure ExtractionSettings where
  /-- The digest under which a canonical text is looked up. -/
  digest : Text → Text
  /-- Are components given their name as their identifier? -/
  assignIds : Bool

def propertiesKey : Text := "properties"

/-- The context segment of the items of an array. -/
def itemSegment : Text := "array-item"

variable {σ : Type}

/-- The canonical text of a schema, its references written out. -/
def canonicalText (v : Linked σ) : Except Fault Text :=
  match Json.canonical v.written with
  | .ok cs => .ok (Text.ofChars cs)
  | .error fault => .error (.unwritable fault)

def contextName (c : Context) : RegistryM σ Text :=
  RegistryM.ask fun _ =>
    match c.name with
    | .ok name => .ok name
    | .error fault => .error (.segment fault)

/-- Moves a schema with these entries into the registry, or recognises it there, and gives the
reference to it. -/
def hoist (s : ExtractionSettings) (entries : Entries (Link σ)) (c : Context) :
    RegistryM σ (Linked σ) := do
  let canonical ← RegistryM.ask fun _ => canonicalText (.map entries)
  let digest := s.digest canonical
  match ← RegistryM.ask fun r => r.lookup digest canonical with
  | some name =>
    RegistryM.update fun r => r.recordUsage name c
    RegistryM.reference name
  | none =>
    let name ← contextName c
    let copy := Entries.copied entries
    let schema :=
      if s.assignIds then Entries.insert (.text identifierKey) (.text name) copy else copy
    RegistryM.update fun r => r.register name (.map schema) digest canonical c
    RegistryM.reference name

mutual

/-- Gives what stays in the place of a schema: the schema itself when it stays inline, otherwise a
reference to the component that holds it. -/
def extract (s : ExtractionSettings) : Linked σ → Context → RegistryM σ (Linked σ)
  | .map entries, c =>
    if Entries.isReference entries then pure (.map entries)
    else match SchemaKind.of entries with
      -- the properties come first, so that equal objects have equal references in them
      | .object => do hoist s (← extractProperties s entries c) c
      | .array =>
        -- an array stays where its items are a schema, which is then extracted instead
        if (Entries.get? "items" entries).any Value.isMapping then do
          pure (.map (Entries.copied (← extractItems s entries c)))
        else hoist s entries c
      | .other =>
        if Entries.contains "enum" entries then hoist s entries c else pure (.map entries)
      | .untyped => hoist s entries c
  | v, _ => pure v

def extractProperties (s : ExtractionSettings) :
    Entries (Link σ) → Context → RegistryM σ (Entries (Link σ))
  | [], _ => pure []
  | (key, .map properties) :: rest, c => do
    let properties ←
      if key = .text propertiesKey then Entries.copied <$> extractEach s properties c
      else pure properties
    pure ((key, .map properties) :: (← extractProperties s rest c))
  | (key, .ref link) :: rest, c => do
    -- a reference is gone through as the map that it reads as, and is one no longer
    let value := if key = .text propertiesKey then Value.ofDocument link.written else .ref link
    pure ((key, value) :: (← extractProperties s rest c))
  | entry :: rest, c => do pure (entry :: (← extractProperties s rest c))

def extractEach (s : ExtractionSettings) :
    Entries (Link σ) → Context → RegistryM σ (Entries (Link σ))
  | [], _ => pure []
  | (key, value) :: rest, c => do
    let value ← extract s value (c.child (.scalar key))
    pure ((key, value) :: (← extractEach s rest c))

def extractItems (s : ExtractionSettings) :
    Entries (Link σ) → Context → RegistryM σ (Entries (Link σ))
  | [], _ => pure []
  | (key, value) :: rest, c => do
    let value ←
      if key = .text (Text.ofString "items") then extract s value (c.child (.text itemSegment))
      else pure value
    pure ((key, value) :: (← extractItems s rest c))

end

end NamedSchemas
