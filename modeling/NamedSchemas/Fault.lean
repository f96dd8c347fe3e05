import NamedSchemas.Json.Writer
import NamedSchemas.Naming.Context
import NamedSchemas.Text.Utf8
/-!
# Faults of an extraction

What can keep schemas from being named and moved, each with its wording.
-/

namespace NamedSchemas

/-- What keeps an extraction from its result. -/
inductive Fault where
  /-- A schema was given a name that another schema has. -/
  | nameTaken (name : Text) (operation : Option Text) (path : Text)
  | renameTaken (old new : Text)
  /-- A schema was recognised that has no list of usages. -/
  | noUsages (name : Text)
  /-- A digest was recognised that has no text. -/
  | noCanonical (digest : Text)
  /-- Different schemas have the same digest. -/
  | sharedDigest (digest name : Text)
  | notRegistered (name : Text)
  /-- A schema was to be renamed that is no map. -/
  | notMap (kind : String)
  /-- A text has no digest, because it cannot be encoded. -/
  | unencodable (fault : Utf8.EncodeFault)
  /-- A path holds a segment that is not text. -/
  | segment (fault : SegmentFault)
  /-- A schema has no JSON text. -/
  | unwritable (fault : Json.WriteFault)
  | documentNotObject
  | componentsNotObject
  | schemasNotObject
  deriving DecidableEq

namespace Fault

/-- An optional text as a literal. -/
def literal : Option Text → Text
  | some t => t.quoted
  | none => "None"

def message : Fault → Text
  | .nameTaken name operation path =>
    Text.ofString "Conflict in schema names: " ++ name.quoted ++
      Text.ofString " is already registered for a different schema (operation " ++
      literal operation ++ Text.ofString ", path " ++ path.quoted ++ Text.ofString ")."
  | .renameTaken old new =>
    Text.ofString "Conflict in schema names: cannot rename " ++ old.quoted ++
      Text.ofString " to " ++ new.quoted ++
      Text.ofString ", which is already used by another schema."
  | .noUsages name =>
    Text.ofString "Schema " ++ name.quoted ++
      Text.ofString " was matched by fingerprint but has no recorded usages."
  | .noCanonical digest => digest
  | .sharedDigest digest name =>
    Text.ofString "Fingerprint " ++ digest ++
      Text.ofString " is shared by schemas that are not equal (registered as " ++ name.quoted ++
      Text.ofString ")."
  | .notRegistered name =>
    Text.ofString "Schema " ++ name.quoted ++ Text.ofString " is not registered."
  | .notMap kind => Text.ofString ("'" ++ kind ++ "' object has no attribute 'get'")
  | .unencodable fault => fault.message
  | .segment fault => fault.message
  | .unwritable fault => fault.message
  | .documentNotObject => "OpenAPI document must be an object at the top level."
  | .componentsNotObject =>
    "Top-level 'components' exists but is not an object; cannot add schemas."
  | .schemasNotObject => "components.schemas exists but is not an object; cannot add schemas."

end Fault

end NamedSchemas
