import NamedSchemas.Value.Basic
/-!
# Kinds of schemas

What the `type` of a schema says about it. A list of types is read without `null`, so that a
nullable object is an object.
-/

namespace NamedSchemas

/-- What a schema says about its instances. -/
inductive SchemaKind where
  | object
  | array
  /-- Another type, or several types. -/
  | other
  | untyped
  deriving DecidableEq

namespace SchemaKind

def ofName (name : Text) : SchemaKind :=
  if name = Text.ofString "object" then .object
  else if name = Text.ofString "array" then .array
  else .other

variable {ρ : Type}

def isNullName (v : Value ρ) : Bool := v.text? = some (Text.ofString "null")

def of (entries : Entries ρ) : SchemaKind :=
  match Entries.get? "type" entries with
  | some (.scalar (.text name)) => ofName name
  | some (.list items) =>
    match items.filter fun item => !isNullName item with
    | [.scalar (.text name)] => ofName name
    | _ => .other
  | _ => .untyped

end SchemaKind

/-- Is a map with these entries a reference to elsewhere? -/
def Entries.isReference {ρ : Type} (entries : Entries ρ) : Bool :=
  ((Entries.get? "$ref" entries).bind Value.text?).isSome

end NamedSchemas
