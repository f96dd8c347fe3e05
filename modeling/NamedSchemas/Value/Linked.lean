import NamedSchemas.Naming.Name
/-!
# Linked values

A linked value refers to components. The reference is labelled with the name of its component, so a
component is renamed by giving every reference to it the new label. In the same way the identifier
of a schema that is held outside the registry is labelled with that schema: several values may share
it, and when it is given a new identifier, all of them show it.
-/

namespace NamedSchemas

/-- What a reference in a linked value stands for; `σ` are the schemas that are held outside the
registry. -/
inductive Link (σ : Type) where
  | component (name : Text)
  /-- The identifier of a held schema. -/
  | identifier (schema : σ) (name : Text)
  deriving DecidableEq

/-- A value that refers to components by name. -/
abbrev Linked (σ : Type) := Value (Link σ)

/-- The name that a name becomes when `old` is renamed to `new`. -/
def renamed (old new name : Text) : Text := if name = old then new else name

variable {σ : Type}

namespace Link

/-- The document that a reference is written as: an address, or an identifier. -/
def written : Link σ → Document
  | .component name => .map [("$ref", .text (componentAddress name))]
  | .identifier _ name => .text name

def mapName (f : Text → Text) : Link σ → Link σ
  | .component name => .component (f name)
  | .identifier schema name => .identifier schema name

/-- What a reference becomes when `old` is renamed to `new`; `named` is the held schema that has its
identifier changed by it. -/
def rename [DecidableEq σ] (old new : Text) (named : Option σ) : Link σ → Link σ
  | .component name => .component (renamed old new name)
  | .identifier schema name => .identifier schema (if named = some schema then new else name)

/-- What a copy of a map holds in the place of a reference: its identifier is its own, and so it is
a text again. -/
def copied : Link σ → Linked σ
  | .component name => .ref (.component name)
  | .identifier _ name => .text name

end Link

def Value.written (v : Linked σ) : Document := v.subst Link.written

/-- Is the value a map? A reference to a component stands for one. -/
def Value.isMapping : Linked σ → Bool
  | .map _ => true
  | .ref (.component _) => true
  | _ => false

/-- The entries of a copy of a map. -/
def Entries.copied (entries : Entries (Link σ)) : Entries (Link σ) :=
  entries.map fun entry =>
    match entry with
    | (key, .ref link) => (key, link.copied)
    | entry => entry

def identifierKey : Text := "$id"

/-- The held schema that a value is, if its identifier is the given name. -/
def Value.heldAs? (name : Text) : Linked σ → Option σ
  | .map entries =>
    match Entries.get? identifierKey entries with
    | some (.ref (.identifier schema identifier)) => if identifier = name then some schema else none
    | _ => none
  | _ => none

/-- Gives a value that names itself `old` the name `new`. -/
def Value.renameId {ρ : Type} (old new : Text) : Value ρ → Value ρ
  | .map entries =>
    if (Entries.get? identifierKey entries).bind Value.text? = some old then
      .map (Entries.insert (.text identifierKey) (.text new) entries)
    else .map entries
  | v => v

end NamedSchemas
