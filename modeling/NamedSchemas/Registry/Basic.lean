import NamedSchemas.Fault
import NamedSchemas.Table
import NamedSchemas.Value.Linked
/-!
# The registry

The registry holds the schemas that were given names, where each was used, what the references to
each read, and under which digest each is recognised.

A reference carries the name that it refers to, and it is recorded when it is handed out. A renaming
changes all that carry the name, wherever they are. In the workspaces that are reached each of them
was recorded under it: `Workspace.Reached.recorded`.
-/

namespace NamedSchemas

variable {σ : Type}

/-- The state of one extraction; `σ` are the schemas that are held outside the registry. -/
structure Registry (σ : Type) where
  /-- Names that are in use outside the registry. -/
  reserved : List Text
  schemas : Table Text (Linked σ)
  /-- Where each schema was used, in order of use. -/
  usages : Table Text (List Context)
  /-- What the references to each name read, in the order in which they were handed out. -/
  references : Table Text (List Text)
  /-- The names by digest. -/
  names : Table Text Text
  /-- The texts by digest: each is the text of which it is the digest. -/
  canonicals : Table Text Text

namespace Registry

def empty (reserved : List Text) : Registry σ := ⟨reserved, ∅, ∅, ∅, ∅, ∅⟩

/-- Is the name in use, in the registry or outside it? -/
def isTaken (r : Registry σ) (name : Text) : Bool := r.schemas.contains name || name ∈ r.reserved

/-- The name of the schema with this digest. A digest that was registered for another text is a
fault, not an answer. -/
def lookup (r : Registry σ) (digest canonical : Text) : Except Fault (Option Text) :=
  match r.names.get? digest with
  | none => .ok none
  | some name =>
    match r.canonicals.get? digest with
    | none => .error (.noCanonical digest)
    | some found =>
      if found = canonical then .ok (some name) else .error (.sharedDigest digest name)

/-- Adds a schema under a name that is not in use, with its first usage. -/
def register (r : Registry σ) (name : Text) (schema : Linked σ) (digest canonical : Text)
    (context : Context) : Except Fault (Registry σ) :=
  if r.isTaken name then
    match context.pathText with
    | .ok path => .error (.nameTaken name context.operationId path)
    | .error fault => .error (.segment fault)
  else .ok { r with
    schemas := r.schemas.insert name schema
    names := r.names.insert digest name
    canonicals := r.canonicals.insert digest canonical
    usages := r.usages.insert name [context] }

def recordUsage (r : Registry σ) (name : Text) (context : Context) : Except Fault (Registry σ) :=
  match r.usages.get? name with
  | some contexts => .ok { r with usages := r.usages.insert name (contexts ++ [context]) }
  | none => .error (.noUsages name)

def addReference (r : Registry σ) (name : Text) : Registry σ :=
  { r with references :=
      r.references.insert name ((r.references.get? name).getD [] ++ [componentAddress name]) }

/-- Gives the first digest that is registered for `old` to `new`. -/
def repoint (old new : Text) : List (Text × Text) → List (Text × Text)
  | [] => []
  | (digest, name) :: rest =>
    if name = old then (digest, new) :: rest else (digest, name) :: repoint old new rest

theorem map_fst_repoint (old new : Text) (entries : List (Text × Text)) :
    (repoint old new entries).map Prod.fst = entries.map Prod.fst := by
  induction entries with
  | nil => rfl
  | cons entry rest ih => simp only [repoint]; split <;> simp [ih]

/-- What becomes of references when `old` is renamed to `new`: those to the schema follow it, and so
does its identifier where it is held, if it was its name. -/
def relink [DecidableEq σ] (r : Registry σ) (old new : Text) : Link σ → Link σ :=
  .rename old new ((r.schemas.get? old).bind (Value.heldAs? old))

/-- Moves a schema to a new name, to the end of the registry, with its usages and with every
reference to it. A schema that has the new name already is replaced. -/
def rename [DecidableEq σ] (r : Registry σ) (old new : Text) : Except Fault (Registry σ) :=
  match r.schemas.get? old with
  | none => .error (.notRegistered old)
  | some schema =>
    if schema.isMapping then
      let moved := (r.schemas.erase old).insert new (schema.renameId old new)
      -- what was handed out for the new name before stays in front
      let references := r.references.erase old
      let readings := ((r.references.get? old).getD []).map fun _ => componentAddress new
      .ok { r with
        schemas := moved.mapValues fun _ v => v.relabel (r.relink old new)
        usages := (r.usages.erase old).insert new ((r.usages.get? old).getD [])
        references := references.insert new ((references.get? new).getD [] ++ readings)
        names := ⟨repoint old new r.names.entries,
          by rw [map_fst_repoint]; exact r.names.nodup⟩ }
    else .error (.notMap schema.kindName)

end Registry

/-- Steps of an extraction: they change the registry and give a value or a fault. A fault keeps
the changes made before it. -/
abbrev RegistryM (σ : Type) := ExceptT Fault (StateM (Registry σ))

namespace RegistryM

def ask {α : Type} (f : Registry σ → Except Fault α) : RegistryM σ α := do
  match f (← get) with
  | .ok a => pure a
  | .error fault => throw fault

/-- A change of the registry that may fail, and then changes nothing. -/
def update (f : Registry σ → Except Fault (Registry σ)) : RegistryM σ Unit := do
  match f (← get) with
  | .ok r => set r
  | .error fault => throw fault

def reference (name : Text) : RegistryM σ (Linked σ) := do
  modify fun r => r.addReference name
  pure (.ref (.component name))

/-- Renames a schema. One that is no map has been taken out when that is noticed. -/
def rename [DecidableEq σ] (old new : Text) : RegistryM σ Unit := do
  let r ← get
  match r.rename old new with
  | .ok r => set r
  | .error (.notMap kind) =>
    set { r with schemas := r.schemas.erase old }
    throw (.notMap kind)
  | .error fault => throw fault

end RegistryM

end NamedSchemas
