import NamedSchemas.Digest.Sha256
import NamedSchemas.Extraction.Basic
import NamedSchemas.Shortening
/-!
# Workspaces

A workspace is a registry together with the values that were handed out from it. A renaming changes
the references in those values as well as the references inside registered schemas. A value that was
handed out may be registered, or be part of a schema that is: then it shares its identifier, and the
place in the order in which values were handed out tells which value it is.
-/

namespace NamedSchemas

/-- A registry and the values handed out so far. -/
structure Workspace where
  registry : Registry Nat
  held : List (Linked Nat)

/-- Steps on a workspace: they give a value or a fault, and a fault keeps the changes made before
it. -/
abbrev WorkspaceM := ExceptT Fault (StateM Workspace)

namespace Workspace

def empty (reserved : List Text) : Workspace := ⟨.empty reserved, []⟩

def onRegistry {α : Type} (step : RegistryM Nat α) : WorkspaceM α := do
  let w ← get
  let (result, registry) := step.run.run w.registry
  set { w with registry := registry }
  match result with
  | .ok a => pure a
  | .error fault => throw fault

/-- Shares the identifier of the value that is handed out at this place, unless it is shared
already. -/
def sharing (place : Nat) : Linked Nat → Linked Nat
  | .map entries => .map (entries.map fun entry =>
      match entry with
      | (key, .scalar (.text name)) =>
        if key = .text identifierKey then (key, .ref (.identifier place name))
        else (key, .text name)
      | entry => entry)
  | v => v

/-- Keeps a value among those handed out. -/
def hold (v : Linked Nat) : WorkspaceM (Linked Nat) := do
  let w ← get
  let v := sharing w.held.length v
  set { w with held := w.held ++ [v] }
  pure v

def extract (s : ExtractionSettings) (schema : Linked Nat) (c : Context) :
    WorkspaceM (Linked Nat) := do
  hold (← onRegistry (NamedSchemas.extract s schema c))

def rename (old new : Text) : WorkspaceM Unit := do
  -- what references become is told by the registry before the renaming
  let relink := (← get).registry.relink old new
  onRegistry (RegistryM.rename old new)
  modify fun w => { w with held := w.held.map (Value.relabel relink) }

def renameEach : List (Text × Text) → WorkspaceM Unit
  | [] => pure ()
  | (old, new) :: rest => do
    rename old new
    renameEach rest

def shorten : WorkspaceM (List (Text × Text)) := do
  let plan ← onRegistry (RegistryM.ask Registry.plan)
  renameEach plan
  pure plan

end Workspace

end NamedSchemas
