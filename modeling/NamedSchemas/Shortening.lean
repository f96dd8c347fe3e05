import NamedSchemas.Registry.Basic
/-!
# Shortening

A schema that was used in several places is renamed after the shallowest of them, the first of
equally shallow ones. All renamings are planned and checked before the first is made.
-/

namespace NamedSchemas

/-- The first of the shallowest of a usage and further ones. -/
def shallowest (first : Context) (rest : List Context) : Context :=
  -- only a strictly shallower one takes the place of the one found first
  rest.foldl (fun best c => if c.depth < best.depth then c else best) first

/-- The name that a schema with these usages is due, when it was used in several places. -/
def dueName : List Context → Except Fault (Option Text)
  | first :: second :: rest =>
    match (shallowest first (second :: rest)).name with
    | .ok name => .ok (some name)
    | .error fault => .error (.segment fault)
  | _ => .ok none

/-- Plans the renamings of the schemas with these usages; `taken` are the names in use. -/
def planFrom (taken : List Text) :
    List (Text × List Context) → Except Fault (List (Text × Text))
  | [] => .ok []
  | (name, contexts) :: rest =>
    match dueName contexts with
    | .error fault => .error fault
    | .ok none => planFrom taken rest
    | .ok (some new) =>
      if new = name then planFrom taken rest
      else if new ∈ taken then .error (.renameTaken name new)
      else ((name, new) :: ·) <$> planFrom (new :: taken.filter (· ≠ name)) rest

/-- The renamings that are due, as pairs of old and new name, in the order of the usages. -/
def Registry.plan {σ : Type} (r : Registry σ) : Except Fault (List (Text × Text)) :=
  planFrom (r.schemas.keys ++ r.reserved) r.usages.entries

variable {σ : Type} [DecidableEq σ]

def renameAll : List (Text × Text) → RegistryM σ Unit
  | [] => pure ()
  | (old, new) :: rest => do
    RegistryM.rename old new
    renameAll rest

/-- Renames every schema that is due a new name and tells the renamings. -/
def shorten : RegistryM σ (List (Text × Text)) := do
  let plan ← RegistryM.ask Registry.plan
  renameAll plan
  pure plan

/-- The name that a name becomes under renamings that are made one after the other. -/
def renamedBy (plan : List (Text × Text)) (name : Text) : Text :=
  plan.foldl (fun name pair => renamed pair.1 pair.2 name) name

def Value.renameAll {σ : Type} (plan : List (Text × Text)) (v : Linked σ) : Linked σ :=
  v.relabel (.mapName (renamedBy plan))

end NamedSchemas
