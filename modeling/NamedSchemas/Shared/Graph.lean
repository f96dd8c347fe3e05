import NamedSchemas.Value.Linked
/-!
# Graphs

A list or a map may stand in several places of a document, as an anchor of YAML text stands where it
is written and where its aliases are. It is held once and the places refer to it, so that what
changes in it changes in all of them. What it holds may come to stand in further places, and so a
shared value holds no lists and maps but shared ones. The tree of a graph has a copy in every place.
A value that contains itself, as an anchor with an alias inside of it, has no tree.

Scalars are told apart by nothing but what they are. The octets, sets and tuples that tags of YAML
text can ask for are left out.
-/

namespace NamedSchemas

variable {ρ : Type}

/-- What a position refers to: a shared value, or what a label of another kind stands for. -/
inductive Position (ρ : Type) where
  | own (label : ρ)
  | shared (index : Nat)
  deriving DecidableEq

def Position.map {σ : Type} (f : ρ → σ) : Position ρ → Position σ
  | .own label => .own (f label)
  | .shared n => .shared n

/-- Shared values, by index; they may refer to each other. -/
abbrev Sharing (ρ : Type) := List (Value (Position ρ))

namespace Sharing

def value (shared : Sharing ρ) (n : Nat) : Value (Position ρ) := shared.getD n (.scalar .null)

/-- The value that stands at a position, be it shared or not. -/
def resolve (shared : Sharing ρ) : Value (Position ρ) → Value (Position ρ)
  | .ref (.shared n) => shared.value n
  | v => v

/-- What a position stands for when shared values are followed to a depth. -/
def expand (shared : Sharing ρ) : Nat → Position ρ → Value ρ
  | _, .own label => .ref label
  | 0, .shared _ => .scalar .null
  | depth + 1, .shared n => (shared.value n).subst (expand shared depth)

/-- What a position stands for. Where no value contains itself, shared values are not deeper than
there are many. -/
def meaning (shared : Sharing ρ) : Position ρ → Value ρ := shared.expand shared.length

/-- The value with a copy of what is shared in every place. -/
def tree (shared : Sharing ρ) (v : Value (Position ρ)) : Value ρ := v.subst shared.meaning

/-- Does following shared values from a position end within a depth? -/
def endsWithin (shared : Sharing ρ) : Nat → Position ρ → Bool
  | _, .own _ => true
  | 0, .shared n => shared.length ≤ n
  | depth + 1, .shared n => (shared.value n).allRefs (endsWithin shared depth)

/-- Does a value not contain itself, nor does anything in it? -/
def isFinite (shared : Sharing ρ) (v : Value (Position ρ)) : Bool :=
  v.allRefs (shared.endsWithin shared.length)

/-- Are the shared values lists and maps of scalars and references, and does none contain itself? -/
def isProper (shared : Sharing ρ) : Bool :=
  (List.range shared.length).all fun n =>
    (shared.value n).isFlat && shared.endsWithin shared.length (.shared n)

/-! ### Sharing more values -/

def keep (v : Value (Position ρ)) : StateM (Sharing ρ) (Value (Position ρ)) := do
  let shared ← get
  set (shared ++ [v])
  pure (.ref (.shared shared.length))

mutual

/-- Moves a list or a map to the shared values, and what it holds before it. -/
def share : Value (Position ρ) → StateM (Sharing ρ) (Value (Position ρ))
  | .list items => do keep (.list (← shareItems items))
  | .map entries => do keep (.map (← shareEntries entries))
  | v => pure v

def shareItems :
    List (Value (Position ρ)) → StateM (Sharing ρ) (List (Value (Position ρ)))
  | [] => pure []
  | item :: rest => do pure ((← share item) :: (← shareItems rest))

def shareEntries : Entries (Position ρ) → StateM (Sharing ρ) (Entries (Position ρ))
  | [] => pure []
  | (key, value) :: rest => do pure ((key, ← share value) :: (← shareEntries rest))

end

/-- Moves what a list or a map holds to the shared values. -/
def shareParts : Value (Position ρ) → StateM (Sharing ρ) (Value (Position ρ))
  | .list items => .list <$> shareItems items
  | .map entries => .map <$> shareEntries entries
  | v => pure v

end Sharing

/-- Does the value stand in no other place? -/
def Value.isOwn : Value (Position ρ) → Bool
  | .ref (.shared _) => false
  | _ => true

/-- A value in which values are shared. -/
structure Graph (ρ : Type) where
  shared : Sharing ρ
  root : Value (Position ρ)

namespace Graph

def tree (g : Graph ρ) : Value ρ := g.shared.tree g.root

/-- Has the graph a tree? -/
def isFinite (g : Graph ρ) : Bool := g.shared.isFinite g.root

def isMap (g : Graph ρ) : Bool :=
  match g.shared.resolve g.root with
  | .map _ => true
  | _ => false

/-- A document in which every value stands in one place. -/
def ofDocument (d : Document) : Graph Empty := ⟨[], .ofDocument d⟩

end Graph

/-- A document in which values are shared and none contains itself. -/
structure SharedDocument extends Graph Empty where
  proper : shared.isProper = true

/-- A document in which every value stands in one place, as one with shared values. -/
def SharedDocument.ofDocument (d : Document) : SharedDocument := ⟨.ofDocument d, rfl⟩

end NamedSchemas
