import NamedSchemas.Value.Scalar
/-!
# Values

Documents are trees of maps, lists and scalars whose maps keep the order of their entries. A value
may also hold *references*: positions that stand for something else and are told apart by a label.
Putting values in the place of references is substitution; a document holds no reference.

A tree does not tell whether the same list or map stands in several of its places, as YAML text can
say by aliases. Where that matters, a document is a `Graph`, whose tree is one of these. The octets,
sets and tuples that YAML text can ask for by explicit tags are left out.
-/

namespace NamedSchemas

/-- A tree of maps, lists and scalars with references labelled by `ρ`. -/
inductive Value (ρ : Type) where
  | scalar (s : Scalar)
  | list (items : List (Value ρ))
  | map (entries : List (Scalar × Value ρ))
  | ref (label : ρ)

instance {ρ : Type} : Inhabited (Value ρ) := ⟨.scalar .null⟩

abbrev Entries (ρ : Type) := List (Scalar × Value ρ)

abbrev Document := Value Empty

namespace Entries

variable {ρ : Type}

def get? (key : Text) (entries : Entries ρ) : Option (Value ρ) :=
  (entries.find? fun entry => entry.1 = .text key).map Prod.snd

def contains (key : Text) (entries : Entries ρ) : Bool :=
  entries.any fun entry => entry.1 = .text key

/-- Puts a value under a key, with a choice of which keys are the same. A key that is there keeps
its place and its spelling, a new one goes to the end. -/
def insertBy {κ β : Type} (same : κ → κ → Bool) (key : κ) (value : β) (entries : List (κ × β)) :
    List (κ × β) :=
  if entries.any fun entry => same entry.1 key then
    entries.map fun entry => if same entry.1 key then (entry.1, value) else entry
  else entries ++ [(key, value)]

def insert (key : Scalar) (value : Value ρ) (entries : Entries ρ) : Entries ρ :=
  insertBy Scalar.sameKey key value entries

/-- The entries of a list in which a key may be repeated, with a choice of which keys are the same:
the last value wins. -/
def ofListBy {κ β : Type} (same : κ → κ → Bool) (pairs : List (κ × β)) : List (κ × β) :=
  pairs.foldl (fun entries pair => insertBy same pair.1 pair.2 entries) []

def ofList (pairs : Entries ρ) : Entries ρ := ofListBy Scalar.sameKey pairs

end Entries

namespace Value

variable {ρ σ : Type}

def text (t : Text) : Value ρ := .scalar (.text t)

def text? : Value ρ → Option Text
  | .scalar (.text t) => some t
  | _ => none

mutual

/-- Puts a value in the place of every reference. -/
def subst (f : ρ → Value σ) : Value ρ → Value σ
  | .scalar s => .scalar s
  | .list items => .list (substItems f items)
  | .map entries => .map (substEntries f entries)
  | .ref label => f label

def substItems (f : ρ → Value σ) : List (Value ρ) → List (Value σ)
  | [] => []
  | item :: rest => subst f item :: substItems f rest

def substEntries (f : ρ → Value σ) : Entries ρ → Entries σ
  | [] => []
  | (key, value) :: rest => (key, subst f value) :: substEntries f rest

end

/-- Gives every reference a new label. -/
def relabel (f : ρ → σ) (v : Value ρ) : Value σ := v.subst fun label => .ref (f label)

/-- A document as a value that could hold references. -/
def ofDocument (d : Document) : Value ρ := d.subst Empty.elim

def isCollection : Value ρ → Bool
  | .list _ => true
  | .map _ => true
  | _ => false

/-- Is the value a list or a map that holds no lists and maps? -/
def isFlat : Value ρ → Bool
  | .list items => items.all fun item => !item.isCollection
  | .map entries => entries.all fun entry => !entry.2.isCollection
  | _ => false

mutual

/-- Does a test hold for the labels of all references? -/
def allRefs (p : ρ → Bool) : Value ρ → Bool
  | .scalar _ => true
  | .list items => allItemRefs p items
  | .map entries => allEntryRefs p entries
  | .ref label => p label

def allItemRefs (p : ρ → Bool) : List (Value ρ) → Bool
  | [] => true
  | item :: rest => allRefs p item && allItemRefs p rest

def allEntryRefs (p : ρ → Bool) : Entries ρ → Bool
  | [] => true
  | (_, value) :: rest => allRefs p value && allEntryRefs p rest

end

mutual

/-- How many values stand inside each other. -/
def depth : Value ρ → Nat
  | .list items => itemDepth items + 1
  | .map entries => entryDepth entries + 1
  | _ => 0

def itemDepth : List (Value ρ) → Nat
  | [] => 0
  | item :: rest => max (depth item) (itemDepth rest)

def entryDepth : Entries ρ → Nat
  | [] => 0
  | (_, value) :: rest => max (depth value) (entryDepth rest)

end

/-- How a scalar reads inside another value, where texts, dates and times are literals. -/
def displayScalar : Scalar → Text
  | .text t => t.quoted
  | .date d => d.literal
  | .dateTime t => t.literal
  | s => s.display

mutual

/-- How a document reads inside a list or a map. -/
def displayInner : Document → Text
  | .scalar s => displayScalar s
  | .list items => Text.ofString "[" ++ Text.join ", " (displayItems items) ++ Text.ofString "]"
  | .map entries =>
    Text.ofString "\x7b" ++ Text.join ", " (displayEntries entries) ++ Text.ofString "\x7d"

def displayItems : List Document → List Text
  | [] => []
  | item :: rest => displayInner item :: displayItems rest

def displayEntries : Entries Empty → List Text
  | [] => []
  | (key, value) :: rest =>
    (displayScalar key ++ Text.ofString ": " ++ displayInner value) :: displayEntries rest

end

/-- How a document reads when it stands alone: text as it is. -/
def display : Document → Text
  | .scalar s => s.display
  | v => displayInner v

/-- The name of a value's kind in messages. A reference stands for a map. -/
def kindName : Value ρ → String
  | .scalar s => s.kindName
  | .list _ => "list"
  | .map _ => "dict"
  | .ref _ => "dict"

end Value

end NamedSchemas
