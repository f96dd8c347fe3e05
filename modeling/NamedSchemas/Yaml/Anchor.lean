import NamedSchemas.Yaml.Node
/-!
# Anchors, aliases and merged maps

A node with an anchor stands in several places when there are aliases of it. Such nodes, with all
lists and maps in them, are put into a table, and their places refer to it by index. A map may take
over the entries of others by a merge key.
-/

namespace NamedSchemas.Yaml

/-- What is known of the anchors that were passed. -/
structure Anchors where
  /-- What the aliases of each anchor stand for. -/
  named : List (List Char × Node)
  /-- The nodes that stand in several places. -/
  nodes : List Node

abbrev AnchorsM := StateT Anchors (Except Fault)

namespace Anchors

/-- Notes what the aliases of an anchor stand for. No anchor is set twice. -/
def note (anchor : Option (List Char)) (node : Node) : AnchorsM Unit := do
  match anchor with
  | none => pure ()
  | some name =>
    if (← get).named.any fun entry => entry.1 = name then throw .malformed
    else modify fun a => { a with named := (name, node) :: a.named }

/-- Starts a list or a map: gives the index for it when it is to stand in the table. -/
def enter (inside : Bool) (anchor : Option (List Char)) : AnchorsM (Option Nat) := do
  if inside || anchor.isSome then
    let index := (← get).nodes.length
    modify fun a => { a with nodes := a.nodes ++ [.empty] }
    note anchor (.shared index)
    pure (some index)
  else pure none

/-- Ends a list or a map; gives what stands in its place. -/
def leave (index : Option Nat) (node : Node) : AnchorsM Node := do
  match index with
  | none => pure node
  | some n =>
    modify fun a => { a with nodes := a.nodes.set n node }
    pure (.shared n)

end Anchors

namespace Node

mutual

/-- Puts what they stand for in the place of aliases. `inside` says that the node is in one that
stands in several places, and `anchor` is that of the node. -/
def withoutAliases (inside : Bool) (anchor : Option (List Char)) : Node → AnchorsM Node
  | .scalar tag t => do
    Anchors.note anchor (.scalar tag t)
    pure (.scalar tag t)
  | .list tag items => do
    let index ← Anchors.enter inside anchor
    Anchors.leave index (.list tag (← itemsWithoutAliases index.isSome items))
  | .map tag entries => do
    let index ← Anchors.enter inside anchor
    Anchors.leave index (.map tag (← entriesWithoutAliases index.isSome entries))
  | .anchored name node => withoutAliases inside (some name) node
  | .alias name => do
    match (← get).named.lookup name with
    | some node => pure node
    | none => throw .malformed
  | .shared n => pure (.shared n)

def itemsWithoutAliases (inside : Bool) : List Node → AnchorsM (List Node)
  | [] => pure []
  | item :: rest => do
    let item ← withoutAliases inside none item
    pure (item :: (← itemsWithoutAliases inside rest))

def entriesWithoutAliases (inside : Bool) : List (Node × Node) → AnchorsM (List (Node × Node))
  | [] => pure []
  | (key, value) :: rest => do
    let key ← withoutAliases inside none key
    let value ← withoutAliases inside none value
    pure ((key, value) :: (← entriesWithoutAliases inside rest))

end

/-! ### Merge keys -/

def isMergeKey : Node → Bool
  | .scalar .merge _ => true
  | _ => false

section Merge

variable (entriesAt : Nat → Option (List (Node × Node)))

/-- The entries of a map that is to be merged. -/
def mapEntries : Node → Option (List (Node × Node))
  | .map _ entries => some entries
  | .shared n => entriesAt n
  | _ => none

/-- The entries under a merge key: those of one map, or of the maps in a list, where the first
counts most. -/
def mergedEntries : Node → Option (List (Node × Node))
  | .list _ items => do pure (← items.reverse.mapM (mapEntries entriesAt)).flatten
  | node => mapEntries entriesAt node

mutual

/-- The node with the entries of other maps in the maps in it. They come before a map's own, which
count more. -/
def withMerged : Node → Option Node
  | .list tag items => do pure (.list tag (← itemsWithMerged items))
  | .map tag entries => do
    let entries ← entriesWithMerged entries
    let taken ← (entries.filter fun entry => isMergeKey entry.1).mapM fun entry =>
      mergedEntries entriesAt entry.2
    pure (.map tag (taken.flatten ++ entries.filter fun entry => !isMergeKey entry.1))
  | node => some node

def itemsWithMerged : List Node → Option (List Node)
  | [] => some []
  | item :: rest => do pure ((← withMerged item) :: (← itemsWithMerged rest))

def entriesWithMerged : List (Node × Node) → Option (List (Node × Node))
  | [] => some []
  | (key, value) :: rest => do pure ((key, ← withMerged value) :: (← entriesWithMerged rest))

end

end Merge

def entriesAt (nodes : List Node) : Nat → Nat → Option (List (Node × Node))
  | 0, _ => none
  | fuel + 1, n => do
    match ← withMerged (entriesAt nodes fuel) (← nodes[n]?) with
    | .map _ entries => some entries
    | _ => none

/-- A node without aliases and merge keys, and the table of the nodes that stand in several
places. -/
def resolved (node : Node) : Except Fault (Node × List Node) := do
  let (node, anchors) ← (withoutAliases false none node).run ⟨[], []⟩
  let merged := withMerged (entriesAt anchors.nodes (anchors.nodes.length + 1))
  match merged node, anchors.nodes.mapM merged with
  | some node, some nodes => pure (node, nodes)
  | _, _ => throw .malformed

end Node

end NamedSchemas.Yaml
