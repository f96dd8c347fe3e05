import NamedSchemas.Shared.Graph
import NamedSchemas.Text.Stream
import NamedSchemas.Yaml.Anchor
/-!
# Reading YAML

The document that a YAML text denotes, with the values of anchors shared by their aliases. The nodes
of a tree are given their values level by level, so of several scalars that denote nothing the
shallowest is reported, and of equally shallow ones the first.

The reader is one part of `Yaml.library`, which stands in for whatever library the program is given.
It knows no octets and no sets, and it does not say at which place a text is malformed.
-/

namespace NamedSchemas.Yaml

/-- A value, or a fault and how many levels below it stands. -/
abbrev Leveled (α : Type) := Except (Nat × Fault) α

namespace Leveled

variable {α β γ : Type}

/-- Combines two values; of two faults the shallower one counts, and of equally shallow ones the
first. -/
def both (f : α → β → γ) : Leveled α → Leveled β → Leveled γ
  | .ok a, .ok b => .ok (f a b)
  | .error e, .ok _ => .error e
  | .ok _, .error e => .error e
  | .error e, .error e' => .error (if e'.1 < e.1 then e' else e)

def deeper : Leveled α → Leveled α
  | .ok a => .ok a
  | .error (level, fault) => .error (level + 1, fault)

end Leveled

namespace Node

def tag : Node → Tag
  | .scalar tag _ => tag
  | .list tag _ => tag
  | .map tag _ => tag
  | .anchored _ node => node.tag
  | .alias _ => .unknown
  | .shared _ => .unknown

mutual

/-- The text of a node that is taken for a scalar. A map is taken for its default value. -/
def scalarText : Node → Option Text
  | .scalar _ t => some t
  | .map _ entries => defaultText entries
  | _ => none

def defaultText : List (Node × Node) → Option Text
  | [] => none
  | (key, item) :: rest => if key.tag = .defaultValue then item.scalarText else defaultText rest

end

/-- The scalar of a node that is given the kind of one, at the level of the collection around it. -/
def scalarValue (node : Node) : Leveled Scalar :=
  match node.scalarText with
  | none => .error (0, .malformed)
  | some t =>
    match node with
    | .map .timestamp _ => .error (0, .breakdown .momentMap)
    | node => (scalarOf node.tag t).mapError fun fault => (0, fault)

def isCollection (tag : Tag) : Bool := tag = .list || tag = .map || tag = .pairs

structure Key where
  scalar : Scalar
  /-- Is it the word for what is not a number? Other numbers of that kind are never the same key. -/
  isNanWord : Bool

/-- The key that a node denotes. Collections are no keys, and the mark of a default value is a
text. -/
def keyValue (node : Node) : Leveled Key :=
  match node.tag, node.scalarText with
  | .defaultValue, some t => .ok ⟨.text t, false⟩
  | .float, some t => node.scalarValue.map fun s => ⟨s, isNanWord t⟩
  | _, _ => node.scalarValue.map fun s => ⟨s, false⟩

/-- Do two keys of a map denote the same entry? -/
def Key.same (k l : Key) : Bool := k.scalar.sameKey l.scalar || (k.isNanWord && l.isNanWord)

/-- A value in a document whose shared values stand elsewhere. -/
abbrev GraphValue := Value (Position Empty)

def mapOf (entries : List (Key × GraphValue)) : GraphValue :=
  .map ((Entries.ofListBy Key.same entries).map fun entry => (entry.1.scalar, entry.2))

mutual

def value : Node → Leveled GraphValue
  | .shared n => .ok (.ref (.shared n))
  | .list .list items => Leveled.deeper ((itemValues items).map Value.list)
  | .list .pairs items => Leveled.deeper ((pairValues items).map Value.list)
  | .map .map entries => Leveled.deeper ((entryValues entries).map mapOf)
  | node =>
    if isCollection node.tag then .error (1, .malformed) else node.scalarValue.map Value.scalar

def itemValues : List Node → Leveled (List GraphValue)
  | [] => .ok []
  | item :: rest => Leveled.both List.cons (value item) (itemValues rest)

/-- The pairs of a list of maps of one entry each. -/
def pairValues : List Node → Leveled (List GraphValue)
  | [] => .ok []
  | .map _ [(key, item)] :: rest =>
    let pair := Leveled.both (fun k d => Value.list [k, d]) (value key) (value item)
    Leveled.both List.cons pair (pairValues rest)
  | _ => .error (0, .malformed)

def entryValues : List (Node × Node) → Leveled (List (Key × GraphValue))
  | [] => .ok []
  | (key, item) :: rest =>
    Leveled.both List.cons (Leveled.both Prod.mk (keyValue key) (value item)) (entryValues rest)

end

/-- The value of a node, or the shallowest fault in it. -/
def shallowValue (node : Node) : Except Fault GraphValue := node.value.mapError Prod.snd

end Node

/-- The document that a YAML text denotes; `ending` is what is wrong after the text, if anything. -/
def readText (cs : List Char) (ending : Option Fault) : Except Fault (Graph Empty) := do
  let (node, nodes) ← (← Node.ofTokens (tokensOf cs ending)).resolved
  let root ← node.shallowValue
  pure ⟨← nodes.mapM Node.shallowValue, root⟩

/-- How many characters are taken at once from the octets of a text. -/
def partSize : Nat := 4096

/-- A text as far as it can be held, and what is wrong after it: characters that no text can hold in
one of the later parts, or octets that encode none. -/
def permitted (fault : Option Utf8.Fault) : List (List Char) → List Char × Option Fault
  | [] => ([], fault.map .encoding)
  | part :: rest =>
    if part.all isPermitted then
      let (cs, ending) := permitted fault rest
      (part ++ cs, ending)
    else ([], some .malformed)

/-- The document that the octets of a text denote. Two parts are taken before the reading starts,
and the others when it gets to them. -/
def read (octets : List UInt8) : Except Fault (Graph Empty) :=
  match TextStream.parts partSize octets with
  | ([], some fault) => .error (.encoding fault)
  | ([_], some fault) => .error (.encoding fault)
  | (parts, fault) =>
    if (parts.take 2).all fun part => part.all isPermitted then
      let (cs, ending) := permitted fault parts
      readText cs ending
    else .error .malformed

end NamedSchemas.Yaml
