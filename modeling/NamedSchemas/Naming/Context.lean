import NamedSchemas.Value.Basic
/-!
# Contexts

A context tells where in an interface a schema was found: the path of keys that leads to it, the
operation, and whether it is a response with a status or a request payload.
-/

namespace NamedSchemas

structure SegmentFault where
  /-- The place of the segment in its path, counted from zero. -/
  index : Nat
  kind : String
  deriving DecidableEq

def SegmentFault.message (f : SegmentFault) : Text :=
  Text.ofString "sequence item " ++ Text.ofChars (Numeral.natural f.index) ++
    Text.ofString ": expected str instance, " ++ Text.ofString f.kind ++ Text.ofString " found"

/-- Where a schema was found. -/
structure Context where
  /-- The keys that lead to the schema. Maps may have keys that are not text. -/
  path : List Document
  operationId : Option Text
  status : Option Document
  /-- Is the schema that of a request body? -/
  isPayload : Bool

namespace Context

def depth (c : Context) : Nat := c.path.length

def child (c : Context) (segment : Document) : Context :=
  { c with path := c.path ++ [segment] }

/-- The path segments as texts; the first that is none is at fault. `index` counts the segments in
front. -/
def textsFrom (index : Nat) : List Document → Except SegmentFault (List Text)
  | [] => .ok []
  | segment :: rest =>
    match segment.text? with
    | some t => (t :: ·) <$> textsFrom (index + 1) rest
    | none => .error ⟨index, segment.kindName⟩

/-- The path as one text, its segments set apart by slashes. -/
def pathText (c : Context) : Except SegmentFault Text :=
  (Text.join "/" ·) <$> textsFrom 0 c.path

end Context

end NamedSchemas
