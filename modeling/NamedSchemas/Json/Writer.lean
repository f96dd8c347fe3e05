import NamedSchemas.Value.Basic
/-!
# Writing JSON

The JSON text of a document in three layouts. The text is plain ASCII: other characters are written
as escapes of their 16-bit units. Dates are written as their ISO text, and keys that are not text
become text. A date cannot be a key, and an integer of more than 4300 digits is not written.
-/

namespace NamedSchemas.Json

/-- How the parts of a text are set apart. -/
inductive Layout where
  /-- One line, with a space after every separator. -/
  | compact
  /-- One line without spaces. -/
  | canonical
  /-- An indented line for every item and entry. -/
  | pretty
  deriving DecidableEq

/-- What keeps a document from being written. -/
inductive WriteFault where
  /-- A key of a kind that has no text, in the given layout. -/
  | key (layout : Layout) (kind : String)
  /-- An integer with too many digits. -/
  | longInteger
  deriving DecidableEq

def WriteFault.message : WriteFault → Text
  | .key _ kind => Text.ofString "keys must be str, int, float, bool or None, not " ++
      Text.ofString kind
  | .longInteger =>
    Text.ofString "Exceeds the limit (4300 digits) for integer string conversion; " ++
      Text.ofString "use sys.set_int_max_str_digits() to increase the limit"

/-- Numbers that are not finite, as JSON text has them. -/
def spelling : Binary64.Spelling := ⟨"NaN", "Infinity", "-Infinity"⟩

def unitEscape (n : Nat) : List Char := '\\' :: 'u' :: Numeral.lowerHex 4 n

/-- One code point inside a string; beyond 16 bits it is written as a surrogate pair. -/
def writePoint (p : CodePoint) : List Char :=
  if p = '"' then ['\\', '"']
  else if p = '\\' then ['\\', '\\']
  else if p = '\n' then ['\\', 'n']
  else if p = '\r' then ['\\', 'r']
  else if p = '\t' then ['\\', 't']
  else if p.toNat = 0x08 then ['\\', 'b']
  else if p.toNat = 0x0C then ['\\', 'f']
  else if 0x20 ≤ p.toNat ∧ p.toNat ≤ 0x7E then [Char.ofNat p.toNat]
  else if p.toNat < 0x10000 then unitEscape p.toNat
  else unitEscape (0xD800 + (p.toNat - 0x10000) / 0x400) ++
    unitEscape (0xDC00 + (p.toNat - 0x10000) % 0x400)

def writeText (t : Text) : List Char := '"' :: t.flatMap writePoint ++ ['"']

def writeBool (b : Bool) : List Char := if b then "true".toList else "false".toList

def writeInt (i : Int) : Except WriteFault (List Char) :=
  if i.natAbs < 10 ^ Numeral.digitLimit then .ok (Numeral.integer i) else .error .longInteger

def writeScalar : Scalar → Except WriteFault (List Char)
  | .null => .ok "null".toList
  | .bool b => .ok (writeBool b)
  | .int i => writeInt i
  | .float x => .ok (x.text spelling)
  | .text t => .ok (writeText t)
  | .date d => .ok (writeText (Text.ofChars d.text))
  | .dateTime t => .ok (writeText (Text.ofChars (t.text ' ')))

/-- The kind of a key that cannot be written: the indented layout leaves its module out. -/
def keyKind (layout : Layout) (s : Scalar) : String :=
  match layout, s with
  | .pretty, .date _ => "date"
  | .pretty, .dateTime _ => "datetime"
  | _, s => s.kindName

def writeKey (layout : Layout) : Scalar → Except WriteFault (List Char)
  | .text t => .ok (writeText t)
  | .date d => .error (.key layout (keyKind layout (.date d)))
  | .dateTime t => .error (.key layout (keyKind layout (.dateTime t)))
  | s => do pure ('"' :: (← writeScalar s) ++ ['"'])

def lineStart (depth : Nat) : List Char := '\n' :: List.replicate (2 * depth) ' '

/-- A text in pieces that stand one after the other. What is written of a collection is copied piece
by piece into that of the collection around it, and put together once at the end. -/
abbrev Pieces := List (List Char)

/-- Sets written parts between brackets; `depth` is that of the brackets. -/
def bracketed (layout : Layout) (depth : Nat) (opening closing : Char) (parts : List Pieces) :
    Pieces :=
  match parts, layout with
  | [], _ => [[opening, closing]]
  | _, .compact => [opening] :: [[',', ' ']].intercalate parts ++ [[closing]]
  | _, .canonical => [opening] :: [[',']].intercalate parts ++ [[closing]]
  | _, .pretty => [opening] :: lineStart (depth + 1) ::
      [',' :: lineStart (depth + 1)].intercalate parts ++ [lineStart depth, [closing]]

def keySeparator : Layout → List Char
  | .canonical => [':']
  | _ => [':', ' ']

mutual

/-- A document at a depth of nesting. -/
def write (layout : Layout) (depth : Nat) : Document → Except WriteFault Pieces
  | .scalar s => do pure [← writeScalar s]
  | .list items => do
    pure (bracketed layout depth '[' ']' (← writeItems layout (depth + 1) items))
  | .map entries => do
    pure (bracketed layout depth '\x7b' '\x7d' (← writeEntries layout (depth + 1) entries))

def writeItems (layout : Layout) (depth : Nat) :
    List Document → Except WriteFault (List Pieces)
  | [] => pure []
  | item :: rest => do
    let part ← write layout depth item
    pure (part :: (← writeItems layout depth rest))

def writeEntries (layout : Layout) (depth : Nat) :
    Entries Empty → Except WriteFault (List Pieces)
  | [] => pure []
  | (key, value) :: rest => do
    let key ← writeKey layout key
    let value ← write layout depth value
    pure ((key :: keySeparator layout :: value) :: (← writeEntries layout depth rest))

end

def text (layout : Layout) (d : Document) : Except WriteFault (List Char) :=
  List.flatten <$> write layout 0 d

def compact (d : Document) : Except WriteFault (List Char) := text .compact d

def canonical (d : Document) : Except WriteFault (List Char) := text .canonical d

def pretty (d : Document) : Except WriteFault (List Char) := text .pretty d

end NamedSchemas.Json
