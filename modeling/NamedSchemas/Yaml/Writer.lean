import NamedSchemas.Json.Writer
import NamedSchemas.Storage.Documents
import NamedSchemas.Yaml.Reader
/-!
# Writing YAML

The YAML text of a document. Collections are written as indented blocks, or between brackets when
they are empty or, on request, when they hold only scalars. A scalar is written without quotes when
it would be read as what it is; otherwise between single quotes, or between double quotes with
escapes when it holds other characters than printable ASCII.

The writer is the other part of `Yaml.library`. It breaks no long lines and writes no anchors: a
value that stands in several places is written out in each of them, and a document that contains
itself is refused.
-/

namespace NamedSchemas.Yaml

/-- Numbers that are not finite, as YAML text has them. -/
def spelling : Binary64.Spelling := ⟨".nan", ".inf", "-.inf"⟩

/-- A number with an exponent has a point in front of it. -/
def withPoint (cs : List Char) : List Char :=
  if '.' ∈ cs then cs
  else cs.takeWhile (· ≠ 'e') ++ (if 'e' ∈ cs then ".0".toList else []) ++ cs.dropWhile (· ≠ 'e')

/-- The kind and the text of a scalar. -/
def tagged : Scalar → Except Json.WriteFault (Tag × Text)
  | .null => .ok (.null, "null")
  | .bool b => .ok (.bool, Text.ofChars (Json.writeBool b))
  | .int i => do pure (.int, Text.ofChars (← Json.writeInt i))
  | .float x => .ok (.float, Text.ofChars (withPoint (x.text spelling)))
  | .text t => .ok (.text, t)
  | .date d => .ok (.timestamp, Text.ofChars d.text)
  | .dateTime t => .ok (.timestamp, Text.ofChars (t.text ' '))

def tagText : Tag → List Char
  | .text => "!!str".toList
  | .int => "!!int".toList
  | .float => "!!float".toList
  | .bool => "!!bool".toList
  | .null => "!!null".toList
  | _ => "!!timestamp".toList

/-! ## Styles -/

/-- Can the code point stand in a scalar without an escape? -/
def isWritable (p : CodePoint) : Bool := p = '\n' || (0x20 ≤ p.toNat && p.toNat ≤ 0x7E)

/-- Does the code point make a text one of several lines? -/
def endsWrittenLine (p : CodePoint) : Bool :=
  p = '\n' || p = '\u0085' || p = '\u2028' || p = '\u2029'

def blankNext (rest : List Char) : Bool := rest.head?.all isBlankOrBreak

/-- Does the start of a text have another meaning than the text? -/
def startsAmbiguous (inFlow : Bool) : List Char → Bool
  | [] => false
  | c :: rest =>
    c ∈ "#,[]\x7b\x7d&*!|>'\"%@\u0060".toList ||
      ((c == '?' || c == ':') && (inFlow || blankNext rest)) || (c == '-' && blankNext rest)

/-- Does the text after its first character `before` have another meaning than text? -/
def goesOnAmbiguous (inFlow : Bool) (before : Char) : List Char → Bool
  | [] => false
  | c :: rest =>
    (inFlow && (isFlowMark c || c == '?')) || (c == ':' && (inFlow || blankNext rest)) ||
      (c == '#' && isBlankOrBreak before) || goesOnAmbiguous inFlow c rest

/-- Could the text be taken for something else where it stands without quotes? -/
def isAmbiguous (inFlow : Bool) (cs : List Char) : Bool :=
  "---".toList.isPrefixOf cs || "...".toList.isPrefixOf cs || startsAmbiguous inFlow cs ||
    match cs with
    | [] => false
    | first :: rest => goesOnAmbiguous inFlow first rest

/-- Does the text have blanks or line ends at its ends, or line ends inside? -/
def needsQuotes (cs : List Char) : Bool :=
  cs.head?.any isBlankOrBreak || cs.getLast?.any isBlankOrBreak || cs.contains '\n'

/-- Is there a line end next to a space? -/
def hasBlankLineEnd : List Char → Bool
  | ' ' :: '\n' :: _ => true
  | '\n' :: ' ' :: _ => true
  | _ :: rest => hasBlankLineEnd rest
  | [] => false

inductive Style where
  | plain
  | single
  | double
  deriving DecidableEq

/-- The style of a text of a kind. -/
def styleOf (inFlow : Bool) (tag : Tag) (t : Text) : Style :=
  if !t.all isWritable then .double
  else
    let cs := t.toChars
    if resolve t = tag ∧ !(inFlow ∧ cs.isEmpty) ∧ !needsQuotes cs ∧ !isAmbiguous inFlow cs then
      .plain
    else if hasBlankLineEnd cs then .double
    else .single

/-! ## Scalars -/

def shortEscapes : List (Char × Char) := [
  ('\x00', '0'), ('\x07', 'a'), ('\x08', 'b'), ('\t', 't'), ('\n', 'n'), ('\x0b', 'v'),
  ('\x0c', 'f'), ('\r', 'r'), ('\x1b', 'e'), ('"', '"'), ('\\', '\\'), ('\u0085', 'N'),
  ('\u00a0', '_'), ('\u2028', 'L'), ('\u2029', 'P')]

def doubleQuotedPoint (p : CodePoint) : List Char :=
  match shortEscapes.find? fun entry => p = entry.1 with
  | some (_, letter) => ['\\', letter]
  | none =>
    if 0x20 ≤ p.toNat ∧ p.toNat ≤ 0x7E then [Char.ofNat p.toNat]
    else if p.toNat ≤ 0xFF then '\\' :: 'x' :: Numeral.upperHex 2 p.toNat
    else if p.toNat ≤ 0xFFFF then '\\' :: 'u' :: Numeral.upperHex 4 p.toNat
    else '\\' :: 'U' :: Numeral.upperHex 8 p.toNat

/-- The characters of a text between single quotes; a line end is written as an empty line. -/
def singleQuoted (indent : Nat) : List Char → List Char
  | [] => []
  | '\'' :: rest => '\'' :: '\'' :: singleQuoted indent rest
  -- of several line ends in a row the last one is written twice
  | '\n' :: '\n' :: rest => '\n' :: singleQuoted indent ('\n' :: rest)
  | '\n' :: rest => '\n' :: '\n' :: List.replicate indent ' ' ++ singleQuoted indent rest
  | c :: rest => c :: singleQuoted indent rest

def inStyle (indent : Nat) (t : Text) : Style → List Char
  | .plain => t.toChars
  | .single => '\'' :: singleQuoted indent t.toChars ++ ['\'']
  | .double => '"' :: t.flatMap doubleQuotedPoint ++ ['"']

/-- A scalar as written: its text and whether it can be a key in front of a colon. -/
structure WrittenScalar where
  text : List Char
  style : Style
  isShort : Bool

/-- A scalar at an indentation. A kind that its text does not show is written in front. -/
def writeScalar (inFlow : Bool) (indent : Nat) (s : Scalar) :
    Except Json.WriteFault WrittenScalar := do
  let (tag, t) ← tagged s
  let style := styleOf inFlow tag t
  let shown := if style = .plain ∨ tag = .text then [] else tagText tag ++ [' ']
  let isShort := !t.isEmpty && !t.any endsWrittenLine && (tagText tag).length + t.length < 128
  pure ⟨shown ++ inStyle indent t style, style, isShort⟩

/-! ## Collections -/

def isScalar : Document → Bool
  | .scalar _ => true
  | _ => false

/-- Is the value written between brackets? `dense` asks for it where only scalars are inside. -/
def isFlow (dense : Bool) : Document → Bool
  | .scalar _ => true
  | .list items => items.isEmpty || (dense && items.all isScalar)
  | .map entries => entries.isEmpty || (dense && entries.all fun entry => isScalar entry.2)

def writeFlowItem (indent : Nat) : Document → Except Json.WriteFault (List Char)
  | .scalar s => do pure (← writeScalar true indent s).text
  | _ => pure []

def writeFlowEntry (indent : Nat) (entry : Scalar × Document) :
    Except Json.WriteFault (List Char) := do
  let key ← writeScalar true indent entry.1
  let value ← writeFlowItem indent entry.2
  pure (if key.isShort then key.text ++ ": ".toList ++ value
    else "? ".toList ++ key.text ++ " : ".toList ++ value)

/-- A scalar, or a collection of scalars between brackets. -/
def writeFlow (indent : Nat) : Document → Except Json.WriteFault (List Char)
  | .scalar s => do pure (← writeScalar false indent s).text
  | .list items => do
    pure ('[' :: ", ".toList.intercalate (← items.mapM (writeFlowItem indent)) ++ [']'])
  | .map entries => do
    pure ('\x7b' :: ", ".toList.intercalate (← entries.mapM (writeFlowEntry indent)) ++ ['\x7d'])

def lineStart (indent : Nat) : List Char := '\n' :: List.replicate indent ' '

def isList : Document → Bool
  | .list _ => true
  | _ => false

mutual

/-- A value whose lines start at an indentation; the first line starts where the value does. -/
def writeBlock (dense : Bool) (indent : Nat) : Document → Except Json.WriteFault (List Char)
  | .scalar s => writeFlow indent (.scalar s)
  | .list items =>
    if isFlow dense (.list items) then writeFlow indent (.list items)
    else do pure ((lineStart indent).intercalate (← writeBlockItems dense indent items))
  | .map entries =>
    if isFlow dense (.map entries) then writeFlow indent (.map entries)
    else do pure ((lineStart indent).intercalate (← writeBlockEntries dense indent entries))

def writeBlockItems (dense : Bool) (indent : Nat) :
    List Document → Except Json.WriteFault (List (List Char))
  | [] => pure []
  | item :: rest => do
    let text ← writeBlock dense (indent + 2) item
    pure (('-' :: ' ' :: text) :: (← writeBlockItems dense indent rest))

/-- The entries of a map. A collection starts on the line after its key, and a list there is not
indented further; a key that cannot stand in front of a colon has a line of its own. -/
def writeBlockEntries (dense : Bool) (indent : Nat) :
    Entries Empty → Except Json.WriteFault (List (List Char))
  | [] => pure []
  | (key, value) :: rest => do
    let key ← writeScalar false (indent + 2) key
    let text ←
      if !key.isShort then do
        let value ← writeBlock dense (indent + 2) value
        pure ('?' :: ' ' :: key.text ++ lineStart indent ++ ':' :: ' ' :: value)
      else if isFlow dense value then do
        pure (key.text ++ ':' :: ' ' :: (← writeBlock dense (indent + 2) value))
      else if isList value then do
        pure (key.text ++ ':' :: lineStart indent ++ (← writeBlock dense indent value))
      else do
        pure (key.text ++ ':' :: lineStart (indent + 2) ++ (← writeBlock dense (indent + 2) value))
    pure (text :: (← writeBlockEntries dense indent rest))

end

/-- The YAML text of a document; `dense` writes collections of scalars between brackets. A plain
scalar that is a whole document is followed by a mark for its end. -/
def write (dense : Bool) (d : Document) : Except Json.WriteFault (List Char) := do
  let text ← writeBlock dense 0 d
  match d with
  | .scalar s =>
    let written ← writeScalar false 0 s
    pure (text ++ if written.style = .plain then "\n...\n".toList else ['\n'])
  | _ => pure (text ++ ['\n'])

/-- The YAML text of a document that does not contain itself. What is shared is written out in every
place. -/
def writeGraph (dense : Bool) (document : Graph Empty) : Except Text (List Char) :=
  if document.isFinite then (write dense document.tree).mapError Json.WriteFault.message
  else .error "no text for a document that contains itself"

/-- The small library, as one that the program can be given. -/
def library : YamlLibrary where
  read octets :=
    match read octets with
    | .ok document => .ok document
    | .error (.breakdown cause) => .error (.breakdown cause.message)
    | .error fault => .error (.refused fault.message)
  write := writeGraph

end NamedSchemas.Yaml
