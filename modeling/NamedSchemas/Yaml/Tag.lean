import NamedSchemas.Text.Utf8
import NamedSchemas.Yaml.Cursor
import NamedSchemas.Yaml.Scalar
/-!
# Tags of YAML text

The tag in front of a node. The kinds of the language follow two exclamation marks, or are named in
full between angle brackets; a lone exclamation mark asks for the kind that a plain scalar shows.
-/

namespace NamedSchemas.Yaml

inductive TagMark where
  /-- A kind that was given by name. -/
  | named (tag : Tag)
  /-- The kind is that of a plain scalar. -/
  | plain
  /-- A kind whose family has no meaning. -/
  | undefined
  deriving DecidableEq

/-- A family of tags: how it is referred to, and what the full names of its tags start with. -/
structure TagFamily where
  handle : List Char
  name : List Char
  deriving DecidableEq

namespace TagFamily

/-- The kinds of the language. -/
def standard : TagFamily := ⟨['!', '!'], "tag:yaml.org,2002:".toList⟩

/-- Kinds that are known to the writer of the text only. -/
def own : TagFamily := ⟨['!'], ['!']⟩

def isHandleChar (c : Char) : Bool := c.isAlphanum || c == '-' || c == '_'

/-- Reads a handle: a lone exclamation mark before a blank, or two with a word between them. -/
def readHandle (cs : List Char) : Except Fault (List Char) :=
  match cs with
  | '!' :: rest =>
    let word := rest.takeWhile isHandleChar
    if rest.head? = some ' ' then .ok ['!']
    else if rest[word.length]? = some '!' then .ok ('!' :: word ++ ['!'])
    else .error (unexpected (rest.drop word.length))
  | _ => .error (unexpected cs)

end TagFamily

namespace TagMark

/-- The tag that a full name denotes. -/
def ofFullName (name : List Char) : TagMark :=
  let start := TagFamily.standard.name
  if name = ['!'] then .plain
  else if start.isPrefixOf name then .named (.ofName (String.ofList (name.drop start.length)))
  else .named .unknown

/-- The tag of a family with this handle. -/
def ofFamily (families : List TagFamily) (handle name : List Char) : TagMark :=
  match (families ++ [TagFamily.standard, TagFamily.own]).find? fun f => f.handle = handle with
  | some f => ofFullName (f.name ++ name)
  | none => .undefined

def isNameChar (c : Char) : Bool := c.isAlphanum || c ∈ "-;/?:@&=+$,_.!~*'()[]%".toList

/-- The octets of a name, in which any may be written as two hexadecimal digits after a percent
sign. -/
def octets? : List Char → Option (List UInt8)
  | [] => some []
  | '%' :: a :: b :: rest =>
    if Numeral.isHex a && Numeral.isHex b then
      (UInt8.ofNat (Numeral.value 16 [a, b]) :: ·) <$> octets? rest
    else none
  | c :: rest => if c = '%' then none else (UInt8.ofNat c.toNat :: ·) <$> octets? rest

def readName (cs : List Char) : Except Fault (List Char × Nat) :=
  let written := cs.takeWhile isNameChar
  match (octets? written).map Utf8.decode with
  | some (.ok (c :: name)) => .ok (c :: name, written.length)
  | _ => .error (unexpected (cs.drop written.length))

/-- Does the tag name its family, and not only a kind? -/
def namesFamily (cs : List Char) : Bool :=
  ((cs.drop 1).takeWhile fun c => c ≠ ' ' && !isBreak c).contains '!'

/-- Reads a tag from its exclamation mark on; gives it and how many characters it takes. The
families are those that are known besides the standard ones. -/
def read (families : List TagFamily) (cs : List Char) : Except Fault (TagMark × Nat) :=
  if (cs[1]?).all isBlankOrBreak then .ok (.plain, 1)
  else if cs[1]? = some '<' then do
    let (name, length) ← readName (cs.drop 2)
    if cs[2 + length]? = some '>' then pure (ofFullName name, length + 3)
    else .error (unexpected (cs.drop (2 + length)))
  else do
    let handle ← if namesFamily cs then TagFamily.readHandle cs else pure TagFamily.own.handle
    let (name, length) ← readName (cs.drop handle.length)
    pure (ofFamily families handle name, handle.length + length)

end TagMark

end NamedSchemas.Yaml
