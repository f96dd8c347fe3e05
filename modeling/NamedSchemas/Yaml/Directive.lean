import NamedSchemas.Yaml.Tag
/-!
# Directives of YAML text

Lines in front of a document that tell the version of the language or name a family of tags. Lines
of other kinds are passed over.
-/

namespace NamedSchemas.Yaml

/-- A line about the text in front of a document. -/
inductive Directive where
  | version (major : Nat)
  | family (f : TagFamily)
  /-- A line of another kind. -/
  | other
  deriving DecidableEq

namespace Directive

def skipBlanks (c : Cursor) : Cursor := c.skipWhile (· == ' ')

def endsWord (c : Cursor) : Bool := c.peek.all fun ch => ch == ' ' || isBreak ch

def readNumber (c : Cursor) : Except Fault (Nat × Cursor) :=
  match c.span Numeral.isDecimal with
  | [] => .error (unexpected c.rest)
  | ds =>
    if ds.length ≤ Numeral.digitLimit then .ok (Numeral.value 10 ds, c.skip ds.length)
    else .error (.longInteger ds.length)

def readVersion (c : Cursor) : Except Fault (Directive × Cursor) := do
  let (major, c) ← readNumber (skipBlanks c)
  if c.isAt '.' then
    let (_, c) ← readNumber c.next
    if endsWord c then pure (.version major, c) else .error .malformed
  else .error (unexpected c.rest)

/-- Reads a family of tags: its handle and what the full names of its tags start with. -/
def readFamily (c : Cursor) : Except Fault (Directive × Cursor) := do
  let c := skipBlanks c
  let handle ← TagFamily.readHandle c.rest
  let c := c.skip handle.length
  if c.isAt ' ' then
    let c := skipBlanks c
    let (name, length) ← TagMark.readName c.rest
    let c := c.skip length
    if endsWord c then pure (.family ⟨handle, name⟩, c) else .error .malformed
  else .error (unexpected c.rest)

def readContent (kind : List Char) (c : Cursor) : Except Fault (Directive × Cursor) :=
  if kind = "YAML".toList then readVersion c
  else if kind = "TAG".toList then readFamily c
  else .ok (.other, c.skipWhile fun ch => !isBreak ch)

/-- Reads a directive from after its percent sign up to the next line. A comment may end it. -/
def read (c : Cursor) : Except Fault (Directive × Cursor) := do
  let kind := c.span TagFamily.isHandleChar
  let c := c.skip kind.length
  if kind.isEmpty || !endsWord c then .error (unexpected c.rest)
  else
    let (directive, c) ← readContent kind c
    let c := skipBlanks c
    let c := if c.isAt '#' then c.skipWhile fun ch => !isBreak ch else c
    if c.atLineEnd then pure (directive, c.next) else .error .malformed

def major? : Directive → Option Nat
  | .version major => some major
  | _ => none

def handle? : Directive → Option (List Char)
  | .family f => some f.handle
  | _ => none

/-- Can the directives stand together? One version at most is told, which must be a first one, and
every family is named once. -/
def areConsistent (directives : List Directive) : Bool :=
  (directives.filterMap major?).length ≤ 1 && (directives.filterMap major?).all (· == 1) &&
    (directives.filterMap handle?).Nodup

end Directive

end NamedSchemas.Yaml
