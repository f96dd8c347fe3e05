import NamedSchemas.Yaml.Fault
/-!
# Reading positions in YAML text

A cursor stands in a text and knows the column, because indentation carries meaning, and line and
offset, because a key must end close to where it starts.
-/

namespace NamedSchemas.Yaml

def isBreak (c : Char) : Bool :=
  c == '\n' || c == '\r' || c == '\u0085' || c == '\u2028' || c == '\u2029'

def isBlankOrBreak (c : Char) : Bool := c == ' ' || c == '\t' || isBreak c

/-- Can a text hold the character as it is? -/
def isPermitted (c : Char) : Bool :=
  c == '\t' || c == '\n' || c == '\r' || ('\x20' ≤ c && c ≤ '\x7e') || c == '\u0085' ||
    ('\u00a0' ≤ c && c.toNat ≤ 0xFFFD) || 0x10000 ≤ c.toNat

/-- What is wrong where a text must go on in another way: it ends, or other characters stand
there. -/
def unexpected (rest : List Char) : Fault := if rest.isEmpty then .unfinished else .malformed

structure Cursor where
  /-- The text from here on. -/
  rest : List Char
  column : Nat
  line : Nat
  offset : Nat
  /-- A bound on the steps of any reading of the text: more than its length. -/
  bound : Nat

namespace Cursor

/-- The position in front of a text. A byte order mark at its very start is passed over. -/
def start (cs : List Char) : Cursor :=
  match cs with
  | '\uFEFF' :: rest => ⟨rest, 0, 0, 1, cs.length + 2⟩
  | _ => ⟨cs, 0, 0, 0, cs.length + 2⟩

def peek (c : Cursor) : Option Char := c.rest.head?

def peekAt (c : Cursor) (n : Nat) : Option Char := c.rest[n]?

/-- One character further. A byte order mark takes no column. -/
def next (c : Cursor) : Cursor :=
  match c.rest with
  | [] => c
  | ch :: rest =>
    if isBreak ch then
      { c with rest := rest, column := 0, line := c.line + 1, offset := c.offset + 1 }
    else
      let column := if ch = '\uFEFF' then c.column else c.column + 1
      { c with rest := rest, column := column, offset := c.offset + 1 }

def skip : Nat → Cursor → Cursor
  | 0, c => c
  | n + 1, c => skip n c.next

def span (p : Char → Bool) (c : Cursor) : List Char := c.rest.takeWhile p

def skipWhile (p : Char → Bool) (c : Cursor) : Cursor := c.skip (c.span p).length

def atLineEnd (c : Cursor) : Bool := c.peek.all isBreak

/-- Is the end of the text, the end of a line or a blank `n` places further? -/
def blankAt (c : Cursor) (n : Nat) : Bool := (c.peekAt n).all isBlankOrBreak

def isAt (c : Cursor) (ch : Char) : Bool := c.peek = some ch

/-- Do three of a character and a blank stand here? -/
def atMark (c : Cursor) (ch : Char) : Bool :=
  [ch, ch, ch].isPrefixOf c.rest && c.blankAt 3

/-- Does a mark that starts or ends a document stand here? It counts at the start of a line. -/
def atDocumentMark (c : Cursor) : Bool := c.atMark '-' || c.atMark '.'

/-- The character that the end of a line denotes. -/
def breakChar (ch : Char) : Char := if ch = '\u2028' ∨ ch = '\u2029' then ch else '\n'

end Cursor

end NamedSchemas.Yaml
