/-!
# Text as code points

Keys, names and string values of a document are sequences of Unicode code points. A code point may
be a surrogate, because the escape of half a pair denotes one, so `Char` is too small a type.
-/

namespace NamedSchemas

/-- A Unicode code point, surrogates included. -/
structure CodePoint where
  toNat : Nat
  /-- Code points end at U+10FFFF. -/
  lt : toNat < 0x110000
  deriving DecidableEq

namespace CodePoint

def ofChar (c : Char) : CodePoint :=
  ⟨c.toNat, by have h := c.valid; simp only [UInt32.isValidChar, Nat.isValidChar] at h
               change c.val.toNat < 0x110000; omega⟩

instance : Coe Char CodePoint := ⟨ofChar⟩

def ofNat? (n : Nat) : Option CodePoint :=
  if h : n < 0x110000 then some ⟨n, h⟩ else none

def toChar? (p : CodePoint) : Option Char :=
  if p.toNat.isValidChar then some (Char.ofNat p.toNat) else none

/-- The first half of a surrogate pair. -/
def isHighSurrogate (p : CodePoint) : Bool := 0xD800 ≤ p.toNat && p.toNat < 0xDC00

/-- The second half of a surrogate pair. -/
def isLowSurrogate (p : CodePoint) : Bool := 0xDC00 ≤ p.toNat && p.toNat < 0xE000

def isSurrogate (p : CodePoint) : Bool := p.isHighSurrogate || p.isLowSurrogate

def isDigit (p : CodePoint) : Bool := 0x30 ≤ p.toNat && p.toNat ≤ 0x39

def isUpper (p : CodePoint) : Bool := 0x41 ≤ p.toNat && p.toNat ≤ 0x5A

def isLower (p : CodePoint) : Bool := 0x61 ≤ p.toNat && p.toNat ≤ 0x7A

def isAlnum (p : CodePoint) : Bool := p.isDigit || p.isUpper || p.isLower

end CodePoint

/-- A sequence of code points. -/
abbrev Text := List CodePoint

instance : LawfulBEq Text := inferInstance

namespace Text

def ofChars (cs : List Char) : Text := cs.map CodePoint.ofChar

def ofString (s : String) : Text := ofChars s.toList

instance : Coe String Text := ⟨ofString⟩

/-- The characters of a text, surrogates left out. -/
def toChars (t : Text) : List Char := t.filterMap CodePoint.toChar?

/-- The string of a text, surrogates left out. -/
def asString (t : Text) : String := String.ofList t.toChars

/-- Cuts a text at every `separator`; a text without one is a single part. -/
def split (separator : CodePoint) : Text → List Text
  | [] => [[]]
  | c :: rest =>
    if c = separator then [] :: split separator rest
    else match split separator rest with
      | [] => [[c]]
      | part :: parts => (c :: part) :: parts

/-- Puts a separator between the parts. -/
def join (separator : Text) (parts : List Text) : Text := separator.intercalate parts

def startsWith (beginning t : Text) : Bool := beginning.isPrefixOf t

def endsWith (ending t : Text) : Bool := ending.isSuffixOf t

end Text

end NamedSchemas
