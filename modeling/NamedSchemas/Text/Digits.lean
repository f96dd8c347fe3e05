import NamedSchemas.Text.Basic
/-!
# Decimal digits of all scripts

A script may have decimal digits of its own. They are ten code points in a row, so that a digit is
known by the zero of its row. Where numbers are read, a digit of any script counts, and so does any
blank around the number.
-/

namespace NamedSchemas.CodePoint

/-- The zeros of the rows of decimal digits, in ascending order. -/
def digitZeros : List Nat := [
  0x30, 0x660, 0x6F0, 0x7C0, 0x966, 0x9E6, 0xA66, 0xAE6, 0xB66, 0xBE6, 0xC66, 0xCE6, 0xD66, 0xDE6,
  0xE50, 0xED0, 0xF20, 0x1040, 0x1090, 0x17E0, 0x1810, 0x1946, 0x19D0, 0x1A80, 0x1A90, 0x1B50,
  0x1BB0, 0x1C40, 0x1C50, 0xA620, 0xA8D0, 0xA900, 0xA9D0, 0xA9F0, 0xAA50, 0xABF0, 0xFF10, 0x104A0,
  0x10D30, 0x11066, 0x110F0, 0x11136, 0x111D0, 0x112F0, 0x11450, 0x114D0, 0x11650, 0x116C0,
  0x11730, 0x118E0, 0x11950, 0x11C50, 0x11D50, 0x11DA0, 0x16A60, 0x16AC0, 0x16B50, 0x1D7CE,
  0x1D7D8, 0x1D7E2, 0x1D7EC, 0x1D7F6, 0x1E140, 0x1E2F0, 0x1E950, 0x1FBF0]

/-- The value of a decimal digit of any script. -/
def decimalValue? (p : CodePoint) : Option Nat :=
  (digitZeros.find? fun first => first ≤ p.toNat && p.toNat < first + 10).map (p.toNat - ·)

def isDecimalDigit (p : CodePoint) : Bool := p.decimalValue?.isSome

def wideBlanks : List Nat := [
  0x85, 0xA0, 0x1680, 0x2000, 0x2001, 0x2002, 0x2003, 0x2004, 0x2005, 0x2006, 0x2007, 0x2008,
  0x2009, 0x200A, 0x2028, 0x2029, 0x202F, 0x205F, 0x3000]

end NamedSchemas.CodePoint

namespace NamedSchemas.Text

/-- The character that a code point counts as where a number is read: a digit of any script as the
ASCII one, a blank beyond ASCII as a space, and everything else beyond ASCII as a question mark,
which no number holds. -/
def numericChar (p : CodePoint) : Char :=
  if p.toNat < 0x80 then Char.ofNat p.toNat
  else if p.toNat ∈ CodePoint.wideBlanks then ' '
  else match p.decimalValue? with
    | some d => Char.ofNat (0x30 + d)
    | none => '?'

def numericChars (t : Text) : List Char := t.map numericChar

end NamedSchemas.Text
