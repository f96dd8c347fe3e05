import NamedSchemas.Text.Basic
/-!
# Numerals

Natural numbers and integers as digits of a base, most significant digit first, and the number that
a list of digits denotes.
-/

namespace NamedSchemas.Numeral

/-- How many decimal digits an integer may have where one is read or written. -/
def digitLimit : Nat := 4300

def digitChar (d : Nat) : Char :=
  if d < 10 then Char.ofNat (0x30 + d) else Char.ofNat (0x57 + d)

/-- The value of a digit character in bases up to 36, letters in either case. -/
def digitValue? (c : Char) : Option Nat :=
  if '0' ≤ c ∧ c ≤ '9' then some (c.toNat - 0x30)
  else if 'a' ≤ c ∧ c ≤ 'z' then some (c.toNat - 0x57)
  else if 'A' ≤ c ∧ c ≤ 'Z' then some (c.toNat - 0x37)
  else none

def isDecimal (c : Char) : Bool := '0' ≤ c && c ≤ '9'

def isHex (c : Char) : Bool := isDecimal c || ('a' ≤ c && c ≤ 'f') || ('A' ≤ c && c ≤ 'F')

/-- Puts the digits of `n` in front of `rest`; `fuel` bounds their number. -/
def digitsOnto (base : Nat) : Nat → Nat → List Char → List Char
  | 0, _, rest => rest
  | fuel + 1, n, rest =>
    let rest := digitChar (n % base) :: rest
    if n / base = 0 then rest else digitsOnto base fuel (n / base) rest

/-- The digits of a number in a base of at least two. A number has no more digits than its binary
logarithm plus one. -/
def digits (base n : Nat) : List Char := digitsOnto base (n.log2 + 1) n []

def natural (n : Nat) : List Char := digits 10 n

def integer (i : Int) : List Char :=
  if i < 0 then '-' :: natural i.natAbs else natural i.natAbs

/-- A number in a base, with zeros in front up to the width. -/
def padded (base width n : Nat) : List Char :=
  let ds := digits base n
  List.replicate (width - ds.length) '0' ++ ds

/-- The number that a list of digits denotes; characters that are no digits count as zero. -/
def value (base : Nat) (ds : List Char) : Nat :=
  ds.foldl (fun n c => n * base + (digitValue? c).getD 0) 0

/-- The digits of a number in upper-case hexadecimal, padded to the width. -/
def upperHex (width n : Nat) : List Char := (padded 16 width n).map Char.toUpper

def lowerHex (width n : Nat) : List Char := padded 16 width n

end NamedSchemas.Numeral
