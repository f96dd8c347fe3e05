/-!
# Binary floating point numbers

The numbers of the 64-bit binary format. A finite number is a sign and its rank among the finite
magnitudes, counted from zero: the next rank is the next representable magnitude. All magnitudes are
multiples of the least positive one, so they are compared and rounded as natural numbers.
-/

-- Powers are those of the core library, also where a library with powers of its own is imported.
attribute [default_instance 20000, instance (2000)] instPowNat

namespace NamedSchemas

/-- How many finite magnitudes there are: 2047 exponents with 52 fraction bits each. -/
abbrev Binary64.finiteRanks : Nat := 2047 * 2 ^ 52

/-- A number of the 64-bit binary format; all NaNs are one. -/
inductive Binary64 where
  | nan
  | infinite (negative : Bool)
  | finite (negative : Bool) (rank : Fin Binary64.finiteRanks)
  deriving DecidableEq

namespace Binary64

/-- How many least positive magnitudes make one. -/
def unitsPerOne : Nat := 2 ^ 1074

/-- The magnitude of a rank in least positive magnitudes: the fraction alone below the first
exponent, and above it the fraction with its leading one, doubled per exponent. -/
def units (rank : Nat) : Nat :=
  if rank < 2 ^ 52 then rank else (2 ^ 52 + rank % 2 ^ 52) * 2 ^ (rank / 2 ^ 52 - 1)

/-- The last rank whose magnitude is at most `n` units. -/
def rankBelow (n : Nat) : Nat :=
  let e := n.log2 - 52
  if n < 2 ^ 53 then n else e * 2 ^ 52 + n / 2 ^ e

/-- The rank nearest to the magnitude `num / den` units; of two equally near the even one. -/
def nearestRank (num den : Nat) : Nat :=
  let lower := rankBelow (num / den)
  let middle := (units lower + units (lower + 1)) * den
  if 2 * num < middle then lower
  else if middle < 2 * num then lower + 1
  else lower + lower % 2

def ofRank (negative : Bool) (rank : Nat) : Binary64 :=
  if h : rank < finiteRanks then .finite negative ⟨rank, h⟩ else .infinite negative

def ofQuotient (negative : Bool) (num den : Nat) : Binary64 :=
  ofRank negative (nearestRank (num * unitsPerOne) den)

/-- The number nearest to `digits * 10 ^ exponent`. Exponents so large or so small that the result
is settled are not computed with. -/
def ofDecimal (negative : Bool) (digits : Nat) (exponent : Int) : Binary64 :=
  let magnitude : Int := digits.log2 / 4 + exponent
  if digits = 0 then .ofRank negative 0
  else if 0 ≤ exponent then
    if 400 < magnitude then .infinite negative
    else ofQuotient negative (digits * 10 ^ exponent.toNat) 1
  else if (digits.log2 : Int) + 1 + exponent < -400 then .ofRank negative 0
  else ofQuotient negative digits (10 ^ (-exponent).toNat)

/-- The magnitude of a finite number in units, with its sign. -/
def signedUnits (negative : Bool) (rank : Nat) : Int :=
  if negative then -(units rank : Int) else units rank

/-- Do two numbers denote the same quantity? Zero has two signs, and NaN denotes none. -/
def sameQuantity : Binary64 → Binary64 → Bool
  | .infinite m, .infinite n => m == n
  | .finite m i, .finite n j => i == j && (m == n || i.val == 0)
  | _, _ => false

def isInteger (x : Binary64) (n : Int) : Bool :=
  match x with
  | .finite negative rank => signedUnits negative rank == n * unitsPerOne
  | _ => false

/-! ## Arithmetic -/

def negated : Binary64 → Binary64
  | .nan => .nan
  | .infinite negative => .infinite (!negative)
  | .finite negative rank => .finite (!negative) rank

/-- The number nearest to a signed magnitude in units. Zero comes out without a sign. -/
def ofSignedUnits (n : Int) : Binary64 := ofRank (n < 0) (nearestRank n.natAbs 1)

/-- The sum of two numbers, rounded once. -/
def add : Binary64 → Binary64 → Binary64
  | .finite m i, .finite n j =>
    -- two zeros have a negative sum only when both are negative
    if i.val = 0 ∧ j.val = 0 then ofRank (m && n) 0
    else ofSignedUnits (signedUnits m i + signedUnits n j)
  | .infinite m, .infinite n => if m = n then .infinite m else .nan
  | .infinite m, .finite _ _ => .infinite m
  | .finite _ _, .infinite n => .infinite n
  | _, _ => .nan

/-- The product of two numbers, rounded once. -/
def mul : Binary64 → Binary64 → Binary64
  | .finite m i, .finite n j => ofRank (m != n) (nearestRank (units i * units j) unitsPerOne)
  | .infinite m, .infinite n => .infinite (m != n)
  | .infinite m, .finite n j => if j.val = 0 then .nan else .infinite (m != n)
  | .finite m i, .infinite n => if i.val = 0 then .nan else .infinite (m != n)
  | _, _ => .nan

def ofNat (n : Nat) : Binary64 := ofQuotient false n 1

end Binary64

end NamedSchemas
