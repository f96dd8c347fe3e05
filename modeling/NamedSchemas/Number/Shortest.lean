import NamedSchemas.Number.Binary64
import NamedSchemas.Text.Decimal
/-!
# Shortest decimals

A finite magnitude is written with the fewest significant digits that read back as the same number
and, among those, with the nearest. A candidate is only chosen after it has been read back, and when
no candidate is found the exact decimal expansion is written, so what is written always reads back.
-/

namespace NamedSchemas.Binary64

/-- A decimal magnitude `digits * 10 ^ exponent`. -/
structure Decimal where
  digits : Nat
  exponent : Int
  deriving DecidableEq

/-- Does the decimal read back as the magnitude of this rank? -/
def Decimal.readsAs (d : Decimal) (rank : Nat) : Bool :=
  match ofDecimal false d.digits d.exponent with
  | .finite _ r => r.val == rank
  | _ => false

/-- Is the magnitude of this rank below `10 ^ k`? -/
def isBelowPower (rank : Nat) (k : Int) : Bool :=
  if 0 ≤ k then units rank < unitsPerOne * 10 ^ k.toNat
  else units rank * 10 ^ (-k).toNat < unitsPerOne

/-- The least `k` with the magnitude below `10 ^ k`, for a positive magnitude. The binary exponent
leaves three of them. -/
def decimalScale (rank : Nat) : Int :=
  -- 1233 / 4096 is a little less than the decimal logarithm of two
  let least := ((units rank).log2 - 1074 : Int) * 1233 / 4096
  if isBelowPower rank least then least
  else if isBelowPower rank (least + 1) then least + 1
  else least + 2

/-- The magnitude over `10 ^ exponent` as a quotient. -/
def scaledQuotient (rank : Nat) (exponent : Int) : Nat × Nat :=
  if 0 ≤ exponent then (units rank, unitsPerOne * 10 ^ exponent.toNat)
  else (units rank * 10 ^ (-exponent).toNat, unitsPerOne)

/-- The nearest multiple of `10 ^ exponent` that reads back, if there is one: of the two neighbours
on the grid the nearer, and on a tie the even one, provided that it reads back. -/
def nearestOn (exponent : Int) (rank : Nat) : Option Decimal :=
  let (num, den) := scaledQuotient rank exponent
  let lower := num / den
  let upperFirst := 2 * (num % den) > den || (2 * (num % den) == den && lower % 2 == 1)
  let candidates := if upperFirst then [lower + 1, lower] else [lower, lower + 1]
  (candidates.map fun d => Decimal.mk d exponent).find? (·.readsAs rank)

def exactDecimal (rank : Nat) : Decimal := ⟨units rank * 5 ^ 1074, -1074⟩

/-- The shortest decimal of a rank. Seventeen digits tell all magnitudes apart. -/
def shortestDecimal (rank : Nat) : Decimal :=
  let scale := decimalScale rank
  let shortest := (List.range 17).findSome? fun (n : Nat) => nearestOn (scale - (n + 1)) rank
  shortest.getD (exactDecimal rank)

/-- Significant digits without zeros at the end, and how many of them stand before the point. -/
def Decimal.significant (d : Decimal) : List Char × Int :=
  let ds := Numeral.natural d.digits
  ((ds.reverse.dropWhile (· == '0')).reverse, ds.length + d.exponent)

/-- The text of a decimal exponent: a sign and at least two digits. -/
def exponentText (e : Int) : List Char :=
  (if e < 0 then '-' else '+') :: Numeral.padded 10 2 e.natAbs

/-- The text of a positive magnitude: positional from a ten-thousandth up to sixteen digits before
the point, always with a point; with an exponent otherwise. -/
def magnitudeText (rank : Nat) : List Char :=
  let (ds, point) := (shortestDecimal rank).significant
  if -4 < point ∧ point ≤ 16 then
    if point ≤ 0 then "0.".toList ++ List.replicate (-point).toNat '0' ++ ds
    else
      let whole := ds.take point.toNat ++ List.replicate (point.toNat - ds.length) '0'
      let rest := ds.drop point.toNat
      whole ++ '.' :: (if rest.isEmpty then ['0'] else rest)
  else
    let fraction := match ds.drop 1 with
      | [] => []
      | rest => '.' :: rest
    ds.take 1 ++ fraction ++ 'e' :: exponentText (point - 1)

def finiteText (negative : Bool) (rank : Nat) : List Char :=
  (if negative then ['-'] else []) ++ if rank = 0 then "0.0".toList else magnitudeText rank

structure Spelling where
  nan : String
  infinity : String
  negativeInfinity : String

def text (spelling : Spelling) : Binary64 → List Char
  | .nan => spelling.nan.toList
  | .infinite false => spelling.infinity.toList
  | .infinite true => spelling.negativeInfinity.toList
  | .finite negative rank => finiteText negative rank

end NamedSchemas.Binary64
