import NamedSchemas.Text.Digits
import NamedSchemas.Text.Lower
import NamedSchemas.Time.Timestamp
import NamedSchemas.Value.Basic
import NamedSchemas.Yaml.Fault
/-!
# Scalars of YAML text

Which kind a scalar is of when it is written without quotes, and the value that a scalar of a kind
denotes. The kinds are those of YAML 1.1, where `yes` is true, `0777` is octal and `1:30` is ninety.
-/

namespace NamedSchemas.Yaml

inductive Tag where
  | text
  | int
  | float
  | bool
  | null
  | timestamp
  | list
  | map
  /-- A list of maps of one entry each, which denotes a list of pairs. -/
  | pairs
  /-- The lone equals sign, which stands for a default value. -/
  | defaultValue
  /-- The mark in the place of a key whose entries are those of other maps. -/
  | merge
  /-- A kind that no document has. -/
  | unknown
  deriving DecidableEq

def Tag.ofName (name : String) : Tag :=
  match name with
  | "str" => .text
  | "int" => .int
  | "float" => .float
  | "bool" => .bool
  | "null" => .null
  | "timestamp" => .timestamp
  | "seq" => .list
  | "map" => .map
  | "pairs" => .pairs
  | "omap" => .pairs
  | "value" => .defaultValue
  | "merge" => .merge
  | _ => .unknown

def trueWords : List String := ["yes", "Yes", "YES", "true", "True", "TRUE", "on", "On", "ON"]

def falseWords : List String := ["no", "No", "NO", "false", "False", "FALSE", "off", "Off", "OFF"]

/-- The words for nothing; nothing at all is one of them. -/
def nullWords : List String := ["", "~", "null", "Null", "NULL"]

def nanWords : List String := [".nan", ".NaN", ".NAN"]

def infinityWords : List String := [".inf", ".Inf", ".INF"]

def isWord (words : List String) (cs : List Char) : Bool := words.any fun w => w.toList == cs

/-- The text after a sign, if it has one. -/
def unsigned : List Char → List Char
  | '-' :: rest => rest
  | '+' :: rest => rest
  | cs => cs

/-- Is there something, and is all of it digits of a class or underscores? -/
def isRun (digit : Char → Bool) (cs : List Char) : Bool :=
  !cs.isEmpty && cs.all fun c => digit c || c == '_'

/-- A decimal digit followed by digits and underscores. -/
def isGrouped (cs : List Char) : Bool :=
  (cs.head?.any Numeral.isDecimal) && isRun Numeral.isDecimal cs

/-- A number below sixty in one or two digits. -/
def isSexagesimal : List Char → Bool
  | [c] => Numeral.isDecimal c
  | [c, d] => '0' ≤ c && c ≤ '5' && Numeral.isDecimal d
  | _ => false

def colonParts (cs : List Char) : List (List Char) :=
  cs.foldr (fun c parts => if c = ':' then [] :: parts else match parts with
    | [] => [[c]]
    | part :: parts => (c :: part) :: parts) [[]]

/-- Is a text without sign an integer in base sixty? -/
def isColonInt (cs : List Char) : Bool :=
  match colonParts cs with
  | first :: second :: rest =>
    isGrouped first && first.head? != some '0' && (second :: rest).all isSexagesimal
  | _ => false

def isInt (cs : List Char) : Bool :=
  match unsigned cs with
  | '0' :: 'b' :: rest => isRun (fun c => c == '0' || c == '1') rest
  | '0' :: 'x' :: rest => isRun Numeral.isHex rest
  | '0' :: rest => rest.isEmpty || isRun (fun c => '0' ≤ c && c ≤ '7') rest
  | cs => isGrouped cs || isColonInt cs

/-- Is the text an exponent with its sign, or nothing? -/
def isExponent : List Char → Bool
  | [] => true
  | e :: sign :: ds =>
    (e == 'e' || e == 'E') && (sign == '-' || sign == '+') && !ds.isEmpty &&
      ds.all Numeral.isDecimal
  | _ => false

def isDigitOrMark (c : Char) : Bool := Numeral.isDecimal c || c == '_'

/-- Is a text without sign a number with a point? -/
def isPointed (cs : List Char) : Bool :=
  match cs.dropWhile isDigitOrMark with
  | '.' :: rest =>
    isGrouped (cs.takeWhile isDigitOrMark) && isExponent (rest.dropWhile isDigitOrMark)
  | _ => false

/-- Is a text without sign a number in base sixty with a point? -/
def isColonFloat (cs : List Char) : Bool :=
  let whole := cs.takeWhile (· != '.')
  match cs.dropWhile (· != '.') with
  | '.' :: rest => rest.all isDigitOrMark &&
      match colonParts whole with
      | first :: second :: more => isGrouped first && (second :: more).all isSexagesimal
      | _ => false
  | _ => false

def isFloat (cs : List Char) : Bool :=
  isPointed (unsigned cs) || isColonFloat (unsigned cs) || isWord infinityWords (unsigned cs) ||
    isWord nanWords cs ||
    match cs with
    | '.' :: rest => isGrouped (rest.takeWhile isDigitOrMark) &&
        isExponent (rest.dropWhile isDigitOrMark)
    | _ => false

def chars? (t : Text) : Option (List Char) := t.mapM CodePoint.toChar?

/-- A text without the line feed that may end it. -/
def withoutLineFeed (t : Text) : Text := if Text.endsWith "\n" t then t.dropLast else t

/-- The words that a lone mark of the language would be. -/
def markWords : List String := ["!", "&", "*"]

/-- The kind of a text as it shows. -/
def shownKind (cs : List Char) : Tag :=
  if isWord (trueWords ++ falseWords) cs then .bool
  else if isWord nullWords cs then .null
  else if isFloat cs then .float
  else if isInt cs then .int
  else if Timestamp.isWritten cs then .timestamp
  else if cs = ['='] then .defaultValue
  else if cs = ['<', '<'] then .merge
  else if isWord markWords cs then .unknown
  else .text

/-- The kind of a scalar that is written without quotes and without a tag. A line feed at the end
does not count, unless it is all there is. -/
def resolve (t : Text) : Tag :=
  if t = Text.ofString "\n" then .text
  else ((chars? (withoutLineFeed t)).map shownKind).getD .text

/-- Is the character blank at the ends of a number? -/
def isPadding (c : Char) : Bool := c == ' ' || ('\t' ≤ c && c ≤ '\r')

def trimmed (cs : List Char) : List Char :=
  ((cs.dropWhile isPadding).reverse.dropWhile isPadding).reverse

/-- The letter that may stand after a zero in front of digits of a base. -/
def baseLetters (base : Nat) : List Char :=
  if base = 2 then ['b', 'B'] else if base = 8 then ['o', 'O'] else if base = 16 then ['x', 'X']
  else []

/-- Digits of a base after the mark of the base, if it is there. -/
def unmarked (base : Nat) (cs : List Char) : List Char :=
  match cs with
  | '0' :: letter :: rest => if letter ∈ baseLetters base then rest else cs
  | cs => cs

def isDigitOf (base : Nat) (c : Char) : Bool := (Numeral.digitValue? c).any fun d => d < base

/-- The integer of a literal in a base. Digits of every script count. In base ten there is a limit
on the digits, which is checked before what follows them. -/
def integerIn (base : Nat) (t : Text) : Except Fault Int :=
  let inner := trimmed t.numericChars
  -- the mark of the base may stand there a second time, as in 0b0b1
  let ds := unmarked base (unsigned inner)
  let run := ds.takeWhile (isDigitOf base)
  if base = 10 ∧ Numeral.digitLimit < run.length then .error (.longInteger run.length)
  else if run.isEmpty ∨ run.length < ds.length then .error (.integer base t)
  else
    let n : Int := Numeral.value base ds
    .ok (if inner.head? = some '-' then -n else n)

/-- The number of parts in base sixty, most significant first. -/
def inBaseSixty (parts : List Int) : Int := parts.foldl (fun n part => n * 60 + part) 0

/-- The integer of a literal without sign; a leading zero marks another base than ten. -/
def unsignedInteger (t : Text) : Except Fault Int :=
  if t.isEmpty then .error (.breakdown .noCharacters)
  else if t = Text.ofString "0" then .ok 0
  else if Text.startsWith "0b" t then integerIn 2 (t.drop 2)
  else if Text.startsWith "0x" t then integerIn 16 (t.drop 2)
  else if Text.startsWith "0" t then integerIn 8 t
  else if CodePoint.ofChar ':' ∈ t then inBaseSixty <$> (t.split ':').mapM (integerIn 10)
  else integerIn 10 t

/-- A literal without its underscores, as whether it is negative and the text after its sign. There
must be something. -/
def signAndRest (t : Text) : Except Fault (Bool × Text) :=
  match t.filter fun p => p ≠ CodePoint.ofChar '_' with
  | [] => .error (.breakdown .noCharacters)
  | p :: rest =>
    if p = '-' then .ok (true, rest)
    else if p = '+' then .ok (false, rest)
    else .ok (false, p :: rest)

def integer (t : Text) : Except Fault Int := do
  let (negative, body) ← signAndRest t
  let n ← unsignedInteger body
  pure (if negative then -n else n)

/-- The floating point number of a decimal literal. Digits of every script count. -/
def decimal (t : Text) : Except Fault Binary64 :=
  let inner := trimmed t.numericChars
  let negative := inner.head? = some '-'
  let body := unsigned inner
  let whole := body.takeWhile Numeral.isDecimal
  let rest := body.dropWhile Numeral.isDecimal
  let (fraction, rest) := match rest with
    | '.' :: rest => (rest.takeWhile Numeral.isDecimal, rest.dropWhile Numeral.isDecimal)
    | rest => ([], rest)
  let (exponent, rest) := Json.readExponent rest
  if isWord ["inf", "infinity"] body then .ok (.infinite negative)
  else if isWord ["nan"] body then .ok .nan
  else if (whole ++ fraction).isEmpty || !rest.isEmpty then .error (.float t)
  else .ok (Binary64.ofDecimal negative (Numeral.value 10 (whole ++ fraction))
    (exponent.getD 0 - fraction.length))

/-- Adds numbers in base sixty to a sum, least significant first, with rounding at every step;
`power` is the value of the place of the first of them. -/
def addInBaseSixty (power : Nat) (sum : Binary64) : List Binary64 → Except Fault Binary64
  | [] => .ok sum
  | part :: rest =>
    match Binary64.ofNat power with
    | .finite negative rank =>
      addInBaseSixty (power * 60) (sum.add (part.mul (.finite negative rank))) rest
    | _ => .error (.breakdown .manyParts)

/-- The floating point number of a literal without sign. -/
def unsignedFloat (t : Text) : Except Fault Binary64 := do
  if t = Text.ofString ".inf" then pure (.infinite false)
  else if t = Text.ofString ".nan" then pure .nan
  else if CodePoint.ofChar ':' ∈ t then
    let parts ← (t.split ':').mapM decimal
    addInBaseSixty 1 (.ofNat 0) parts.reverse
  else decimal t

/-- Is the literal the word for what is not a number, whatever its sign and its letters? -/
def isNanWord (t : Text) : Bool :=
  match signAndRest t.toLower with
  | .ok (_, body) => body == Text.ofString ".nan"
  | .error _ => false

/-- The floating point number of a literal, in letters of either case. -/
def float (t : Text) : Except Fault Binary64 := do
  let (negative, body) ← signAndRest t.toLower
  let x ← unsignedFloat body
  pure (if negative then x.negated else x)

def truth (t : Text) : Except Fault Bool :=
  let word := t.toLower
  if word ∈ trueWords.map Text.ofString then .ok true
  else if word ∈ falseWords.map Text.ofString then .ok false
  else .error (.breakdown (.noWord word))

def moment (t : Text) : Except Fault Scalar :=
  match ((chars? (withoutLineFeed t)).bind Timestamp.parts?).map Timestamp.Parts.moment with
  | some (.ok (.date d)) => .ok (.date d)
  | some (.ok (.dateTime t)) => .ok (.dateTime t)
  | some (.error fault) => .error (.calendar fault)
  | none => .error (.breakdown .noMoment)

def scalarOf (tag : Tag) (t : Text) : Except Fault Scalar :=
  match tag with
  | .text => .ok (.text t)
  | .null => .ok .null
  | .bool => .bool <$> truth t
  | .int => .int <$> integer t
  | .float => .float <$> float t
  | .timestamp => moment t
  | _ => .error .malformed

end NamedSchemas.Yaml
