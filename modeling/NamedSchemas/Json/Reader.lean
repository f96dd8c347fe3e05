import NamedSchemas.Text.Decimal
import NamedSchemas.Value.Basic
/-!
# Reading JSON

The document that a JSON text denotes, or the first place where the text is not JSON. Beyond the
standard, `NaN`, `Infinity` and `-Infinity` are numbers, half a surrogate pair is a code point, and
a key that is repeated keeps its first place and takes the last value.
-/

namespace NamedSchemas.Json

/-- What a place in a text fails to be. -/
inductive Problem where
  | value
  | propertyName
  | colon
  | comma
  | extraData
  | controlCharacter
  | escape
  | unicodeEscape
  | unterminated
  | byteOrderMark
  deriving DecidableEq

def Problem.message : Problem → String
  | .value => "Expecting value"
  | .propertyName => "Expecting property name enclosed in double quotes"
  | .colon => "Expecting ':' delimiter"
  | .comma => "Expecting ',' delimiter"
  | .extraData => "Extra data"
  | .controlCharacter => "Invalid control character at"
  | .escape => "Invalid \\escape"
  | .unicodeEscape => "Invalid \\uXXXX escape"
  | .unterminated => "Unterminated string starting at"
  | .byteOrderMark => "Unexpected UTF-8 BOM (decode using utf-8-sig)"

/-- Why reading stops: a problem and the text from its place on, or an integer with too many
digits. -/
inductive Stop where
  | problem (what : Problem) (remaining : List Char)
  | longInteger (digits : Nat)

/-- A place in a text: line and column count from one, the offset from zero. -/
structure Place where
  line : Nat
  column : Nat
  offset : Nat
  deriving DecidableEq

def Place.after (passed : List Char) : Place where
  line := passed.count '\n' + 1
  column := (passed.reverse.takeWhile (· != '\n')).length + 1
  offset := passed.length

/-- The place where `remaining` characters of `text` are left. -/
def Place.before (text : List Char) (remaining : Nat) : Place :=
  .after (text.take (text.length - remaining))

def Place.message (p : Place) : Text :=
  Text.ofChars ("line ".toList ++ Numeral.natural p.line ++ " column ".toList ++
    Numeral.natural p.column ++ " (char ".toList ++ Numeral.natural p.offset ++ [')'])

inductive ReadFault where
  | problem (what : Problem) (place : Place)
  | longInteger (digits : Nat)
  deriving DecidableEq

def longIntegerMessage (digits : Nat) : Text :=
  Text.ofString "Exceeds the limit (4300 digits) for integer string conversion: value has " ++
    Text.ofChars (Numeral.natural digits) ++
    Text.ofString " digits; use sys.set_int_max_str_digits() to increase the limit"

def ReadFault.message : ReadFault → Text
  | .problem what place => Text.ofString what.message ++ Text.ofString ": " ++ place.message
  | .longInteger digits => longIntegerMessage digits

/-- What a reader gives: a value and the text after it, or the reason to stop. -/
abbrev Read (α : Type) := Except Stop (α × List Char)

def isBlank (c : Char) : Bool := c == ' ' || c == '\t' || c == '\n' || c == '\r'

def skipBlank (cs : List Char) : List Char := cs.dropWhile isBlank

/-- The code point of an escape of one letter. -/
def escaped? : Char → Option Char
  | '"' => some '"'
  | '\\' => some '\\'
  | '/' => some '/'
  | 'b' => some '\x08'
  | 'f' => some '\x0c'
  | 'n' => some '\n'
  | 'r' => some '\r'
  | 't' => some '\t'
  | _ => none

/-- The number of four hexadecimal digits. -/
def hex4? (a b c d : Char) : Option Nat :=
  if [a, b, c, d].all Numeral.isHex then some (Numeral.value 16 [a, b, c, d]) else none

def codePoint (n : Nat) : CodePoint := ⟨n % 0x110000, Nat.mod_lt _ (by decide)⟩

/-- Puts a code point in front of a text. The halves of a surrogate pair become one code point. -/
def joined (p : CodePoint) (t : Text) : Text :=
  match t with
  | q :: rest =>
    if p.isHighSurrogate && q.isLowSurrogate then
      codePoint (0x10000 + (p.toNat - 0xD800) * 0x400 + (q.toNat - 0xDC00)) :: rest
    else p :: t
  | [] => [p]

/-- Reads a string up to its closing quote; `opening` is the text from the opening quote on. -/
def readString (opening : List Char) : List Char → Read Text
  | [] => .error (.problem .unterminated opening)
  | '"' :: rest => .ok ([], rest)
  | ['\\'] => .error (.problem .unterminated opening)
  | '\\' :: 'u' :: rest =>
    match rest with
    -- the four digits are only looked at when something stands behind them
    | a :: b :: c :: d :: e :: rest' =>
      match hex4? a b c d with
      | none => .error (.problem .unicodeEscape ('u' :: rest))
      | some n => (readString opening (e :: rest')).map fun r => (joined (codePoint n) r.1, r.2)
    | _ => .error (.problem .unicodeEscape ('u' :: rest))
  | '\\' :: c :: rest =>
    match escaped? c with
    | some p => (readString opening rest).map fun r => (CodePoint.ofChar p :: r.1, r.2)
    | none => .error (.problem .escape ('\\' :: c :: rest))
  | c :: rest =>
    if c.toNat < 0x20 then .error (.problem .controlCharacter (c :: rest))
    else (readString opening rest).map fun r => (CodePoint.ofChar c :: r.1, r.2)

def spanDigits (cs : List Char) : List Char × List Char :=
  (cs.takeWhile Numeral.isDecimal, cs.dropWhile Numeral.isDecimal)

/-- The digits of a fraction, if the text goes on with a point and a digit. -/
def readFraction (cs : List Char) : Option (List Char) × List Char :=
  match cs with
  | '.' :: rest =>
    match spanDigits rest with
    | ([], _) => (none, cs)
    | (ds, rest) => (some ds, rest)
  | _ => (none, cs)

/-- The exponent, if the text goes on with one. -/
def readExponent (cs : List Char) : Option Int × List Char :=
  match cs with
  | e :: rest =>
    if e = 'e' ∨ e = 'E' then
      let (negative, rest) := match rest with
        | '-' :: rest => (true, rest)
        | '+' :: rest => (false, rest)
        | rest => (false, rest)
      match spanDigits rest with
      | ([], _) => (none, cs)
      | (ds, rest) =>
        let n : Int := Numeral.value 10 ds
        (some (if negative then -n else n), rest)
    else (none, cs)
  | [] => (none, cs)

/-- Reads the number after its sign. With a fraction or an exponent it is a binary floating point
number, otherwise an integer. -/
def readMagnitude (negative : Bool) (start : List Char) (cs : List Char) : Read Document :=
  let whole := match cs with
    | '0' :: rest => (['0'], rest)
    | cs => spanDigits cs
  match whole with
  | ([], _) => .error (.problem .value start)
  | (ds, rest) =>
    match readFraction rest with
    | (fraction, rest) =>
      match readExponent rest with
      | (exponent, rest) =>
        if fraction.isNone && exponent.isNone then
          if ds.length ≤ Numeral.digitLimit then
            let n : Int := Numeral.value 10 ds
            .ok (.scalar (.int (if negative then -n else n)), rest)
          else .error (.longInteger ds.length)
        else
          let fraction := fraction.getD []
          .ok (.scalar (.float (Binary64.ofDecimal negative (Numeral.value 10 (ds ++ fraction))
            (exponent.getD 0 - fraction.length))), rest)

def afterWord (word : String) (cs : List Char) : Option (List Char) :=
  if word.toList.isPrefixOf cs then some (cs.drop word.length) else none

def words : List (String × Scalar) :=
  [("null", .null), ("true", .bool true), ("false", .bool false), ("NaN", .float .nan),
    ("Infinity", .float (.infinite false)), ("-Infinity", .float (.infinite true))]

def readAtom (cs : List Char) : Read Document :=
  match words.findSome? fun w => (afterWord w.1 cs).map fun rest => (Value.scalar w.2, rest) with
  | some result => .ok result
  | none =>
    match cs with
    | '-' :: rest => readMagnitude true cs rest
    | _ => readMagnitude false cs cs

mutual

/-- Reads a value. Every call spends fuel, and twice the length of the text is enough. -/
def readValue : Nat → List Char → Read Document
  | 0, cs => .error (.problem .value cs)
  | fuel + 1, cs =>
    match cs with
    | '"' :: rest => (readString cs rest).map fun r => (.scalar (.text r.1), r.2)
    | '[' :: rest =>
      match skipBlank rest with
      | ']' :: rest => .ok (.list [], rest)
      | rest => (readItems fuel rest).map fun r => (.list r.1, r.2)
    | '\x7b' :: rest =>
      match skipBlank rest with
      | '\x7d' :: rest => .ok (.map [], rest)
      | rest => (readMembers fuel rest).map fun r => (.map (Entries.ofList r.1), r.2)
    | _ => readAtom cs

def readItems : Nat → List Char → Except Stop (List Document × List Char)
  | 0, cs => .error (.problem .value cs)
  | fuel + 1, cs => do
    let (item, rest) ← readValue fuel cs
    match skipBlank rest with
    | ']' :: rest => pure ([item], rest)
    | ',' :: rest =>
      let (items, rest) ← readItems fuel (skipBlank rest)
      pure (item :: items, rest)
    | rest => .error (.problem .comma rest)

def readMembers : Nat → List Char → Except Stop (Entries Empty × List Char)
  | 0, cs => .error (.problem .value cs)
  | fuel + 1, cs =>
    match cs with
    | '"' :: rest => do
      let (key, rest) ← readString cs rest
      match skipBlank rest with
      | ':' :: rest =>
        let (value, rest) ← readValue fuel (skipBlank rest)
        let entry := (Scalar.text key, value)
        match skipBlank rest with
        | '\x7d' :: rest => pure ([entry], rest)
        | ',' :: rest =>
          let (members, rest) ← readMembers fuel (skipBlank rest)
          pure (entry :: members, rest)
        | rest => .error (.problem .comma rest)
      | rest => .error (.problem .colon rest)
    | _ => .error (.problem .propertyName cs)

end

/-- Reads a whole text as one value with blank space around it. -/
def readText (cs : List Char) : Except Stop Document := do
  match cs with
  | '\uFEFF' :: _ => .error (.problem .byteOrderMark cs)
  | _ =>
    let (d, rest) ← readValue (2 * cs.length + 2) (skipBlank cs)
    match skipBlank rest with
    | [] => pure d
    | rest => .error (.problem .extraData rest)

def read (cs : List Char) : Except ReadFault Document :=
  match readText cs with
  | .ok d => .ok d
  | .error (.problem what remaining) =>
    .error (.problem what (Place.before cs remaining.length))
  | .error (.longInteger digits) => .error (.longInteger digits)

end NamedSchemas.Json
