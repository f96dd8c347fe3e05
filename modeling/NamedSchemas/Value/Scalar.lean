import NamedSchemas.Number.Shortest
import NamedSchemas.Text.Quoted
import NamedSchemas.Time.Calendar
/-!
# Scalars

The values of a document that hold no others. They are also the keys of its maps, where numbers of
different kinds are one key when they are equal: `1`, `1.0` and `true` name the same entry.
-/

namespace NamedSchemas

/-- A value that holds no others. -/
inductive Scalar where
  | null
  | bool (b : Bool)
  | int (i : Int)
  | float (x : Binary64)
  | text (t : Text)
  | date (d : Date)
  | dateTime (t : DateTime)
  deriving DecidableEq

namespace Scalar

/-- A string as a text scalar. -/
instance : Coe String Scalar := ⟨fun s => .text (Text.ofString s)⟩

/-- The integer that a truth value equals. -/
def ofBool (b : Bool) : Int := if b then 1 else 0

/-- Do two scalars name the same entry of a map? -/
def sameKey : Scalar → Scalar → Bool
  | .null, .null => true
  | .bool a, .bool b => a == b
  | .bool a, .int j => ofBool a == j
  | .int i, .bool b => i == ofBool b
  | .int i, .int j => i == j
  | .bool a, .float y => y.isInteger (ofBool a)
  | .int i, .float y => y.isInteger i
  | .float x, .bool b => x.isInteger (ofBool b)
  | .float x, .int j => x.isInteger j
  | .float x, .float y => x.sameQuantity y
  | .text s, .text t => s == t
  | .date d, .date e => d == e
  | .dateTime s, .dateTime t => s.sameInstant t
  | _, _ => false

def text? : Scalar → Option Text
  | .text t => some t
  | _ => none

def kindName : Scalar → String
  | .null => "NoneType"
  | .bool _ => "bool"
  | .int _ => "int"
  | .float _ => "float"
  | .text _ => "str"
  | .date _ => "datetime.date"
  | .dateTime _ => "datetime.datetime"

def displayBool (b : Bool) : Text := if b then "True" else "False"

def displaySpelling : Binary64.Spelling := ⟨"nan", "inf", "-inf"⟩

/-- How a scalar reads when it stands alone. -/
def display : Scalar → Text
  | .null => "None"
  | .bool b => displayBool b
  | .int i => Text.ofChars (Numeral.integer i)
  | .float x => Text.ofChars (x.text displaySpelling)
  | .text t => t
  | .date d => Text.ofChars d.text
  | .dateTime t => Text.ofChars (t.text ' ')

end Scalar

end NamedSchemas
