import NamedSchemas.Json.Reader
import NamedSchemas.Text.Utf8
import NamedSchemas.Time.Calendar
/-!
# Faults of YAML text

The modules about YAML are a small library for reading and writing it, enough to run the program on
files of it. They stand in for the library that the program is given, and what is proved about files
and runs holds for every `YamlLibrary`.

A text that is not YAML is told from one whose scalars are written like numbers or dates and are
none, and from one with a scalar that cannot be taken apart as its kind demands.
-/

namespace NamedSchemas.Yaml

/-- Why a scalar cannot be taken apart as its kind demands. -/
inductive Breakdown where
  /-- A number has no characters, or an integer none after its sign. -/
  | noCharacters
  /-- A truth value is none of the words for one. -/
  | noWord (word : Text)
  /-- A date or a time is not written like one. -/
  | noMoment
  /-- A date or a time is given as a map. -/
  | momentMap
  /-- A number in base sixty has so many parts that a power of sixty is beyond all numbers. -/
  | manyParts
  /-- An escape has a number of more than thirty-one bits. -/
  | wideEscape
  deriving DecidableEq

/-- Why a text denotes no document. -/
inductive Fault where
  | malformed
  /-- The text ends where it must go on, as inside quotes. -/
  | unfinished
  /-- The octets after the text encode no character. -/
  | encoding (fault : Utf8.Fault)
  /-- A scalar is written like a date or a time and names none. -/
  | calendar (fault : CalendarFault)
  /-- A scalar that is to be an integer has other characters than digits of its base. -/
  | integer (base : Nat) (literal : Text)
  /-- A scalar that is to be a floating point number is not written like one. -/
  | float (literal : Text)
  | longInteger (digits : Nat)
  /-- An escape has a number beyond the last code point. -/
  | codePoint
  /-- A scalar cannot be taken apart. -/
  | breakdown (cause : Breakdown)
  deriving DecidableEq

def Breakdown.message : Breakdown → Text
  | .noCharacters => "string index out of range"
  | .noWord word => word.quoted
  | .noMoment => "'NoneType' object has no attribute 'groupdict'"
  | .momentMap => "expected string or bytes-like object, got 'list'"
  | .manyParts => "int too large to convert to float"
  | .wideEscape => "Python int too large to convert to C int"

/-- How many characters of an integer that is none are shown. -/
def shownCharacters : Nat := 200

def Fault.message : Fault → Text
  | .malformed => "<yaml error>"
  | .unfinished => "<yaml error>"
  | .encoding fault => fault.message
  | .calendar fault => fault.message
  | .integer base literal =>
    Text.ofString "invalid literal for int() with base " ++
      Text.ofChars (Numeral.natural base) ++ Text.ofString ": " ++
      literal.quoted.take shownCharacters
  | .float literal => Text.ofString "could not convert string to float: " ++ literal.quoted
  | .longInteger digits => Json.longIntegerMessage digits
  | .codePoint => "chr() arg not in range(0x110000)"
  | .breakdown cause => cause.message

end NamedSchemas.Yaml
