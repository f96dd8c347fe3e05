import NamedSchemas.Time.Calendar
/-!
# Timestamps

The written form of dates and times: a date alone, or a date and a time of day after a `T` or
blanks, with a fraction of a second and an offset from universal time where wanted.
-/

namespace NamedSchemas

inductive Moment where
  | date (d : Date)
  | dateTime (t : DateTime)
  deriving DecidableEq

namespace Timestamp

/-- Reads from `least` to `most` digits, as many as there are. -/
def number? (least most : Nat) (cs : List Char) : Option (Nat × List Char) :=
  let ds := (cs.take most).takeWhile Numeral.isDecimal
  if least ≤ ds.length then some (Numeral.value 10 ds, cs.drop ds.length) else none

def char? (c : Char) : List Char → Option (List Char)
  | d :: rest => if c = d then some rest else none
  | [] => none

/-- A time of day as written: hour, minute, second, microsecond, offset. -/
structure Clock where
  hour : Nat
  minute : Nat
  second : Nat
  microsecond : Nat
  offset : Option Int

/-- The parts of a timestamp, not yet checked against the calendar. -/
structure Parts where
  year : Nat
  month : Nat
  day : Nat
  clock : Option Clock

def isBlank (c : Char) : Bool := c == ' ' || c == '\t'

/-- Reads an offset that ends the text: nothing, `Z`, or a signed number of hours and minutes. -/
def offset? (cs : List Char) : Option (Option Int) :=
  match cs with
  | [] => some none
  | _ =>
    match cs.dropWhile isBlank with
    | ['Z'] => some (some 0)
    | sign :: rest =>
      if sign = '+' ∨ sign = '-' then do
        let (hours, rest) ← number? 1 2 rest
        let (minutes, rest) ← match rest with
          | ':' :: rest => number? 2 2 rest
          | rest => some (0, rest)
        let offset : Int := (hours * 60 + minutes) * 60 * microsecondsPerSecond
        if rest.isEmpty then some (some (if sign = '-' then -offset else offset)) else none
      else none
    | [] => none

def clock? (cs : List Char) : Option Clock := do
  let (hour, rest) ← number? 1 2 cs
  let (minute, rest) ← number? 2 2 (← char? ':' rest)
  let (second, rest) ← number? 2 2 (← char? ':' rest)
  let (fraction, rest) := match rest with
    | '.' :: rest => (rest.takeWhile Numeral.isDecimal, rest.dropWhile Numeral.isDecimal)
    | rest => ([], rest)
  let microsecond := Numeral.value 10 ((fraction ++ List.replicate 6 '0').take 6)
  let offset ← offset? rest
  pure ⟨hour, minute, second, microsecond, offset⟩

/-- Reads the parts of a timestamp; one digit is enough for month and day. -/
def parts? (cs : List Char) : Option Parts := do
  let (year, rest) ← number? 4 4 cs
  let (month, rest) ← number? 1 2 (← char? '-' rest)
  let (day, rest) ← number? 1 2 (← char? '-' rest)
  match rest with
  | [] => some ⟨year, month, day, none⟩
  | c :: rest =>
    if c = 'T' ∨ c = 't' then (⟨year, month, day, some ·⟩) <$> clock? rest
    else if isBlank c then (⟨year, month, day, some ·⟩) <$> clock? (rest.dropWhile isBlank)
    else none

def Parts.moment (p : Parts) : Except CalendarFault Moment :=
  match p.clock with
  | none => .date <$> Date.of p.year p.month p.day
  | some c => .dateTime <$>
      DateTime.of p.year p.month p.day c.hour c.minute c.second c.microsecond c.offset

/-- Is the text known for a timestamp by the way it is written? A date alone has two digits for
month and day. -/
def isWritten (cs : List Char) : Bool :=
  match parts? cs with
  | some p => p.clock.isSome || cs.length == 10
  | none => false

end Timestamp

end NamedSchemas
