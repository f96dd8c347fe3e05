import NamedSchemas.Text.Decimal
/-!
# Dates and times

Days of the proleptic Gregorian calendar from year 1 to year 9999 and times of day to the
microsecond, with an offset from universal time or without one, and their ISO 8601 text.
-/

namespace NamedSchemas

inductive CalendarFault where
  | year (n : Nat)
  | month
  | day
  | hour
  | minute
  | second
  | offset (microseconds : Int)
  deriving DecidableEq

abbrev microsecondsPerSecond : Nat := 1000000

abbrev microsecondsPerDay : Nat := 24 * 60 * 60 * microsecondsPerSecond

/-- A literal: the name of a kind and what it is made of. -/
def literalText (kind : String) (parts : List Text) : Text :=
  Text.ofString kind ++ Text.ofString "(" ++ Text.join ", " parts ++ Text.ofString ")"

/-- A span as days, seconds of a day and microseconds of a second, parts that are zero left out. -/
def spanText (microseconds : Int) : Text :=
  let rest := microseconds.fmod microsecondsPerDay
  let shown (name : String) (n : Int) : List Text :=
    if n = 0 then [] else [Text.ofString name ++ Text.ofChars ('=' :: Numeral.integer n)]
  let parts := shown "days" (microseconds.fdiv microsecondsPerDay) ++
    shown "seconds" (rest / microsecondsPerSecond) ++
    shown "microseconds" (rest % microsecondsPerSecond)
  literalText "datetime.timedelta" (if parts.isEmpty then ["0"] else parts)

def CalendarFault.message : CalendarFault → Text
  | .year n =>
    Text.ofString "year " ++ Text.ofChars (Numeral.natural n) ++ Text.ofString " is out of range"
  | .month => "month must be in 1..12"
  | .day => "day is out of range for month"
  | .hour => "hour must be in 0..23"
  | .minute => "minute must be in 0..59"
  | .second => "second must be in 0..59"
  | .offset microseconds =>
    Text.ofString "offset must be a timedelta strictly between -timedelta(hours=24) and " ++
      Text.ofString "timedelta(hours=24), not " ++ spanText microseconds ++ Text.ofString "."

/-- Every fourth year is a leap year, save for full centuries that are not divisible by 400. -/
def isLeapYear (y : Nat) : Bool := y % 4 == 0 && (y % 100 != 0 || y % 400 == 0)

def daysInMonth (y m : Nat) : Nat :=
  if m = 2 then (if isLeapYear y then 29 else 28)
  else if m = 4 ∨ m = 6 ∨ m = 9 ∨ m = 11 then 30 else 31

structure Date where
  year : Nat
  month : Nat
  day : Nat
  year_range : 1 ≤ year ∧ year ≤ 9999
  month_range : 1 ≤ month ∧ month ≤ 12
  day_range : 1 ≤ day ∧ day ≤ daysInMonth year month
  deriving DecidableEq

/-- A time on a day, with or without its offset from universal time in microseconds. -/
structure DateTime where
  date : Date
  hour : Fin 24
  minute : Fin 60
  second : Fin 60
  microsecond : Fin microsecondsPerSecond
  offset : Option Int
  deriving DecidableEq

/-- The date of three numbers; the first that is out of range is reported. -/
def Date.of (year month day : Nat) : Except CalendarFault Date :=
  if hy : 1 ≤ year ∧ year ≤ 9999 then
    if hm : 1 ≤ month ∧ month ≤ 12 then
      if hd : 1 ≤ day ∧ day ≤ daysInMonth year month then .ok ⟨year, month, day, hy, hm, hd⟩
      else .error .day
    else .error .month
  else .error (.year year)

def bounded (size n : Nat) (fault : CalendarFault) : Except CalendarFault (Fin size) :=
  if h : n < size then .ok ⟨n, h⟩ else .error fault

/-- Offsets are shorter than a day. -/
def checkedOffset (microseconds : Int) : Except CalendarFault Int :=
  if microseconds.natAbs < microsecondsPerDay then .ok microseconds
  else .error (.offset microseconds)

/-- The time of its numbers; the microsecond is taken modulo a second. -/
def DateTime.of (year month day hour minute second microsecond : Nat) (offset : Option Int) :
    Except CalendarFault DateTime := do
  let offset ← match offset with
    | some microseconds => some <$> checkedOffset microseconds
    | none => pure none
  let date ← Date.of year month day
  let hour ← bounded 24 hour .hour
  let minute ← bounded 60 minute .minute
  let second ← bounded 60 second .second
  pure ⟨date, hour, minute, second,
    ⟨microsecond % microsecondsPerSecond, Nat.mod_lt _ (by decide)⟩, offset⟩

def Date.ordinal (d : Date) : Nat :=
  let y := d.year - 1
  365 * y + y / 4 - y / 100 + y / 400 +
    ((List.range (d.month - 1)).map fun m => daysInMonth d.year (m + 1)).foldl (· + ·) 0 + d.day

/-- The microseconds from the start of year 1, in the clock of the time itself. -/
def DateTime.localInstant (t : DateTime) : Int :=
  ((((t.date.ordinal * 24 + t.hour.val) * 60 + t.minute.val) * 60 + t.second.val) *
    microsecondsPerSecond + t.microsecond.val : Nat)

/-- Do two times denote the same instant? Without an offset they do when they read the same, and a
time with an offset is never the same as one without. -/
def DateTime.sameInstant (s t : DateTime) : Bool :=
  match s.offset, t.offset with
  | none, none => s.localInstant == t.localInstant
  | some a, some b => s.localInstant - a == t.localInstant - b
  | _, _ => false

def Date.text (d : Date) : List Char :=
  Numeral.padded 10 4 d.year ++ '-' :: Numeral.padded 10 2 d.month ++ '-' ::
    Numeral.padded 10 2 d.day

/-- The microseconds of a second as a fraction, which is left out when there are none. -/
def fractionText (n : Nat) : List Char := if n = 0 then [] else '.' :: Numeral.padded 10 6 n

/-- The text of an offset, with seconds only where they are not zero. -/
def offsetText (microseconds : Int) : List Char :=
  let n := microseconds.natAbs / microsecondsPerSecond
  let fraction := fractionText (microseconds.natAbs % microsecondsPerSecond)
  (if microseconds < 0 then '-' else '+') :: Numeral.padded 10 2 (n / 3600) ++ ':' ::
    Numeral.padded 10 2 (n / 60 % 60) ++
    if n % 60 = 0 ∧ fraction.isEmpty then []
    else ':' :: Numeral.padded 10 2 (n % 60) ++ fraction

/-- The ISO text of a time, with the given character between date and time of day. -/
def DateTime.text (separator : Char) (t : DateTime) : List Char :=
  t.date.text ++ separator :: Numeral.padded 10 2 t.hour.val ++ ':' ::
    Numeral.padded 10 2 t.minute.val ++ ':' :: Numeral.padded 10 2 t.second.val ++
    fractionText t.microsecond.val ++
    (match t.offset with
      | none => []
      | some microseconds => offsetText microseconds)

/-! ## Literals -/

def literalNumbers (ns : List Nat) : List Text := ns.map fun n => Text.ofChars (Numeral.natural n)

/-- How a message shows a date inside another value. -/
def Date.literal (d : Date) : Text :=
  literalText "datetime.date" (literalNumbers [d.year, d.month, d.day])

/-- The seconds and microseconds of a literal: those at the end that are zero are left out. -/
def DateTime.literalSeconds (t : DateTime) : List Nat :=
  if t.microsecond.val ≠ 0 then [t.second.val, t.microsecond.val]
  else if t.second.val ≠ 0 then [t.second.val]
  else []

/-- The offset of a literal. -/
def offsetLiteral (microseconds : Int) : Text :=
  Text.ofString "tzinfo=" ++
    if microseconds = 0 then Text.ofString "datetime.timezone.utc"
    else literalText "datetime.timezone" [spanText microseconds]

def DateTime.literal (t : DateTime) : Text :=
  literalText "datetime.datetime"
    (literalNumbers ([t.date.year, t.date.month, t.date.day, t.hour.val, t.minute.val] ++
      t.literalSeconds) ++ t.offset.toList.map offsetLiteral)

end NamedSchemas
