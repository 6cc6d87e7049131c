import Workflow.Timestamp

/-! # Standard — the standard written forms of dates and times

    A date is written by month and day or by week and weekday, with hyphens
    or without, and the first weekday may be left out.  Any one character
    parts it from the time of day, which is cut short at will and written
    with colons or without; a zone follows a sign or is `Z`.  A fraction may
    have any number of digits, of which six count. -/

namespace Workflow

namespace Date

/-- Days from the Monday on or before a day of the given number. -/
def daysSinceMonday (day : Nat) : Nat := (day + 6) % 7

/-- The number of weeks of a year, the first being the one that holds the
    fourth of January: a year has one more where it starts on a Thursday, or
    as a leap year on a Wednesday. -/
def weeksOf (first : Date) : Nat :=
  match daysSinceMonday first.dayNumber with
  | 3 => 53
  | 2 => if isLeapYear first.year then 53 else 52
  | _ => 52

/-- The date of a weekday in a week of a year, both counted from one. -/
def ofWeek? (year week weekday : Nat) : Option Date := do
  let first ← ofFields? year 1 1
  if 1 ≤ week ∧ week ≤ weeksOf first ∧ 1 ≤ weekday ∧ weekday ≤ 7 then
    let fourth := first.dayNumber + 3
    let monday : Int := fourth - daysSinceMonday fourth
    ofDayNumber? (monday + (week - 1) * 7 + (weekday - 1) : Int)
  else none

end Date

namespace Timestamp

/-- Does the text start with a digit? -/
def startsWithDigit (cs : List Char) : Bool := (cs.head?.map Char.isDigit).getD false

/-- The weekday behind a hyphen, and the rest.  A hyphen with two digits
    behind it parts the date from an hour. -/
def readHyphenedWeekday (cs : List Char) : Option (Nat × List Char) :=
  match cs with
  | '-' :: cs =>
    if startsWithDigit (cs.drop 1) then some (1, '-' :: cs) else readDigits 1 cs
  | cs        => some (1, cs)

/-- The weekday in front of a time, and the rest.  An odd number of digits,
    more than one, is a separator with a time behind it, whose fields have
    two digits each. -/
def readBareWeekday (cs : List Char) : Option (Nat × List Char) :=
  let n := (spanDigits cs).1.length
  if n = 0 ∨ (3 ≤ n ∧ n % 2 = 1) then some (1, cs) else readDigits 1 cs

/-- A date at the front of a text, in one of its standard forms. -/
def readStandardDate (cs : List Char) : Option (Date × List Char) := do
  let (year, cs) ← readDigits 4 cs
  match cs with
  | '-' :: 'W' :: cs =>
    let (week, cs) ← readDigits 2 cs
    let (weekday, cs) ← readHyphenedWeekday cs
    pure (← Date.ofWeek? year week weekday, cs)
  | 'W' :: cs        =>
    let (week, cs) ← readDigits 2 cs
    let (weekday, cs) ← readBareWeekday cs
    pure (← Date.ofWeek? year week weekday, cs)
  | '-' :: cs        =>
    let (month, cs) ← readDigits 2 cs
    let (day, cs) ← readDigits 2 (← readChar '-' cs)
    pure (← Date.ofFields? year month day, cs)
  | cs               =>
    let (month, cs) ← readDigits 2 cs
    let (day, cs) ← readDigits 2 cs
    pure (← Date.ofFields? year month day, cs)

/-- A time of day or an offset as written: its fields, and whether the text
    ends with it. -/
structure Clock where
  hour   : Nat := 0
  minute : Nat := 0
  second : Nat := 0
  micro  : Nat := 0
  ends   : Bool := true

namespace Clock

/-- The fraction of a second: six digits, or all there are. -/
def withFraction (c : Clock) (cs : List Char) : Option Clock := do
  let n := min 6 cs.length
  let (fraction, cs) ← readDigits n cs
  let rest := cs.dropWhile Char.isDigit
  pure { c with micro := fraction * 10 ^ (6 - n), ends := rest.isEmpty }

/-- Is there at most one more character, which no field follows? -/
def isLast : List Char → Bool
  | []  => true
  | [c] => c.toNat < 128
  | _   => false

/-- What follows a field: its end, the fraction, or the next field behind the
    separator that the first one had, if it had one. -/
def readNext (parted : Bool) (next : List Char → Option Clock) (c : Clock)
    (cs : List Char) : Option Clock :=
  if isLast cs then some { c with ends := cs.isEmpty }
  else match cs with
    | ':' :: rest => if parted then next rest else none
    | '.' :: rest => c.withFraction rest
    | ',' :: rest => c.withFraction rest
    | cs          => if parted then none else next cs

/-- Reads hours, minutes, seconds and their fraction; the text may end behind
    each of them. -/
def read? (cs : List Char) : Option Clock := do
  let (hour, cs) ← readDigits 2 cs
  let parted := cs.head? == some ':'
  readNext parted (fun cs => do
    let (minute, cs) ← readDigits 2 cs
    readNext parted (fun cs => do
      let (second, cs) ← readDigits 2 cs
      readNext parted (withFraction { hour, minute, second })
        { hour, minute, second } cs) { hour, minute } cs) { hour } cs

/-- The microseconds of an offset; one below a second is none. -/
def offsetMicros (c : Clock) : Nat :=
  let seconds := (c.hour * 60 + c.minute) * 60 + c.second
  if seconds = 0 then 0 else seconds * microsPerSecond + c.micro

end Clock

/-- The zone at the end of a text: `Z`, or an offset below one day. -/
def readStandardZone : List Char → Option Int
  | ['Z']   => some 0
  | c :: cs => do
    let clock ← Clock.read? cs
    let micros := clock.offsetMicros
    if clock.ends ∧ micros < 86400 * microsPerSecond then
      match c with
      | '+' => some micros
      | '-' => some (-micros)
      | _   => none
    else none
  | []      => none

/-- Does a zone start with this character? -/
def startsZone (c : Char) : Bool := c == '+' || c == '-' || c == 'Z'

/-- The time of day and the zone, after the date and its separator.  What is
    left in front of a zone is passed over. -/
def readStandardTime (date : Date) (cs : List Char) : Option Timestamp := do
  let clock ← Clock.read? (cs.takeWhile fun c => !startsZone c)
  let zone := cs.dropWhile fun c => !startsZone c
  let offset ← if zone.isEmpty then (if clock.ends then some none else none)
    else (readStandardZone zone).map some
  ofFields? date clock.hour clock.minute clock.second clock.micro offset

/-- Reads a standard text: a date, or a date and a time. -/
def ofIsoText? (s : String) : Option Timestamp := do
  let (date, cs) ← readStandardDate s.toList
  match cs with
  | []      => some (startOf date)
  | _ :: cs => readStandardTime date cs

end Timestamp

end Workflow
