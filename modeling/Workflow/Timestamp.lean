import Workflow.Binary64.Decimal

/-! # Timestamp — calendar dates and times with an optional zone offset

    A timestamp is kept as the fields that it is written with, so its text
    and its zone survive every trip through a store.  Instants, in
    microseconds, are derived where times are compared or subtracted. -/

namespace Workflow

-- A sum starts from the numeral, also in a module that imports the zero of an algebra.
attribute [local instance (20000)] Zero.ofOfNat0

/-- The leap years of the Gregorian calendar. -/
def isLeapYear (year : Nat) : Bool :=
  year % 4 == 0 && (year % 100 != 0 || year % 400 == 0)

/-- Number of days of a month. -/
def daysInMonth (year month : Nat) : Nat :=
  match month with
  | 2 => if isLeapYear year then 29 else 28
  | 4 | 6 | 9 | 11 => 30
  | _ => 31

/-- A date of the years 1 to 9999. -/
structure Date where
  year  : Nat
  month : Nat
  day   : Nat
  valid : (1 ≤ year ∧ year ≤ 9999) ∧ (1 ≤ month ∧ month ≤ 12) ∧
    (1 ≤ day ∧ day ≤ daysInMonth year month)
deriving DecidableEq

namespace Date

/-- The date with the given fields, if there is one. -/
def ofFields? (year month day : Nat) : Option Date :=
  if h : (1 ≤ year ∧ year ≤ 9999) ∧ (1 ≤ month ∧ month ≤ 12) ∧
      (1 ≤ day ∧ day ≤ daysInMonth year month) then
    some ⟨year, month, day, h⟩
  else none

/-- Days of a year before the given month. -/
def daysBeforeMonth (year month : Nat) : Nat :=
  ((List.range (month - 1)).map fun m => daysInMonth year (m + 1)).sum

/-- Days since the day before the first day of year 1. -/
def dayNumber (d : Date) : Nat :=
  let y := d.year - 1
  y * 365 + y / 4 - y / 100 + y / 400 + daysBeforeMonth d.year d.month + d.day

/-- Month and day of the day that is `rest` days into the year, counting
    months from `month`. -/
def monthAndDay (year : Nat) : Nat → Nat → Nat → Nat × Nat
  | 0,        month, rest => (month, rest + 1)
  | fuel + 1, month, rest =>
    let n := daysInMonth year month
    if rest < n then (month, rest + 1)
    else monthAndDay year fuel (month + 1) (rest - n)

/-- The date with a given day number, by cycles of 400, 100, 4 and 1
    years. -/
def ofDayNumber? (n : Int) : Option Date :=
  if n < 1 then none
  else
    let n := n.toNat - 1
    let r := n % 146097
    let c := min (r / 36524) 3
    let r' := r - c * 36524
    let q := r' / 1461
    let r'' := r' - q * 1461
    let y := min (r'' / 365) 3
    let year := 400 * (n / 146097) + 100 * c + 4 * q + y + 1
    let (month, day) := monthAndDay year 12 1 (r'' - y * 365)
    ofFields? year month day

/-- The written form `YYYY-MM-DD`. -/
def chars (d : Date) : List Char :=
  paddedDigits 4 d.year ++ '-' :: paddedDigits 2 d.month ++
    '-' :: paddedDigits 2 d.day

end Date

/-- A date and a time of day, with the zone offset in microseconds if the time
    is bound to a zone. -/
structure Timestamp where
  date   : Date
  hour   : Fin 24
  minute : Fin 60
  second : Fin 60
  micro  : Fin 1000000
  offset : Option Int
deriving DecidableEq

/-- Microseconds in a second. -/
def microsPerSecond : Nat := 1000000

namespace Timestamp

/-- Midnight, universal time, of the first day of 2024. -/
def defaultNow : Timestamp :=
  ⟨⟨2024, 1, 1, by decide⟩, 0, 0, 0, 0, some 0⟩

instance : Inhabited Timestamp := ⟨defaultNow⟩

/-- The start of a day, in no zone. -/
def startOf (date : Date) : Timestamp := ⟨date, 0, 0, 0, 0, none⟩

/-- Seconds since the start of the day. -/
def secondOfDay (t : Timestamp) : Nat :=
  (t.hour.val * 60 + t.minute.val) * 60 + t.second.val

/-- Microseconds on the wall clock. -/
def wallMicros (t : Timestamp) : Int :=
  (t.date.dayNumber * 86400 + t.secondOfDay : Nat) * (microsPerSecond : Int) +
    t.micro.val

/-- Is the time bound to a zone? -/
def isAware (t : Timestamp) : Bool := t.offset.isSome

/-- The instant in microseconds; a time without zone counts as universal. -/
def instant (t : Timestamp) : Int :=
  t.wallMicros - t.offset.getD 0

/-- Elapsed microseconds from `u` to `t`; undefined when only one of them is
    bound to a zone. -/
def since? (t u : Timestamp) : Option Int :=
  if t.isAware = u.isAware then some (t.instant - u.instant) else none

/-- Do two timestamps denote the same moment?  One with a zone and one
    without never do. -/
def sameMoment (t u : Timestamp) : Bool :=
  t.isAware == u.isAware && t.instant == u.instant

/-- The timestamp of a wall clock reading in microseconds. -/
def ofWallMicros? (micros : Int) (offset : Option Int) : Option Timestamp := do
  let seconds := micros.fdiv microsPerSecond
  let date ← Date.ofDayNumber? (seconds.fdiv 86400)
  let s := (seconds.fmod 86400).toNat
  pure
    { date   := date
      hour   := Fin.ofNat 24 (s / 3600)
      minute := Fin.ofNat 60 (s / 60)
      second := Fin.ofNat 60 s
      micro  := Fin.ofNat 1000000 (micros.fmod microsPerSecond).toNat
      offset := offset }

/-- The timestamp a number of microseconds later, unless it leaves the
    calendar. -/
def advance? (t : Timestamp) (micros : Int) : Option Timestamp :=
  ofWallMicros? (t.wallMicros + micros) t.offset

/-- The fraction of a second: six digits, or nothing. -/
def microChars (t : Timestamp) : List Char :=
  if t.micro.val = 0 then [] else '.' :: paddedDigits 6 t.micro.val

/-- The time of day `HH:MM:SS` with the fraction if there is one. -/
def timeChars (t : Timestamp) : List Char :=
  paddedDigits 2 t.hour.val ++ ':' :: paddedDigits 2 t.minute.val ++
    ':' :: paddedDigits 2 t.second.val ++ t.microChars

/-- A zone offset `+HH:MM`, with seconds and their fraction if there are
    any. -/
def offsetChars (micros : Int) : List Char :=
  let s := micros.natAbs / microsPerSecond
  let fraction := micros.natAbs % microsPerSecond
  (if micros < 0 then '-' else '+') :: paddedDigits 2 (s / 3600) ++
    ':' :: paddedDigits 2 (s / 60 % 60) ++
    (if s % 60 = 0 ∧ fraction = 0 then [] else ':' :: paddedDigits 2 (s % 60)) ++
    if fraction = 0 then [] else '.' :: paddedDigits 6 fraction

/-- Date and time with a separator and the zone written by `zone`. -/
def charsWith (separator : Char) (zone : Int → List Char) (t : Timestamp) :
    List Char :=
  t.date.chars ++ separator :: t.timeChars ++ (t.offset.map zone).getD []

/-- The standard text: `2024-01-01T00:00:00+00:00`. -/
def isoText (t : Timestamp) : String :=
  String.ofList (t.charsWith 'T' offsetChars)

/-- The text with a blank between date and time. -/
def plainText (t : Timestamp) : String :=
  String.ofList (t.charsWith ' ' offsetChars)

/-- The zone in documents, rounded to the second: universal time is `Z`,
    others `+HH:MM`. -/
def documentZone (micros : Int) : List Char :=
  let s := (2 * micros.natAbs + microsPerSecond) / (2 * microsPerSecond)
  if s = 0 then ['Z']
  else
    (if micros < 0 then '-' else '+') :: paddedDigits 2 (s / 3600) ++
      ':' :: paddedDigits 2 (s / 60 % 60)

/-- The text in stored documents: `2024-01-01T00:00:00Z`. -/
def documentText (t : Timestamp) : String :=
  String.ofList (t.charsWith 'T' documentZone)

/-- Date and time as one word, `20240101_000000`; the year is not padded. -/
def compactText (t : Timestamp) : String :=
  String.ofList (digitsOf t.date.year ++ paddedDigits 2 t.date.month ++
    paddedDigits 2 t.date.day ++ '_' :: paddedDigits 2 t.hour.val ++
    paddedDigits 2 t.minute.val ++ paddedDigits 2 t.second.val)

/-- Exactly `count` digits at the front of a text, as a number. -/
def readDigits (count : Nat) (cs : List Char) : Option (Nat × List Char) :=
  let ds := cs.take count
  if ds.length = count ∧ ds.all Char.isDigit then
    some (ofDigits ds, cs.drop count)
  else none

/-- A character that must stand at the front. -/
def readChar (c : Char) : List Char → Option (List Char)
  | d :: cs => if c = d then some cs else none
  | []      => none

/-- A date at the front of a text. -/
def readDate (cs : List Char) : Option (Date × List Char) := do
  let (year, cs) ← readDigits 4 cs
  let cs ← readChar '-' cs
  let (month, cs) ← readDigits 2 cs
  let cs ← readChar '-' cs
  let (day, cs) ← readDigits 2 cs
  let date ← Date.ofFields? year month day
  pure (date, cs)

/-- Optional seconds. -/
def readSeconds (cs : List Char) : Option (Nat × List Char) :=
  match cs with
  | ':' :: cs => readDigits 2 cs
  | cs        => some (0, cs)

/-- An optional fraction of a second, cut to microseconds. -/
def readMicros (cs : List Char) : Option (Nat × List Char) :=
  match cs with
  | c :: rest =>
    if c = '.' ∨ c = ',' then
      let (ds, rest) := spanDigits rest
      if ds = [] then none
      else some (ofDigits ((ds ++ List.replicate 6 '0').take 6), rest)
    else some (0, cs)
  | [] => some (0, [])

/-- The zone at the end of a text: none, `Z`, or a signed offset of hours and
    minutes below one day. -/
def readZone (cs : List Char) : Option (Option Int) :=
  match cs with
  | []    => some none
  | ['Z'] => some (some 0)
  | ['z'] => some (some 0)
  | c :: cs =>
    if c = '+' ∨ c = '-' ∨ c = '\u2212' then do
      let (h, cs) ← readDigits 2 cs
      let cs := match cs with
        | ':' :: cs => cs
        | cs        => cs
      let (m, cs) ← readDigits 2 cs
      let total : Int := ((h * 60 + m) * 60 * microsPerSecond : Nat)
      if cs = [] ∧ h < 24 ∧ m < 60 then
        some (some (if c = '+' then total else -total))
      else none
    else none

/-- The time on a date, if the fields are in their ranges. -/
def ofFields? (date : Date) (hour minute second micro : Nat) (offset : Option Int) :
    Option Timestamp :=
  if h : hour < 24 ∧ minute < 60 ∧ second < 60 ∧ micro < 1000000 then
    some ⟨date, ⟨hour, h.1⟩, ⟨minute, h.2.1⟩, ⟨second, h.2.2.1⟩,
      ⟨micro, h.2.2.2⟩, offset⟩
  else none

/-- The time of day and the zone, after the date; a fraction needs seconds in
    front of it. -/
def readTime (date : Date) (cs : List Char) : Option Timestamp := do
  let (hour, cs) ← readDigits 2 cs
  let cs ← readChar ':' cs
  let (minute, cs) ← readDigits 2 cs
  let timed := cs.head? == some ':'
  let (second, cs) ← readSeconds cs
  let (micro, cs) ← if timed then readMicros cs else some (0, cs)
  ofFields? date hour minute second micro (← readZone cs)

/-- Reads a text of structured data: a date, or a date and a time parted by
    `T` or a blank. -/
def ofText? (s : String) : Option Timestamp := do
  let (date, cs) ← readDate s.toList
  match cs with
  | [] => some (startOf date)
  | c :: cs =>
    if c = 'T' ∨ c = 't' ∨ c = ' ' ∨ c = '_' then readTime date cs else none

end Timestamp

end Workflow
