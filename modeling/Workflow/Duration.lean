import Workflow.Timestamp

/-! # Duration — spans of time given as numbers

    A span arrives as a count of days, hours or seconds and is kept in whole
    microseconds.  The conversion rounds once, half to even, and refuses
    what a span cannot hold. -/

namespace Workflow

/-- A number of settings and delays: whole numbers stay exact. -/
inductive Number where
  | whole (i : Int)
  | real (x : Binary64)
deriving DecidableEq

/-- Why a numeric computation has no result: it leaves its range, an
    undefined number has to be whole, an operand is no number, a power is
    not real, or a whole number has more digits than can be written. -/
inductive NumericError where
  | overflow
  | notANumber
  | wrongKind
  | notReal
  | tooLong
  | noRoom
deriving DecidableEq

/-- Longest span, in days. -/
def longestSpanDays : Nat := 999999999

/-- Microseconds in a day. -/
def microsPerDay : Nat := 86400 * microsPerSecond

/-- Accepts a span of at most `longestSpanDays` days, and down to that many
    below zero. -/
def boundedSpan (micros : Int) : Except NumericError Int :=
  let days := micros.fdiv microsPerDay
  if days.natAbs ≤ longestSpanDays then .ok micros else .error .overflow

/-- Half-even rounding of the exact value of a finite number. -/
def Binary64.roundToInt (x : Binary64) : Int :=
  match x with
  | .finite s e f =>
    let n : Int := Binary64.roundQuotient (Binary64.magnitude e f)
      Binary64.unitsInOne
    if s then -n else n
  | _ => 0

/-- A span of `x` units of `unitSeconds` seconds.  The integer part counts
    exactly; the fraction is multiplied as a double and what is left below a
    microsecond is rounded half to even. -/
def spanMicros (unitSeconds : Nat) (x : Number) : Except NumericError Int :=
  let unit := unitSeconds * microsPerSecond
  match x with
  | .whole i => boundedSpan (i * unit)
  | .real .nan => .error .notANumber
  | .real (.infinite _) => .error .overflow
  | .real x =>
    let whole := (x.truncate?).getD 0
    let fraction := x.sub (Binary64.ofRatio whole 1)
    boundedSpan
      (whole * unit + (fraction.mul (Binary64.ofRatio unit 1)).roundToInt)

/-- The seconds of a span, as a double. -/
def spanSeconds (micros : Int) : Binary64 :=
  Binary64.ofRatio micros microsPerSecond

/-- A length of time with one decimal: seconds below a minute, minutes below
    an hour, hours from there on. -/
def durationText (micros : Int) : String :=
  let seconds := spanSeconds (max micros 0)
  if micros < 60 * (microsPerSecond : Int) then s!"{seconds.oneDecimal}s"
  else if micros < 3600 * (microsPerSecond : Int) then
    s!"{(seconds.divNat 60).oneDecimal}m"
  else s!"{(seconds.divNat 3600).oneDecimal}h"

/-- How long ago something was, in its largest whole unit. -/
def ageText (micros : Int) : String :=
  let seconds := ((spanSeconds micros).truncate?).getD 0
  if seconds < 60 then s!"{seconds} seconds ago"
  else if seconds < 3600 then s!"{seconds / 60} minutes ago"
  else if seconds < 86400 then s!"{seconds / 3600} hours ago"
  else s!"{seconds / 86400} days ago"

end Workflow
