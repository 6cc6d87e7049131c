import Workflow.Binary64
import Workflow.Binary64.Series

/-! # Logarithm — logarithms to more digits than one double holds

    A positive number is `2 ^ k * z` with `z` in one of 128 intervals around
    one.  Each interval has a simple fraction `c` inside, and

        log x = k * log 2 + log c + log (1 + r),   r = z / c - 1,

    where `r` is exact and below 1/128, so a short polynomial gives the last
    part.  The result is a sum of two doubles, the second far below the
    first. -/

namespace Workflow

namespace Binary64

/-- One. -/
def one : Binary64 := ofRatio 1 1

/-- A number as the sum of a leading and a trailing part. -/
structure Parts where
  lead  : Binary64
  trail : Binary64

namespace Parts

/-- A multiple of `2 ^ -160`, its leading part rounded to some bits behind the
    point. -/
def ofSeries (bits : Nat) (x : Int) : Parts :=
  let unit := 2 ^ (Series.bits - bits)
  let lead : Int := roundQuotient x.natAbs unit
  let lead := if x < 0 then -lead else lead
  ⟨ofRatio lead (2 ^ bits), ofRatio (x - lead * unit) Series.one⟩

end Parts

namespace Logarithm

/-- Where the intervals start, as the fraction of a significand. -/
def start : Nat := 0x6955500000000

/-- Bits of a significand below those that number the intervals. -/
def intervalBits : Nat := 45

/-- The reciprocal of the simple fraction in an interval, in parts of 256:
    the one nearest to the reciprocal of the middle, and one of 128 parts in
    the intervals that lie in front. -/
def reciprocal (i : Nat) : Nat :=
  let middle := start + i * 2 ^ intervalBits + 2 ^ (intervalBits - 1)
  let numerator := if middle < 2 ^ 52 then 2 ^ 53 else 2 ^ 52
  let denominator := if middle < 2 ^ 52 then 2 ^ 52 + middle else middle
  if i < 83 then 2 * roundQuotient (128 * numerator) denominator
  else roundQuotient (256 * numerator) denominator

/-- The logarithm of the simple fraction in an interval. -/
def ofInterval (i : Nat) : Parts :=
  .ofSeries 43 (Series.logRatio 256 (reciprocal i))

/-- The logarithm of two. -/
def two : Parts := .ofSeries 42 Series.log2

/-- The coefficients of the polynomial for `log (1 + r)`, of the square and
    the higher powers.  Each is divided by the power of minus a half that
    the evaluation puts in. -/
def coefficient (i : Nat) : Binary64 :=
  let (numerator, bits) : Int × Nat :=
    match i with
    | 0 => (-1, 1)
    | 1 => (-0x15555555555560, 53)
    | 2 => (0x10000000000006, 53)
    | 3 => (0x1999999959554e, 53)
    | 4 => (-0x1555555529a47a, 53)
    | 5 => (-0x12495b9b4845e9, 52)
    | _ => (0x10002b8b263fc3, 52)
  ofRatio numerator (2 ^ bits)

/-- The logarithm of `2 ^ k * z`, with `z` in an interval and `r` its relative
    distance from the simple fraction there. -/
def sum (k : Int) (i : Nat) (r : Binary64) : Parts :=
  let k := ofRatio k 1
  let c := ofInterval i
  let whole := fused k two.lead c.lead
  let near := whole + r
  let half := coefficient 0 * r
  let square := r * half
  let lead := near + square
  let rest := fused k two.trail c.trail + (whole - near + r) +
    fused half r (-square) + (near - lead + square)
  let inner := fused square (fused r (coefficient 6) (coefficient 5))
    (fused r (coefficient 4) (coefficient 3))
  let outer := fused square inner (fused r (coefficient 2) (coefficient 1))
  let trail := fused (r * square) outer rest
  ⟨lead + trail, lead - (lead + trail) + trail⟩

end Logarithm

/-- The logarithm of a positive number of units. -/
def logUnits (units : Nat) : Parts :=
  let top := units.log2
  let significand : Nat := units * 2 ^ 52 / 2 ^ top
  let place : Int := (significand : Int) - 2 ^ 52 - Logarithm.start
  let i := (place / 2 ^ Logarithm.intervalBits % 128).toNat
  let k : Int := if place < 0 then (top : Int) - 1074 else (top : Int) - 1073
  let scale : Nat := if place < 0 then 2 ^ 60 else 2 ^ 61
  let product := significand * Logarithm.reciprocal i
  let r := ofRatio ((product : Int) - scale) scale
  Logarithm.sum k i r

end Binary64

end Workflow
