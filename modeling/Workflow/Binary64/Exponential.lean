import Workflow.Binary64.Logarithm

/-! # Exponential — exponentials of numbers given in two parts

    A number is `k * log 2 / 128 + r` with a whole `k`, so its exponential is
    a power of two, times one of 128 roots of two, times `exp r`, for which
    a short polynomial is enough. -/

namespace Workflow

namespace Binary64

/-- The number nearest to `n * 2 ^ e`. -/
def ofScaled (n : Nat) (e : Int) : Binary64 :=
  match e + 1074 with
  | .ofNat k   => ofUnits false (n * 2 ^ k) 1
  | .negSucc k => ofUnits false n (2 ^ (k + 1))

namespace Exponential

/-- The root `2 ^ (i / 128)`: its significand, in parts of `2 ^ 52`, and how
    much the root exceeds it, in relation to it. -/
def root (i : Nat) : Nat × Binary64 :=
  let x := Series.exp (i * Series.log2.toNat / 128)
  let unit := 2 ^ (Series.bits - 52)
  let significand := roundQuotient x unit
  (significand, ofRatio (x - significand * unit : Int) (significand * unit))

/-- The logarithm of two in 128 parts. -/
def step : Parts := .ofSeries 44 (Series.log2 / 128)

/-- Steps of the logarithm of two in one. -/
def stepsInOne : Binary64 := ofRatio (128 * Series.one) Series.log2.toNat

/-- The whole number nearest to a number of units, ties to even. -/
def nearest (units : Int) (one : Nat) : Int :=
  let n : Int := roundQuotient units.natAbs one
  if units < 0 then -n else n

/-- The coefficients of the square and the higher powers in `exp r`. -/
def coefficient (i : Nat) : Binary64 :=
  let (numerator, bits) : Nat × Nat :=
    match i with
    | 2 => (0x1ffffffffffdbd, 54)
    | 3 => (0x1555555555543c, 55)
    | 4 => (0x155555cf172b91, 57)
    | _ => (0x11111167a4d017, 59)
  ofRatio numerator (2 ^ bits)

/-- What `exp r` times a root is above its significand, in relation to it. -/
def excess (tail r : Binary64) : Binary64 :=
  let square := r * r
  fused (square * square) (fused r (coefficient 5) (coefficient 4))
    (fused square (fused r (coefficient 3) (coefficient 2)) (tail + r))

/-- The product of `1 + excess` and a number of the given significand and
    exponent, rounded once. -/
def scaled (significand : Nat) (e : Int) (excess : Binary64) : Binary64 :=
  ofScaled (significand * (unitsInOne + excess.units?.getD 0).toNat) (e - 52 - 1074)

/-- The product of `1 + excess` and a small number: it is formed where doubles
    are fine enough and rounded to the places that are left, then moved to
    where it belongs. -/
def scaledSmall (significand : Nat) (e : Int) (excess : Binary64) : Binary64 :=
  let base := ofScaled significand (e + 1022 - 52)
  let part := base * excess
  let y := base + part
  let y := if y.compare? one = some .lt then
      let lead := one + y
      let trail := one - lead + y + (base - y + part)
      lead + trail - one
    else y
  y * ofScaled 1 (-1022)

/-- Below this size the exponential of a number is one and the number. -/
def tiny : Binary64 := ofRatio 1 (2 ^ 54)

/-- Below this size exponentials are of ordinary size. -/
def ordinary : Binary64 := ofRatio 512 1

/-- From this size on exponentials are beyond the range of doubles. -/
def huge : Binary64 := ofRatio 1024 1

end Exponential

open Exponential in
/-- The exponential of a number given in two parts. -/
def expParts (x : Parts) : Binary64 :=
  let size := x.lead.abs
  if size.compare? tiny = some .lt then one + x.lead
  else if size.compare? huge ≠ some .lt then
    if x.lead.isNegative then zero else .infinite false
  else
    let product := (x.lead.units?.getD 0) * (stepsInOne.units?.getD 0)
    let k := nearest product (unitsInOne * unitsInOne)
    let steps := ofRatio (-k) 1
    let r := fused steps step.trail (fused steps step.lead x.lead) + x.trail
    let (significand, tail) := root (k % 128).toNat
    let e := k / 128
    let above := excess tail r
    if k < 0 ∧ size.compare? ordinary ≠ some .lt then scaledSmall significand e above
    else scaled significand e above

end Binary64

end Workflow
