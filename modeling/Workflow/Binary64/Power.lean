import Workflow.Binary64.Exponential

/-! # Power — powers of double-precision numbers

    A power is the exponential of the exponent times the logarithm of the
    base.  The steps in between are rounded too, but finer than a double is,
    so a result is the nearest double or, close to the middle of two, at
    times the other one. -/

namespace Workflow

namespace Binary64

/-- Is it a whole number, and an odd one? -/
def isOdd (x : Binary64) : Bool := (x.toInt?.map (· % 2)) == some 1

/-- The product of a number in two parts and another number. -/
def Parts.times (x : Parts) (y : Binary64) : Parts :=
  let lead := y * x.lead
  ⟨lead, fused y x.trail (fused y x.lead (-lead))⟩

/-- The power of a positive number of units.  A tiny exponent makes it one,
    and one from `2 ^ 63` on leaves no finite power but zero and one. -/
def powUnits (units : Nat) (y : Binary64) : Binary64 :=
  if units = unitsInOne ∨ y.compare? (ofRatio 1 (2 ^ 65)) = some .lt then one
  else if y.compareInt? (2 ^ 63) ≠ some .lt then
    if units < unitsInOne then zero else .infinite false
  else expParts ((logUnits units).times y)

/-- The power with an exponent that is not below zero.  A negative number
    has no real power whose exponent is not whole. -/
def pow (x y : Binary64) : Binary64 :=
  if y.isZero then one
  else match x, y with
    | .nan,          _              => .nan
    | x,             .nan           => if x = one then one else .nan
    | .infinite s,   y              => .infinite (s && y.isOdd)
    | .finite _ e f, .infinite _    =>
      match compare (magnitude e f) unitsInOne with
      | .lt => zero
      | .eq => one
      | .gt => .infinite false
    | .finite s e f, y              =>
      if magnitude e f = 0 then .signedZero (s && y.isOdd)
      else if s && y.toInt?.isNone then .nan
      else
        let power := powUnits (magnitude e f) y
        if s && y.isOdd then -power else power

end Binary64

end Workflow
