/-! # Binary64 — double-precision numbers, exactly

    A number of the 64-bit binary format is a sign, a biased exponent and a
    52-bit fraction.  Every finite one is a whole number of `2 ^ -1074`, so
    all arithmetic here is exact arithmetic on natural numbers followed by
    ONE rounding, to nearest with ties to even. -/

namespace Workflow

-- A power is the core library's, also in a module that imports the powers of an algebra.
attribute [instance (20000), default_instance (20000)] instPowNat

/-- A number of the 64-bit binary format.  Each number has one
    representation, apart from the two zeros. -/
inductive Binary64 where
  | nan
  | infinite (negative : Bool)
  | finite (negative : Bool) (exponent : Fin 2047) (fraction : Fin (2 ^ 52))
deriving DecidableEq

namespace Binary64

/-- Positive zero. -/
def zero : Binary64 := .finite false 0 0

/-- The zero with a sign. -/
def signedZero (negative : Bool) : Binary64 := .finite negative 0 0

instance : Inhabited Binary64 := ⟨zero⟩

/-- The fixed point of the format: units in one. -/
def unitsInOne : Nat := 2 ^ 1074

/-- The magnitude of a finite number in units of `2 ^ -1074`. -/
def magnitude (exponent : Fin 2047) (fraction : Fin (2 ^ 52)) : Nat :=
  if exponent.val = 0 then fraction.val
  else (2 ^ 52 + fraction.val) * 2 ^ (exponent.val - 1)

/-- The quotient rounded to nearest, ties to even. -/
def roundQuotient (n d : Nat) : Nat :=
  let q := n / d
  let r := n % d
  if 2 * r < d then q
  else if d < 2 * r then q + 1
  else if q % 2 = 0 then q else q + 1

/-- A significand of at most `2 ^ 53` units of `2 ^ shift`, as a number of
    the format; too large ones become infinite. -/
def pack (negative : Bool) (shift significand : Nat) : Binary64 :=
  if h : significand < 2 ^ 52 then .finite negative 0 ⟨significand, h⟩
  else if h : significand < 2 ^ 53 then
    if e : shift + 1 < 2047 then
      .finite negative ⟨shift + 1, e⟩ ⟨significand - 2 ^ 52, by omega⟩
    else .infinite negative
  else
    if e : shift + 2 < 2047 then .finite negative ⟨shift + 2, e⟩ 0
    else .infinite negative

/-- The number nearest to `n / d` units, ties to even. -/
def ofUnits (negative : Bool) (n d : Nat) : Binary64 :=
  let shift := (n / d).log2 - 52
  pack negative shift (roundQuotient n (d * 2 ^ shift))

/-- The number nearest to the fraction `n / d`. -/
def ofRatio (n : Int) (d : Nat) : Binary64 :=
  ofUnits (decide (n < 0)) (n.natAbs * unitsInOne) d

/-- The number nearest to an integer, unless it is beyond the finite
    range. -/
def ofInt? (i : Int) : Option Binary64 :=
  match ofRatio i 1 with
  | .infinite _ => none
  | x => some x

/-- Minus sign, also on zeros. -/
def isNegative : Binary64 → Bool
  | .nan => false
  | .infinite s => s
  | .finite s _ _ => s

/-- Is it zero, of either sign? -/
def isZero : Binary64 → Bool
  | .finite _ e f => magnitude e f == 0
  | _ => false

/-- Neither infinite nor undefined. -/
def isFinite : Binary64 → Bool
  | .finite _ _ _ => true
  | _ => false

/-- The exact value in units, of a finite number. -/
def units? : Binary64 → Option Int
  | .finite s e f => some (if s then -(magnitude e f : Int) else magnitude e f)
  | _ => none

/-- Change of sign. -/
def neg : Binary64 → Binary64
  | .nan => .nan
  | .infinite s => .infinite (!s)
  | .finite s e f => .finite (!s) e f

/-- The number without its sign. -/
def abs : Binary64 → Binary64
  | .nan => .nan
  | .infinite _ => .infinite false
  | .finite _ e f => .finite false e f

/-- The number with a given signed count of units; `zeroSign` is the sign
    of a zero sum. -/
def ofSignedUnits (zeroSign : Bool) (i : Int) : Binary64 :=
  ofUnits (if i = 0 then zeroSign else decide (i < 0)) i.natAbs 1

/-- Sum, rounded once. -/
def add : Binary64 → Binary64 → Binary64
  | .nan, _ => .nan
  | _, .nan => .nan
  | .infinite s, .infinite t => if s = t then .infinite s else .nan
  | .infinite s, _ => .infinite s
  | _, .infinite t => .infinite t
  | .finite s e f, .finite t e' f' =>
    let x : Int := if s then -(magnitude e f : Int) else magnitude e f
    let y : Int := if t then -(magnitude e' f' : Int) else magnitude e' f'
    ofSignedUnits (s && t) (x + y)

/-- Difference, rounded once. -/
def sub (x y : Binary64) : Binary64 := add x (neg y)

/-- Product, rounded once. -/
def mul : Binary64 → Binary64 → Binary64
  | .nan, _ => .nan
  | _, .nan => .nan
  | .infinite s, y => if y.isZero then .nan else .infinite (s != y.isNegative)
  | x, .infinite t => if x.isZero then .nan else .infinite (x.isNegative != t)
  | .finite s e f, .finite t e' f' =>
    ofUnits (s != t) (magnitude e f * magnitude e' f') unitsInOne

/-- Product and sum, `x * y + z`, rounded once at the end. -/
def fused : Binary64 → Binary64 → Binary64 → Binary64
  | .finite s e f, .finite t e' f', .finite u k g =>
    let p : Int := magnitude e f * magnitude e' f'
    let q : Int := magnitude k g * unitsInOne
    let p := if s != t then -p else p
    let q := if u then -q else q
    ofUnits (if p + q = 0 then (s != t) && u else decide (p + q < 0)) (p + q).natAbs
      unitsInOne
  | .finite _ _ _, .finite _ _ _, z => z
  | x,             y,             z => add (mul x y) z

instance : Add Binary64 := ⟨add⟩
instance : Sub Binary64 := ⟨sub⟩
instance : Mul Binary64 := ⟨mul⟩
instance : Neg Binary64 := ⟨neg⟩

/-- Quotient by a positive whole number, rounded once. -/
def divNat (x : Binary64) (d : Nat) : Binary64 :=
  match x with
  | .finite s e f => ofUnits s (magnitude e f) d
  | x => x

/-- The exact order of two numbers; undefined numbers compare with
    nothing. -/
def compare? : Binary64 → Binary64 → Option Ordering
  | .nan, _ => none
  | _, .nan => none
  | .infinite s, .infinite t =>
    some (if s = t then .eq else if s then .lt else .gt)
  | .infinite s, _ => some (if s then .lt else .gt)
  | _, .infinite t => some (if t then .gt else .lt)
  | .finite s e f, .finite t e' f' =>
    let x : Int := if s then -(magnitude e f : Int) else magnitude e f
    let y : Int := if t then -(magnitude e' f' : Int) else magnitude e' f'
    some (compare x y)

/-- The exact order of a number and an integer. -/
def compareInt? (x : Binary64) (i : Int) : Option Ordering :=
  match x with
  | .nan => none
  | .infinite s => some (if s then .lt else .gt)
  | .finite s e f =>
    let x : Int := if s then -(magnitude e f : Int) else magnitude e f
    some (compare x (i * unitsInOne))

/-- The integer part, toward zero, of a finite number. -/
def truncate? (x : Binary64) : Option Int :=
  x.units?.map (Int.tdiv · unitsInOne)

/-- The integer that a finite number equals, if it is whole. -/
def toInt? (x : Binary64) : Option Int :=
  x.units?.bind fun u =>
    if u % unitsInOne = 0 then some (u / unitsInOne) else none

/-- The integer part, toward negative infinity, of a finite number. -/
def floor? (x : Binary64) : Option Int :=
  x.units?.map (Int.fdiv · unitsInOne)

/-- The whole number nearest to a finite positive one, a half going up. -/
def roundHalfUp : Binary64 → Nat
  | .finite false e f => (2 * magnitude e f + unitsInOne) / (2 * unitsInOne)
  | _ => 0

end Binary64

end Workflow
