import Workflow.Binary64.Power
import Workflow.Duration
import Workflow.Value

/-! # Backoff — the delay before a retry

    The delay grows by a factor with each attempt and gets a random part of
    the jitter on top.  Whole numbers stay exact until a double joins in. -/

namespace Workflow

namespace Number

/-- The number that a value is; a Boolean counts as a whole one. -/
def ofValue : Value → Except NumericError Number
  | .scalar (.int i)   => .ok (.whole i)
  | .scalar (.bool b)  => .ok (.whole (if b then 1 else 0))
  | .scalar (.float x) => .ok (.real x)
  | _                  => .error .wrongKind

/-- The double nearest to a number, unless it is beyond the finite range. -/
def toBinary64 : Number → Except NumericError Binary64
  | .whole i =>
    match Binary64.ofInt? i with
    | some x => .ok x
    | none   => .error .overflow
  | .real x => .ok x

/-- A computation on whole numbers, or on doubles when one is a double. -/
def combine (onInt : Int → Int → Int) (onReal : Binary64 → Binary64 → Binary64) :
    Number → Number → Except NumericError Number
  | .whole i, .whole j => .ok (.whole (onInt i j))
  | a,        b        => do
    let x ← a.toBinary64
    let y ← b.toBinary64
    pure (.real (onReal x y))

/-- Sum. -/
def add : Number → Number → Except NumericError Number :=
  combine (· + ·) Binary64.add

/-- Difference. -/
def sub : Number → Number → Except NumericError Number :=
  combine (· - ·) Binary64.sub

/-- Product. -/
def mul : Number → Number → Except NumericError Number :=
  combine (· * ·) Binary64.mul

/-- Whole powers with a greater exponent are not computed, but for those of
    zero, one and minus one. -/
def exponentLimit : Nat := 2 ^ 26

/-- A power of a whole number. -/
def powWhole (i : Int) (n : Nat) : Except NumericError Number :=
  if i.natAbs ≤ 1 then
    .ok (.whole (if n = 0 then 1 else if i = -1 ∧ n % 2 = 0 then 1 else i))
  else if n ≤ exponentLimit then .ok (.whole (i ^ n))
  else .error .overflow

/-- A power of a double; a finite one must not grow beyond the finite range,
    be it real or not. -/
def powReal (x y : Binary64) : Except NumericError Number :=
  match x.pow y with
  | .infinite s =>
    if x.isFinite && y.isFinite then .error .overflow else .ok (.real (.infinite s))
  | .nan        =>
    if x.isFinite && y.isFinite then
      .error (if (x.abs.pow y).isFinite then .notReal else .overflow)
    else .ok (.real .nan)
  | z           => .ok (.real z)

/-- A power with an exponent that is not below zero. -/
def pow : Number → Number → Except NumericError Number
  | .whole i, .whole n => powWhole i n.toNat
  | a,        b        => do
    let x ← a.toBinary64
    let y ← b.toBinary64
    powReal x y

/-- Refuses a whole number with more digits than can be written. -/
def written : Number → Except NumericError Number
  | .whole i => if i.natAbs < 10 ^ digitLimit then .ok (.whole i) else .error .tooLong
  | .real x  => .ok (.real x)

end Number

/-- A number between two bounds, at the fraction `u` of the way. -/
def uniform (low high u : Number) : Except NumericError Number := do
  let width ← high.sub low
  let part ← width.mul u
  low.add part

/-- The exponent of the growth at an attempt: one less than its number, but
    not below zero. -/
def growthExponent : Number → Number
  | .whole i => .whole (max (i - 1) 0)
  | .real x  =>
    let y := x.sub Binary64.one
    if y.compare? .zero = some .lt then .whole 0 else .real y

/-- A delay with a random part of the jitter on top. -/
def jittered (delay jitter u : Number) : Except NumericError Number := do
  let extra ← uniform (.whole 0) jitter u
  delay.add extra

/-- The delay before the retry that follows the `attempt`-th attempt. -/
def backoffDelay (attempt base factor jitter u : Number) :
    Except NumericError Number := do
  let growth ← factor.pow (growthExponent attempt)
  let delay ← base.mul growth
  jittered delay jitter u

/-- The usual growth of the delay. -/
def defaultFactor : Number := .real (Binary64.ofRatio 2 1)

/-- The usual first delay and jitter, a hundredth of a second. -/
def defaultDelay : Number := .real (Binary64.ofRatio 1 100)

/-- A value that a whole number can repeat: the number of its parts, the
    bytes of each, and the error of parts beyond count. -/
def repeatable? : Value → Option (Nat × Nat × NumericError)
  | .list xs           => some (xs.length, 8, .noRoom)
  | .tuple xs          => some (xs.length, 8, .noRoom)
  | .scalar (.bytes b) => some (b.length, 1, .overflow)
  | v                  => v.toText?.map fun s => (s.length, 1, .overflow)

/-- The bytes for which there is room. -/
def roomLimit : Nat := 2 ^ 38

/-- Can the parts be repeated a number of times?  The result is no number all
    the same. -/
def checkRepeated (count width : Nat) (beyond : NumericError) :
    Number → Except NumericError Unit
  | .whole n =>
    if 2 ^ 63 ≤ n ∨ n < -(2 ^ 63) then .error .overflow
    else if 2 ^ 63 ≤ count * n.toNat then .error beyond
    else if roomLimit ≤ count * width * n.toNat then .error .noRoom
    else .ok ()
  | .real _  => .error .wrongKind

/-- The first delay times its growth. -/
def grown (base : Value) (growth : Number) : Except NumericError Number := do
  let base ← Number.ofValue base
  base.mul growth

/-- The delay for parameters given as values, looked at in the order of the
    computation.  A growth that is not real makes the delay so too, unless
    another parameter is beyond the finite range, and a base that can be
    repeated fails only behind the jitter. -/
def looseBackoff (attempt base factor jitter u : Value) :
    Except NumericError Number := do
  let attempt ← Number.ofValue attempt
  let factor ← Number.ofValue factor
  match factor.pow (growthExponent attempt) with
  | .error .notReal =>
    let base ← Number.ofValue base
    let _ ← base.toBinary64
    let extra ← uniform (.whole 0) (← Number.ofValue jitter) (← Number.ofValue u)
    let _ ← extra.toBinary64
    throw .notReal
  | .error e        => throw e
  | .ok growth      =>
    match repeatable? base with
    | some (count, width, beyond) =>
      checkRepeated count width beyond growth
      let _ ← uniform (.whole 0) (← Number.ofValue jitter) (← Number.ofValue u)
      throw .wrongKind
    | none =>
      let delay ← grown base growth
      let total ← jittered delay (← Number.ofValue jitter) (← Number.ofValue u)
      total.written

end Workflow
