/-! # Series — logarithms and exponentials to many bits

    Numbers are whole multiples of `2 ^ -160`.  Both series are cut off where
    their terms fall below one such multiple, so a result is off by a few
    dozen of them, far less than a double can tell. -/

namespace Workflow

-- A sum starts from the numeral, also in a module that imports the zero of an algebra.
attribute [local instance (20000)] Zero.ofOfNat0

namespace Series

/-- Bits behind the point. -/
def bits : Nat := 160

/-- One. -/
def one : Nat := 2 ^ bits

/-- Terms of a series that are summed. -/
def terms : Nat := 64

/-- The natural logarithm of a fraction near one: twice the sum of the odd
    powers of `(n - d) / (n + d)`, each divided by its exponent. -/
def logRatio (n d : Nat) : Int :=
  let a : Int := (n : Int) - d
  let b : Int := (n : Int) + d
  let term (i : Nat) : Int :=
    2 * a ^ (2 * i + 1) * one / ((2 * i + 1 : Nat) * b ^ (2 * i + 1))
  ((List.range terms).map term).sum

/-- The natural logarithm of two. -/
def log2 : Int := logRatio 2 1

/-- The exponential of a number below one: `1 + x / 1 * (1 + x / 2 * …)`. -/
def exp (x : Nat) : Nat :=
  (List.range terms).foldr (fun i rest => one + x * rest / (one * (i + 1))) one

end Series

end Workflow
