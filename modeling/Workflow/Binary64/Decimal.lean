import Workflow.Binary64

/-! # Decimal — decimal texts of double-precision numbers

    The written form of a number is the SHORTEST decimal that reads back as
    that number, and of those the nearest.  Reading rounds a decimal of any
    length once, so a written number is read back unchanged. -/

namespace Workflow

/-- The decimal digits of a natural number, as a text. -/
def digitsOf (n : Nat) : List Char := Nat.toDigits 10 n

/-- The natural number that a text of decimal digits denotes. -/
def ofDigits (cs : List Char) : Nat :=
  cs.foldl (fun n c => 10 * n + (c.toNat - '0'.toNat)) 0

/-- An integer in decimal. -/
def intText (i : Int) : List Char :=
  if i < 0 then '-' :: digitsOf i.natAbs else digitsOf i.natAbs

/-- Most digits of an integer that is read from a text or written as one. -/
def digitLimit : Nat := 4300

/-- Digits padded with zeros on the left to a width. -/
def paddedDigits (width n : Nat) : List Char :=
  List.replicate (width - (digitsOf n).length) '0' ++ digitsOf n

/-- A positive decimal: `significand * 10 ^ exponent`. -/
structure Decimal where
  significand : Nat
  exponent    : Int
deriving DecidableEq

namespace Decimal

/-- Removes trailing zeros of the significand. -/
def strip (significand : Nat) (exponent : Int) : Decimal :=
  if significand = 0 then ⟨0, exponent⟩
  else if significand % 10 = 0 then strip (significand / 10) (exponent + 1)
  else ⟨significand, exponent⟩
termination_by significand
decreasing_by omega

/-- Decimals beyond this exponent are far outside the binary range. -/
def exponentLimit : Nat := 400

/-- The binary number nearest to a decimal. -/
def toBinary64 (negative : Bool) (d : Decimal) : Binary64 :=
  if d.significand = 0 then .signedZero negative
  else match d.exponent with
    | .ofNat e =>
      if exponentLimit < e then .infinite negative
      else Binary64.ofUnits negative
        (d.significand * 10 ^ e * Binary64.unitsInOne) 1
    | .negSucc e =>
      if exponentLimit + d.significand.log2 < e + 1 then .signedZero negative
      else Binary64.ofUnits negative
        (d.significand * Binary64.unitsInOne) (10 ^ (e + 1))

/-- Position of the leading digit of a fraction below one: the least `k`
    with `d ≤ n * 10 ^ k`. -/
def leadingPlace (d : Nat) : Nat → Nat → Nat
  | 0,        _ => 0
  | fuel + 1, n => if d ≤ n then 0 else leadingPlace d fuel (n * 10) + 1

/-- The decimal exponent of the leading digit of a positive fraction. -/
def leadingExponent (n d : Nat) : Int :=
  if d ≤ n then ((digitsOf (n / d)).length : Int) - 1
  else -(leadingPlace d exponentLimit n : Int)

/-- The fraction `n / d` in units of `10 ^ place`, with its two parts. -/
def onGrid (n d : Nat) (place : Int) : Nat × Nat :=
  match place with
  | .ofNat p   => (n, d * 10 ^ p)
  | .negSucc p => (n * 10 ^ (p + 1), d)

/-- The two neighbours of a fraction on a decimal grid, the nearer one
    first; of two equally near ones the even one. -/
def neighbours (n d : Nat) (place : Int) : List Decimal :=
  let g := onGrid n d place
  let below := g.1 / g.2
  if Binary64.roundQuotient g.1 g.2 = below then
    [⟨below, place⟩, ⟨below + 1, place⟩]
  else [⟨below + 1, place⟩, ⟨below, place⟩]

/-- The shortest decimal among grids of `count`, `count + 1`, … digits that
    reads back as `x`. -/
def searchShortest (x : Binary64) (n d : Nat) (lead : Int) :
    Nat → Nat → Option Decimal
  | 0,        _     => none
  | fuel + 1, count =>
    match (neighbours n d (lead - count)).find?
        (fun c => c.toBinary64 false == x) with
    | some c => some c
    | none   => searchShortest x n d lead fuel (count + 1)

/-- Every finite number is a decimal: `units * 5 ^ 1074 * 10 ^ -1074`. -/
def exact (units : Nat) : Decimal := strip (units * 5 ^ 1074) (-1074)

/-- The shortest decimal that reads back as the positive number of the given
    magnitude.  Seventeen digits are always enough; the exact expansion
    closes the search. -/
def shortest (exponent : Fin 2047) (fraction : Fin (2 ^ 52)) : Decimal :=
  let n := Binary64.magnitude exponent fraction
  let d := Binary64.unitsInOne
  match searchShortest (.finite false exponent fraction) n d
      (leadingExponent n d) 17 0 with
  | some c => strip c.significand c.exponent
  | none   => exact n

/-- The exponent part of a scientific text: a sign and two digits or
    more. -/
def exponentText (e : Int) : List Char :=
  (if e < 0 then ['e', '-'] else ['e', '+']) ++ paddedDigits 2 e.natAbs

/-- Scientific text of digits whose leading one has exponent `e`. -/
def scientific (ds : List Char) (e : Int) : List Char :=
  match ds with
  | []      => []
  | [c]     => c :: exponentText e
  | c :: cs => c :: '.' :: cs ++ exponentText e

/-- Positional text of digits with the point after `point` of them;
    `whole` closes a text that needs no fraction. -/
def positional (ds : List Char) (point : Int) (whole : List Char) :
    List Char :=
  if point ≤ 0 then
    '0' :: '.' :: List.replicate point.natAbs '0' ++ ds
  else
    let p := point.toNat
    if ds.length ≤ p then
      ds ++ List.replicate (p - ds.length) '0' ++ whole
    else ds.take p ++ '.' :: ds.drop p

/-- Layout of a stored number: positional from `0.0001` up to sixteen
    integer digits, always with a point, otherwise scientific. -/
def layout (d : Decimal) : List Char :=
  let ds := digitsOf d.significand
  let point := d.exponent + ds.length
  if -4 < point ∧ point ≤ 16 then positional ds point ['.', '0']
  else scientific ds (point - 1)

/-- Layout of a displayed number: positional from `0.0001` up to six integer
    digits, without an empty fraction. -/
def display (d : Decimal) : List Char :=
  let ds := digitsOf d.significand
  let point := d.exponent + ds.length
  if -4 < point ∧ point ≤ 6 then positional ds point []
  else scientific ds (point - 1)

/-- The positive fraction `n / d` rounded to six significant digits. -/
def sixDigits (n d : Nat) : Decimal :=
  let place := leadingExponent n d - 5
  let g := onGrid n d place
  strip (Binary64.roundQuotient g.1 g.2) place

end Decimal

namespace Binary64

/-- The sign of a written number. -/
def signText (negative : Bool) : List Char := if negative then ['-'] else []

/-- The written form: shortest digits that read back, with a point or an
    exponent so that it cannot be taken for an integer. -/
def chars : Binary64 → List Char
  | .nan => ['n', 'a', 'n']
  | .infinite s => signText s ++ ['i', 'n', 'f']
  | .finite s e f =>
    signText s ++
      if magnitude e f = 0 then ['0', '.', '0']
      else (Decimal.shortest e f).layout

/-- The written form as a string. -/
def text (x : Binary64) : String := String.ofList x.chars

/-- The form for display: six significant digits, no trailing zeros. -/
def displayText : Binary64 → String
  | .nan => "nan"
  | .infinite s => String.ofList (signText s ++ ['i', 'n', 'f'])
  | .finite s e f =>
    String.ofList (signText s ++
      if magnitude e f = 0 then ['0']
      else (Decimal.sixDigits (magnitude e f) unitsInOne).display)

/-- A non-negative number with one decimal place, half to even. -/
def oneDecimal : Binary64 → String
  | .nan => "nan"
  | .infinite s => String.ofList (signText s ++ ['i', 'n', 'f'])
  | .finite s e f =>
    let tenths := roundQuotient (magnitude e f * 10) unitsInOne
    String.ofList
      (signText s ++ digitsOf (tenths / 10) ++ '.' :: digitsOf (tenths % 10))

end Binary64

/-- The digits at the front of a text, and the rest. -/
def spanDigits (cs : List Char) : List Char × List Char :=
  (cs.takeWhile Char.isDigit, cs.dropWhile Char.isDigit)

/-- The fraction part of a number: a point and digits after it. -/
def spanFraction : List Char → List Char × List Char
  | '.' :: cs => spanDigits cs
  | cs        => ([], cs)

/-- The exponent part of a number, if one stands there in full. -/
def spanExponent (cs : List Char) : Option (Int × List Char) :=
  match cs with
  | c :: rest =>
    if c = 'e' ∨ c = 'E' then
      let (negative, rest) := match rest with
        | '-' :: r => (true, r)
        | '+' :: r => (false, r)
        | r        => (false, r)
      let (ds, rest) := spanDigits rest
      if ds = [] then none
      else some (if negative then -(ofDigits ds : Int) else ofDigits ds, rest)
    else none
  | [] => none

/-- The decimal made of integer digits, fraction digits and an exponent. -/
def Decimal.ofParts (whole fraction : List Char) (exponent : Int) : Decimal :=
  ⟨ofDigits (whole ++ fraction), exponent - fraction.length⟩

namespace Binary64

/-- The words for numbers without digits, in any letter case. -/
def ofWord? (negative : Bool) (cs : List Char) : Option Binary64 :=
  let word := String.ofList (cs.map Char.toLower)
  if word = "nan" then some .nan
  else if word = "inf" ∨ word = "infinity" then some (.infinite negative)
  else none

/-- An unsigned number: digits with an optional point somewhere and an
    optional exponent. -/
def ofUnsigned? (negative : Bool) (cs : List Char) : Option Binary64 :=
  let (whole, rest) := spanDigits cs
  let (fraction, rest) := spanFraction rest
  if whole = [] ∧ fraction = [] then ofWord? negative cs
  else match rest with
    | [] => some ((Decimal.ofParts whole fraction 0).toBinary64 negative)
    | rest => match spanExponent rest with
      | some (e, []) =>
        some ((Decimal.ofParts whole fraction e).toBinary64 negative)
      | _ => none

/-- Reads a number text: an optional sign, then digits or a word. -/
def ofChars? : List Char → Option Binary64
  | '-' :: cs => ofUnsigned? true cs
  | '+' :: cs => ofUnsigned? false cs
  | cs        => ofUnsigned? false cs

/-- Reads a number text. -/
def ofText? (s : String) : Option Binary64 := ofChars? s.toList

end Binary64

end Workflow
