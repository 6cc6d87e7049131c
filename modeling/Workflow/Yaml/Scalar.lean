import Workflow.Text.Base64
import Workflow.Text.Blank
import Workflow.Text.Lowercase
import Workflow.Value
import Workflow.Yaml.Cursor

/-! # Scalar — what the word of a YAML text denotes

    The form of a plain word tells its kind: null, a Boolean, an integer, a
    double or a time; every other word is a text.  A double needs a point,
    and its exponent a sign; underscores may part the digits of a number,
    and colons part places of base sixty. -/

namespace Workflow

namespace Yaml

/-- The kinds of scalars.  A `merge` key takes entries over from another
    map; a `default` key is a text as a key and nothing as a value. -/
inductive Kind where
  | null
  | bool
  | int
  | float
  | time
  | text
  | binary
  | merge
  | default
deriving DecidableEq

/-! ## Words -/

/-- The words for null. -/
def nullWords : List String := ["", "~", "null", "Null", "NULL"]

/-- The words for true, in lower case. -/
def trueWords : List String := ["yes", "true", "on"]

/-- The words for false, in lower case. -/
def falseWords : List String := ["no", "false", "off"]

/-- A word in lower case. -/
def lowered (cs : List Char) : List Char := cs.map Char.toLower

/-- Is the word one of some, in lower case, in capitals, or with a capital
    in front? -/
def isWordOf (words : List String) (cs : List Char) : Bool :=
  words.contains (String.ofList (lowered cs)) &&
    (cs == lowered cs || cs == cs.map Char.toUpper ||
      cs == (cs.take 1).map Char.toUpper ++ lowered (cs.drop 1))

/-! ## Forms of numbers -/

/-- The sign in front of a number, and the rest. -/
def splitSign : List Char → Bool × List Char
  | '-' :: cs => (true, cs)
  | '+' :: cs => (false, cs)
  | cs        => (false, cs)

/-- Is it a digit of a base? -/
def isDigitOf (base : Nat) (c : Char) : Bool := (hexValue? c).any fun d => d < base

/-- Are there digits of a base and underscores only, and anything at all? -/
def areDigits (base : Nat) (cs : List Char) : Bool :=
  !cs.isEmpty && cs.all fun c => c == '_' || isDigitOf base c

/-- Are there digits and underscores, a digit in front? -/
def isDecimal (cs : List Char) : Bool :=
  (cs.head?.any Char.isDigit) && areDigits 10 cs

/-- The parts between separators. -/
def parts (separator : Char) : List Char → List (List Char)
  | []      => [[]]
  | c :: cs =>
    match parts separator cs with
    | p :: ps => if c = separator then [] :: p :: ps else (c :: p) :: ps
    | []      => [[c]]

/-- Is it a place of base sixty: a number of one digit or two below 60? -/
def isSixtieth : List Char → Bool
  | [c]    => c.isDigit
  | [c, d] => '0' ≤ c && c ≤ '5' && d.isDigit
  | _      => false

/-- Does a word without sign have the form of an integer: binary after `0b`,
    hexadecimal after `0x`, octal after a zero, decimal, or places of base
    sixty? -/
def isIntForm : List Char → Bool
  | ['0']            => true
  | '0' :: 'b' :: cs => areDigits 2 cs
  | '0' :: 'x' :: cs => areDigits 16 cs
  | '0' :: cs        => areDigits 8 cs
  | cs               =>
    match parts ':' cs with
    | p :: ps => isDecimal p && ps.all isSixtieth
    | []      => false

/-- An exponent with its letter and its sign, or nothing. -/
def isExponent : List Char → Bool
  | []              => true
  | e :: sign :: ds =>
    (e == 'e' || e == 'E') && (sign == '-' || sign == '+') && !ds.isEmpty &&
      ds.all Char.isDigit
  | _               => false

/-- Does what follows a point have the form of a fraction: digits and
    underscores, and an exponent? -/
def isFraction (cs : List Char) : Bool :=
  isExponent (cs.dropWhile fun c => c.isDigit || c == '_')

/-- Does a word without sign have the form of a double that starts with a
    digit? -/
def isFloatForm (cs : List Char) : Bool :=
  let whole := cs.takeWhile (· != '.')
  match cs.dropWhile (· != '.') with
  | '.' :: fraction =>
    match parts ':' whole with
    | [p]     => isDecimal p && isFraction fraction
    | p :: ps =>
      isDecimal p && ps.all isSixtieth && (fraction.isEmpty || areDigits 10 fraction)
    | []      => false
  | _               => false

/-- Is it the word of a double without digits, or one that starts with a
    point?  Such a double has no sign. -/
def isFloatWord (cs : List Char) : Bool :=
  let (_, body) := splitSign cs
  [".inf", ".Inf", ".INF"].contains (String.ofList body) ||
    [".nan", ".NaN", ".NAN"].contains (String.ofList cs) ||
    (match cs with
      | '.' :: c :: cs => c.isDigit && isFraction cs
      | _              => false)

/-! ## Forms of times -/

/-- The fields of a time, of the day if there is one. -/
structure TimeFields where
  year  : Nat
  month : Nat
  day   : Nat
  clock : Option (Nat × Nat × Nat × Nat × Option Int) := none

/-- At least `least` and at most `most` digits in front, as a number. -/
def digitsBetween (least most : Nat) (cs : List Char) : Option (Nat × List Char) :=
  let ds := (cs.take most).takeWhile Char.isDigit
  if least ≤ ds.length then some (ofDigits ds, cs.drop ds.length) else none

/-- What follows a character that must be in front. -/
def after? (c : Char) : List Char → Option (List Char)
  | d :: cs => if c = d then some cs else none
  | []      => none

/-- The offset of a zone in seconds, up to the end. -/
def zone? (cs : List Char) : Option (Option Int) :=
  match cs.dropWhile fun c => c == ' ' || c == '\t' with
  | []          => if cs = [] then some none else none
  | ['Z']       => some (some 0)
  | sign :: cs  =>
    if sign = '+' ∨ sign = '-' then do
      let (h, cs) ← digitsBetween 1 2 cs
      let m ← match cs with
        | []        => some 0
        | ':' :: cs =>
          match digitsBetween 2 2 cs with
          | some (m, []) => some m
          | _            => none
        | _         => none
      let seconds : Int := ((h * 60 + m) * 60 : Nat)
      some (some (if sign = '-' then -seconds else seconds))
    else none

/-- The microseconds of a fraction, cut to six digits, and the rest. -/
def micros (cs : List Char) : Nat × List Char :=
  match cs with
  | '.' :: cs =>
    let (ds, rest) := spanDigits cs
    (ofDigits ((ds ++ List.replicate 6 '0').take 6), rest)
  | cs        => (0, cs)

/-- The fields of a word that has the form of a time: a date, perhaps with a
    time of day. -/
def timeFields? (cs : List Char) : Option TimeFields := do
  let (year, rest) ← digitsBetween 4 4 cs
  let (month, rest) ← digitsBetween 1 2 (← after? '-' rest)
  let (day, rest) ← digitsBetween 1 2 (← after? '-' rest)
  if rest = [] then some ⟨year, month, day, none⟩
  else
    let rest ← match rest with
      | c :: rest =>
        if c = 'T' ∨ c = 't' then some rest
        else if c = ' ' ∨ c = '\t' then
          some (rest.dropWhile fun c => c == ' ' || c == '\t')
        else none
      | []        => none
    let (hour, rest) ← digitsBetween 1 2 rest
    let (minute, rest) ← digitsBetween 2 2 (← after? ':' rest)
    let (second, rest) ← digitsBetween 2 2 (← after? ':' rest)
    let (micro, rest) := micros rest
    let zone ← zone? rest
    some ⟨year, month, day, some (hour, minute, second, micro, zone)⟩

/-- Does a plain word tell a time by its form?  A date alone has to be
    written in full. -/
def isTimeForm (cs : List Char) : Bool :=
  (timeFields? cs).any fun f => f.clock.isSome || cs.length == 10

/-- The kind of a plain word. -/
def kindOf (cs : List Char) : Kind :=
  let (_, body) := splitSign cs
  if isWordOf (trueWords ++ falseWords) cs then .bool
  else if isFloatForm body || isFloatWord cs then .float
  else if isIntForm body then .int
  else if cs = ['<', '<'] then .merge
  else if nullWords.contains (String.ofList cs) then .null
  else if isTimeForm cs then .time
  else if cs = ['='] then .default
  else .text

/-! ## Values of words -/

/-- A word without underscores. -/
def joined (cs : List Char) : List Char := cs.filter (· != '_')

/-- The number that digits of a base denote. -/
def ofBase (base : Nat) (cs : List Char) : Nat :=
  cs.foldl (fun n c => n * base + (hexValue? c).getD 0) 0

/-- The letter behind a zero that marks a base. -/
def baseLetter? : Nat → Option Char
  | 2  => some 'b'
  | 8  => some 'o'
  | 16 => some 'x'
  | _  => none

/-- Digits without the mark of their base. -/
def withoutMark (base : Nat) : List Char → List Char
  | '0' :: c :: cs => if baseLetter? base = some c.toLower then cs else '0' :: c :: cs
  | cs             => cs

/-- The integer that a text denotes in a base: digits, which must be some but
    not too many decimal ones, with blanks around them, a sign and the mark
    of the base as they please. -/
def integerIn (base : Nat) (cs : List Char) : Except Fault Int :=
  let (negative, body) := splitSign (trimBoth isWhite cs)
  let ds := withoutMark base body
  if ds ≠ [] ∧ ds.all (isDigitOf base) ∧ (base = 10 → ds.length ≤ digitLimit) then
    .ok (if negative then -(ofBase base ds : Int) else ofBase base ds)
  else .error .noValue

/-- The integer that a word without sign and underscores denotes. -/
def magnitude : List Char → Except Fault Int
  | []               => .error .empty
  | ['0']            => .ok 0
  | '0' :: 'b' :: cs => integerIn 2 cs
  | '0' :: 'x' :: cs => integerIn 16 cs
  | '0' :: cs        => integerIn 8 ('0' :: cs)
  | cs               => do
    let places ← (parts ':' cs).mapM (integerIn 10)
    pure (places.foldl (fun n place => n * 60 + place) 0)

/-- The integer that a word denotes. -/
def intValue (cs : List Char) : Except Fault Value := do
  let (negative, body) := splitSign (joined cs)
  let n ← magnitude body
  pure (.int (if negative then -n else n))

/-- The double that places of base sixty denote, the lowest first; `unit` is
    the weight of the first one. -/
def sixtieths (total : Binary64) (unit : Nat) : List Binary64 → Except Fault Binary64
  | []      => .ok total
  | x :: xs =>
    match Binary64.ofInt? unit with
    | some u => sixtieths (total.add (x.mul u)) (unit * 60) xs
    | none   => .error .tooLarge

/-- The double that digits denote. -/
def realValue (cs : List Char) : Except Fault Binary64 :=
  match Binary64.ofChars? (trimBoth isWhite cs) with
  | some x => .ok x
  | none   => .error .noValue

/-- The double that a word denotes. -/
def floatValue (cs : List Char) : Except Fault Value := do
  let word := lowered (joined cs)
  let (negative, body) := splitSign word
  let x ←
    if word = [] then throw .empty
    else if body = ['.', 'i', 'n', 'f'] then pure (Binary64.infinite false)
    else if body = ['.', 'n', 'a', 'n'] then pure Binary64.nan
    else match parts ':' body with
      | [p] => realValue p
      | ps  => do
        let places ← ps.mapM realValue
        sixtieths Binary64.zero 1 places.reverse
  pure (.float (if negative then x.neg else x))

/-- The value of a Boolean word. -/
def boolValue (cs : List Char) : Except Fault Value :=
  let word := String.ofList (cs.flatMap lowerChar)
  if trueWords.contains word then .ok (.bool true)
  else if falseWords.contains word then .ok (.bool false)
  else .error (.noWord word)

/-- The bytes that a word denotes. -/
def binaryValue (cs : List Char) : Except Fault Value :=
  match Base64.bytes? cs with
  | some b => if cs.all fun c => c.toNat < 128 then .ok (.bytes b) else .error .malformed
  | none   => .error .malformed

/-- The time of fields; a date alone is an opaque value, and a field out of
    range is none. -/
def timeOfFields (f : TimeFields) : Except Fault Value :=
  match Date.ofFields? f.year f.month f.day, f.clock with
  | none,      _    => .error .noValue
  | some _,    none => .ok (.thing "date" none)
  | some date, some (hour, minute, second, micro, zone) =>
    match Timestamp.ofFields? date hour minute second micro zone with
    | some t => if (zone.getD 0).natAbs < 86400 then .ok (.time t) else .error .noValue
    | none   => .error .noValue

/-- A word without a line feed at its end. -/
def withoutFinalBreak (cs : List Char) : List Char :=
  if cs.getLast? = some '\n' ∧ cs.length ≠ 1 then cs.dropLast else cs

/-- The value of a word of a kind. -/
def wordValue (kind : Kind) (cs : List Char) : Except Fault Value :=
  match kind with
  | .null    => .ok .null
  | .bool    => boolValue cs
  | .int     => intValue cs
  | .float   => floatValue cs
  | .time    =>
    match timeFields? (withoutFinalBreak cs) with
    | some f => timeOfFields f
    | none   => .error .noTime
  | .text    => .ok (.str (String.ofList cs))
  | .binary  => binaryValue cs
  | .merge   => .error .malformed
  | .default => .error .malformed

end Yaml

end Workflow
