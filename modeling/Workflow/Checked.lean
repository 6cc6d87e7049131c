import Workflow.Duration
import Workflow.Mapping
import Workflow.Text.Blank
import Workflow.Text.Encoded

/-! # Checked — reading structured data with all its faults

    A reader of structured data reports every field that does not fit, by
    its dotted path, rather than the first one only.  Readers are combined
    part by part: the result is there when no part has a fault. -/

namespace Workflow

/-- A value read from data, or the paths of the fields that do not fit. -/
inductive Checked (α : Type) where
  | ok (a : α)
  | bad (fields : List String)

namespace Checked

variable {α β : Type}

/-- The faults of a reading. -/
def faults : Checked α → List String
  | .ok _   => []
  | .bad fs => fs

/-- Changes the value that was read. -/
def map (f : α → β) : Checked α → Checked β
  | .ok a   => .ok (f a)
  | .bad fs => .bad fs

/-- Combines two readings; faults of both are kept. -/
def seq : Checked (α → β) → Checked α → Checked β
  | .ok f,   .ok a   => .ok (f a)
  | .ok _,   .bad fs => .bad fs
  | .bad fs, x       => .bad (fs ++ x.faults)

instance : Applicative Checked where
  pure := .ok
  seq f x := seq f (x ())
  map := map

/-- Reads every item; the path of an item is its index. -/
def items (path : String) (read : String → Value → Checked α) (index : Nat) :
    List Value → Checked (List α)
  | []      => .ok []
  | x :: xs =>
    List.cons <$> read s!"{path}.{index}" x <*> items path read (index + 1) xs

/-- The faults, sorted and without repetitions. -/
def sortedFaults (fs : List String) : List String :=
  (fs.mergeSort (fun a b => decide (a ≤ b))).eraseDups

/-- A field of a map, by its key; a missing one takes the default or is a
    fault. -/
def field (m : Mapping) (path key : String) (default : Option α)
    (read : String → Value → Checked α) : Checked α :=
  let path := if path = "" then key else path ++ "." ++ key
  match m.get? key with
  | some v => read path v
  | none   =>
    match default with
    | some a => .ok a
    | none   => .bad [path]

end Checked

/-! ## Readers of single fields -/

namespace Lax

/-- A text without white space at both ends. -/
def trim (cs : List Char) : List Char := trimBoth isWhite cs

/-- The integer that digits denote, perhaps behind a minus sign, without a
    needless zero in front. -/
def plainInt? (cs : List Char) : Option Int :=
  let (negative, ds) := match cs with
    | '-' :: ds => (true, ds)
    | ds        => (false, ds)
  if cs.length ≤ digitLimit ∧ ds ≠ [] ∧ ds.all Char.isDigit ∧
      (ds.head? ≠ some '0' ∨ ds.length = 1) then
    some (if negative then -(ofDigits ds : Int) else ofDigits ds)
  else none

/-- Drops a plus sign, unless a minus sign follows it. -/
def dropPlus : List Char → List Char
  | '+' :: '-' :: cs => '+' :: '-' :: cs
  | '+' :: cs        => cs
  | cs               => cs

/-- What follows the zeros in front of a number, which underscores may part;
    `last` is the character before.  A point keeps it, as does the end. -/
def afterZeros (last : Char) : List Char → Option (List Char)
  | []      => some [last]
  | c :: cs =>
    if c = '0' ∨ c = '_' then afterZeros c cs
    else if c = '.' then some (last :: c :: cs)
    else if c.isDigit ∨ c = '-' then some (c :: cs)
    else none

/-- A number without the zeros in front. -/
def dropZeros : List Char → Option (List Char)
  | '0' :: cs => afterZeros '0' cs
  | c :: cs   => if c.isDigit ∨ c = '-' then some (c :: cs) else none
  | []        => none

/-- Drops a fraction of zeros. -/
def dropZeroFraction (cs : List Char) : List Char :=
  let whole := cs.takeWhile (· != '.')
  let fraction := (cs.dropWhile (· != '.')).drop 1
  if fraction ≠ [] ∧ fraction.all (· == '0') then whole else cs

/-- A text without its underscores, which must stand alone and inside it. -/
def joined? (cs : List Char) : Option (List Char) :=
  if cs.contains '_' && cs.head? != some '_' && cs.getLast? != some '_' &&
      !Value.occursIn ['_', '_'] cs then
    some (cs.filter (· != '_'))
  else none

/-- The digits of a number without zeros in front, a fraction of zeros and
    single underscores. -/
def cleaned? (cs : List Char) : Option (List Char) := do
  let cs := dropZeroFraction (← dropZeros cs)
  pure ((joined? cs).getD cs)

/-- The integer that a text denotes: as it stands, or without the blanks
    around it, a plus sign and all that its digits do not need. -/
def intOfText? (s : String) : Option Int :=
  (plainInt? s.toList).or (
    match dropPlus (trim s.toList) with
    | '-' :: cs => (cleaned? cs).bind fun ds => plainInt? ('-' :: ds)
    | cs        => (cleaned? cs).bind plainInt?)

/-- The double that a text denotes. -/
def floatOfText? (s : String) : Option Binary64 :=
  (Binary64.ofChars? (trim s.toList)).or
    ((joined? s.toList).bind Binary64.ofChars?)

/-- The text that a value stands for: bytes stand for the text that they
    encode. -/
def textOf? : Value → Option String
  | .scalar (.bytes b) => textOfBytes? b
  | v                  => v.toText?

/-- A text. -/
def text (path : String) (v : Value) : Checked String :=
  match textOf? v with
  | some s => .ok s
  | none   => .bad [path]

/-- A text or null. -/
def optionalText (path : String) : Value → Checked (Option String)
  | .scalar .null => .ok none
  | v             => some <$> text path v

/-- A result that is there, or a fault. -/
def present {α : Type} (path : String) : Option α → Checked α
  | some a => .ok a
  | none   => .bad [path]

/-- The integer that a double equals, if it is whole and within 64 bits. -/
def intOfFloat? (x : Binary64) : Option Int :=
  x.toInt?.filter fun i => i.natAbs < 2 ^ 63

/-- An integer, also as a Boolean, a whole double or a text. -/
def int (path : String) : Value → Checked Int
  | .scalar (.int i)   => .ok i
  | .scalar (.bool b)  => .ok (if b then 1 else 0)
  | .scalar (.float x) => present path (intOfFloat? x)
  | v                  => present path ((textOf? v).bind intOfText?)

/-- A double, also as an integer, a Boolean or a text. -/
def float (path : String) : Value → Checked Binary64
  | .scalar (.float x) => .ok x
  | .scalar (.int i)   => present path (Binary64.ofInt? i)
  | .scalar (.bool b)  => .ok (Binary64.ofRatio (if b then 1 else 0) 1)
  | v                  => present path ((textOf? v).bind floatOfText?)

/-- The Boolean that a number denotes. -/
def boolOfInt? (i : Int) : Option Bool :=
  if i = 0 then some false else if i = 1 then some true else none

/-- The Boolean that one of the usual words denotes, in any case. -/
def boolOfText? (s : String) : Option Bool :=
  let word := String.ofList (s.toList.map Char.toLower)
  if ["0", "off", "f", "false", "n", "no"].contains word then some false
  else if ["1", "on", "t", "true", "y", "yes"].contains word then some true
  else none

/-- A Boolean, also as 0 or 1 or one of the usual words. -/
def bool (path : String) : Value → Checked Bool
  | .scalar (.bool b)  => .ok b
  | .scalar (.int i)   => present path (boolOfInt? i)
  | .scalar (.float x) => present path (x.toInt?.bind boolOfInt?)
  | v                  => present path ((textOf? v).bind boolOfText?)

/-- The largest number that counts seconds since 1970; a larger one counts
    milliseconds. -/
def secondsLimit : Nat := 20000000000

/-- The start of 1970, in microseconds on the calendar. -/
def epochMicros : Int := 719163 * microsPerDay

/-- The time a number of units of the given microseconds since 1970, and
    some microseconds more. -/
def ofUnits? (unit : Nat) (count : Int) (micros : Nat) : Option Timestamp :=
  Timestamp.ofWallMicros? (epochMicros + count * unit + micros) (some 0)

/-- The time a whole number of seconds or milliseconds since 1970. -/
def ofEpoch? (count : Int) : Option Timestamp :=
  ofUnits? (if count.natAbs ≤ secondsLimit then microsPerSecond else 1000) count 0

/-- A finite number of seconds or milliseconds since 1970: the whole ones
    count exactly, the rest is rounded to the microsecond. -/
def ofEpochFloat? (x : Binary64) : Option Timestamp := do
  let large := x.compareInt? secondsLimit = some .gt ∨
    x.compareInt? (-secondsLimit) = some .lt
  let unit : Nat := if large then 1000 else microsPerSecond
  let whole ← x.floor?
  let rest := x.sub (Binary64.ofRatio whole 1)
  ofUnits? unit whole (rest.mul (Binary64.ofRatio unit 1)).roundHalfUp

/-- The time that the digits of a text count: with a point anywhere they are
    read as a double. -/
def epochOfText? (cs : List Char) : Option Timestamp :=
  let ds := match cs with
    | '-' :: ds => ds
    | '+' :: ds => ds
    | ds        => ds
  let (whole, rest) := spanDigits ds
  if 2 ^ 63 ≤ ofDigits whole then none
  else match rest with
    | []       =>
      let n : Int := ofDigits whole
      if whole = [] then none
      else ofEpoch? (if cs.head? = some '-' then -n else n)
    | '.' :: _ => (Binary64.ofChars? cs).bind ofEpochFloat?
    | _        => none

/-- The time that a text denotes: a date and time, or a number of seconds. -/
def timeOfText? (s : String) : Option Timestamp :=
  (Timestamp.ofText? s).or (epochOfText? s.toList)

/-- A time, as a timestamp, a text or a number of seconds since 1970. -/
def time (path : String) : Value → Checked Timestamp
  | .scalar (.time t)  => .ok t
  | .scalar (.int i)   => present path (ofEpoch? i)
  | .scalar (.float x) => present path (ofEpochFloat? x)
  | v                  => present path ((textOf? v).bind timeOfText?)

/-- A map with texts as keys; another key is a fault of the field `whole`. -/
def entries (whole path : String) : Value → Checked Mapping
  | .dict m =>
    if m.all fun e => (textOf? e.1).isSome then
      .ok (Mapping.ofEntries ((Mapping.copy m).map fun e =>
        (.str ((textOf? e.1).getD ""), e.2)))
    else .bad [whole]
  | _ => .bad [path]

/-- A field that is a map with texts as keys. -/
def mapping (path : String) (v : Value) : Checked Mapping := entries path path v

/-- A status or its text. -/
def status (path : String) (v : Value) : Checked Status :=
  present path ((textOf? v).bind Status.ofText?)

/-- A reference of a given kind: a reference that is one, or a map with type
    and id. -/
def reference (kind : EntityKind) (path : String) : Value → Checked EntityRef
  | .scalar (.ref r) =>
    if kind = .subject ∨ r.kind = kind then .ok r else .bad [path]
  | .dict m =>
    (fun type id => EntityRef.mk kind type id)
      <$> Checked.field m path "type" none text
      <*> Checked.field m path "id" none text
  | _ => .bad [path]

/-- An actor or null. -/
def optionalActor (path : String) : Value → Checked (Option EntityRef)
  | .scalar .null => .ok none
  | v             => some <$> reference .actor path v

/-- A list of items. -/
def list {α : Type} (read : String → Value → Checked α) (path : String) :
    Value → Checked (List α)
  | .list xs  => Checked.items path read 0 (Value.detachedItems xs)
  | .tuple xs => Checked.items path read 0 (Value.detachedComponents xs)
  | .set xs   => Checked.items path read 0 xs
  | _         => .bad [path]

end Lax

end Workflow
