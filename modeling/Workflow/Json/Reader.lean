import Workflow.Mapping

/-! # Reader — values from JSON texts

    The reader takes what the writer produces and every other spelling of
    JSON: blanks, escapes of any character, numbers with exponents.  A later
    entry with the same key overwrites an earlier one in its place.  The
    depth of the recursion is bounded by the length of the text. -/

namespace Workflow

namespace Json

/-- Skips blanks. -/
def skipBlanks : List Char → List Char
  | []      => []
  | c :: cs =>
    if c = ' ' ∨ c = '\t' ∨ c = '\n' ∨ c = '\r' then skipBlanks cs else c :: cs

/-- The value of a hexadecimal digit. -/
def hexValue? (c : Char) : Option Nat :=
  let n := c.toNat
  if 48 ≤ n ∧ n ≤ 57 then some (n - 48)
  else if 97 ≤ n ∧ n ≤ 102 then some (n - 87)
  else if 65 ≤ n ∧ n ≤ 70 then some (n - 55)
  else none

/-- The code unit that four hexadecimal digits denote. -/
def hexUnit? (a b c d : Char) : Option Nat := do
  pure ((((← hexValue? a) * 16 + (← hexValue? b)) * 16 + (← hexValue? c)) * 16 +
    (← hexValue? d))

/-- The character that a short escape denotes. -/
def shortEscape? (c : Char) : Option Nat :=
  if c = '"' ∨ c = '\\' ∨ c = '/' then some c.toNat
  else if c = 'n' then some 10
  else if c = 'r' then some 13
  else if c = 't' then some 9
  else if c = 'b' then some 8
  else if c = 'f' then some 12
  else none

/-- The code units of a string, up to its closing quote, and the rest. -/
def readUnits : List Char → Option (List Nat × List Char)
  | [] => none
  | '"' :: cs => some ([], cs)
  | '\\' :: 'u' :: a :: b :: c :: d :: cs => do
    let n ← hexUnit? a b c d
    let (ns, rest) ← readUnits cs
    pure (n :: ns, rest)
  | '\\' :: e :: cs => do
    let n ← shortEscape? e
    let (ns, rest) ← readUnits cs
    pure (n :: ns, rest)
  | c :: cs =>
    if c.toNat < 32 ∨ c = '\\' then none
    else do
      let (ns, rest) ← readUnits cs
      pure (c.toNat :: ns, rest)

/-- The character of a code unit; a lone surrogate has none and becomes the
    replacement character. -/
def charOfUnit (n : Nat) : Char :=
  if n.isValidChar then Char.ofNat n else '\uFFFD'

/-- Joins surrogate pairs. -/
def joinUnits : List Nat → List Char
  | [] => []
  | [n] => [charOfUnit n]
  | m :: n :: ns =>
    if 0xD800 ≤ m ∧ m < 0xDC00 ∧ 0xDC00 ≤ n ∧ n < 0xE000 then
      Char.ofNat (0x10000 + (m - 0xD800) * 0x400 + (n - 0xDC00)) :: joinUnits ns
    else charOfUnit m :: joinUnits (n :: ns)

/-- The rest of a string after its opening quote. -/
def readString (cs : List Char) : Option (String × List Char) := do
  let (ns, rest) ← readUnits cs
  pure (String.ofList (joinUnits ns), rest)

/-- A fraction part: a point and at least one digit, else nothing. -/
def optionalFraction (cs : List Char) : List Char × List Char :=
  let (ds, rest) := spanFraction cs
  if ds = [] then ([], cs) else (ds, rest)

/-- What keeps a text from denoting a value: it is no JSON, or it holds an
    integer with more digits than are read. -/
inductive Fault where
  | malformed
  | longInteger
deriving DecidableEq

/-- A part that must be there. -/
def required {α : Type} : Option α → Except Fault α
  | some r => .ok r
  | none   => .error .malformed

/-- A number without its sign: an integer unless it has a fraction or an
    exponent. -/
def readNumber (negative : Bool) (cs : List Char) :
    Except Fault (Value × List Char) :=
  let (ds, rest) := spanDigits cs
  let (whole, rest) := match ds with
    | '0' :: _ :: _ => (['0'], cs.drop 1)
    | ds            => (ds, rest)
  if whole = [] then .error .malformed
  else
    let (fraction, rest) := optionalFraction rest
    match spanExponent rest with
    | some (e, rest) =>
      .ok (.float ((Decimal.ofParts whole fraction e).toBinary64 negative), rest)
    | none =>
      if fraction ≠ [] then
        .ok (.float ((Decimal.ofParts whole fraction 0).toBinary64 negative), rest)
      else if whole.length ≤ digitLimit then
        let n : Int := ofDigits whole
        .ok (.int (if negative then -n else n), rest)
      else .error .longInteger

/-- A word that must stand at the front, with the value it denotes. -/
def readWord (word : String) (v : Value) (cs : List Char) :
    Except Fault (Value × List Char) :=
  if word.toList.isPrefixOf cs then .ok (v, cs.drop word.length)
  else .error .malformed

/-- A value that is neither a string nor a container. -/
def readAtom : List Char → Except Fault (Value × List Char)
  | 'n' :: cs => readWord "null" .null ('n' :: cs)
  | 't' :: cs => readWord "true" (.bool true) ('t' :: cs)
  | 'f' :: cs => readWord "false" (.bool false) ('f' :: cs)
  | 'N' :: cs => readWord "NaN" (.float .nan) ('N' :: cs)
  | 'I' :: cs => readWord "Infinity" (.float (.infinite false)) ('I' :: cs)
  | '-' :: 'I' :: cs =>
    readWord "-Infinity" (.float (.infinite true)) ('-' :: 'I' :: cs)
  | '-' :: cs => readNumber true cs
  | cs        => readNumber false cs

mutual

/-- A value at the front of a text, after blanks. -/
def readValue : Nat → List Char → Except Fault (Value × List Char)
  | 0,        _  => .error .malformed
  | fuel + 1, cs =>
    match skipBlanks cs with
    | '"' :: cs => do
      let (s, rest) ← required (readString cs)
      pure (.str s, rest)
    | '[' :: cs =>
      match skipBlanks cs with
      | ']' :: rest => .ok (.list [], rest)
      | cs => do
        let (xs, rest) ← readItems fuel cs
        pure (.list xs, rest)
    | '\x7b' :: cs =>
      match skipBlanks cs with
      | '\x7d' :: rest => .ok (.dict [], rest)
      | cs => do
        let (es, rest) ← readEntries fuel cs
        pure (.dict (Mapping.ofEntries es), rest)
    | cs => readAtom cs

/-- Items up to the closing bracket; at least one. -/
def readItems : Nat → List Char → Except Fault (List Value × List Char)
  | 0,        _  => .error .malformed
  | fuel + 1, cs => do
    let (x, rest) ← readValue fuel cs
    match skipBlanks rest with
    | ']' :: rest => pure ([x], rest)
    | ',' :: rest => do
      let (xs, rest) ← readItems fuel rest
      pure (x :: xs, rest)
    | _ => .error .malformed

/-- Entries up to the closing brace; at least one. -/
def readEntries :
    Nat → List Char → Except Fault (List (Value × Value) × List Char)
  | 0,        _  => .error .malformed
  | fuel + 1, cs => do
    match skipBlanks cs with
    | '"' :: cs => do
      let (k, rest) ← required (readString cs)
      match skipBlanks rest with
      | ':' :: rest => do
        let (v, rest) ← readValue fuel rest
        match skipBlanks rest with
        | '\x7d' :: rest => pure ([(.str k, v)], rest)
        | ',' :: rest => do
          let (es, rest) ← readEntries fuel rest
          pure ((.str k, v) :: es, rest)
        | _ => .error .malformed
      | _ => .error .malformed
    | _ => .error .malformed

end

/-- The value that a whole text denotes, or what is wrong with it. -/
def read (s : String) : Except Fault Value := do
  let cs := s.toList
  let (v, rest) ← readValue (cs.length + 1) cs
  if skipBlanks rest = [] then pure v else .error .malformed

/-- The value that a JSON text denotes. -/
def read? (s : String) : Option Value := (read s).toOption

end Json

end Workflow
