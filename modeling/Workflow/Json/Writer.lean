import Workflow.Value.Text

/-! # Writer — values as JSON texts

    Parts are set off by `", "` and `": "`, and every character outside
    printable ASCII is escaped, so the text is ASCII.  Values that JSON has
    no form for are refused, or written as plain text by the lenient
    writer; a reference to an enclosing container is always refused, and so
    is an integer with too many digits. -/

namespace Workflow

/-- Why a value has no JSON text. -/
inductive JsonRefusal where
  | noForm (typeName : String)
  | circular
  | badKey (typeName : String)
  | longInteger
deriving DecidableEq

/-- The characters that fit into a number of bytes; one that fits in part
    leaves a replacement mark. -/
def fittingChars (room : Nat) : List Char → List Char
  | []      => []
  | c :: cs =>
    if c.utf8Size ≤ room then c :: fittingChars (room - c.utf8Size) cs
    else if room = 0 then []
    else ['\ufffd']

/-- The bytes of a type's name that the refusal of a key shows. -/
def keyTypeLimit : Nat := 100

/-- The message of a refusal. -/
def JsonRefusal.message : JsonRefusal → String
  | .noForm t => s!"Object of type {t} is not JSON serializable"
  | .circular => "Circular reference detected"
  | .badKey t =>
    let shown := String.ofList (fittingChars keyTypeLimit t.toList)
    s!"keys must be str, int, float, bool or None, not {shown}"
  | .longInteger =>
    s!"Exceeds the limit ({digitLimit} digits) for integer string conversion; " ++
      "use sys.set_int_max_str_digits() to increase the limit"

namespace Json

/-- A UTF-16 code unit as an escape. -/
def escapeUnit (n : Nat) : List Char := '\\' :: 'u' :: hexDigits 4 n

/-- One character inside a JSON string. -/
def escapeChar (c : Char) : List Char :=
  if c = '"' then ['\\', '"']
  else if c = '\\' then ['\\', '\\']
  else if c = '\n' then ['\\', 'n']
  else if c = '\r' then ['\\', 'r']
  else if c = '\t' then ['\\', 't']
  else if c = '\x08' then ['\\', 'b']
  else if c = '\x0c' then ['\\', 'f']
  else if 32 ≤ c.toNat ∧ c.toNat < 127 then [c]
  else if c.toNat < 0x10000 then escapeUnit c.toNat
  else
    let n := c.toNat - 0x10000
    escapeUnit (0xD800 + n / 0x400) ++ escapeUnit (0xDC00 + n % 0x400)

/-- A text as a JSON string. -/
def quote (s : String) : List Char :=
  '"' :: s.toList.flatMap escapeChar ++ ['"']

/-- A double as a JSON number or one of the three extra words. -/
def floatChars : Binary64 → List Char
  | .nan            => "NaN".toList
  | .infinite false => "Infinity".toList
  | .infinite true  => "-Infinity".toList
  | x               => x.chars

/-- The text of an atomic value, if JSON has a form for it. -/
def scalarChars? : Scalar → Option (List Char)
  | .null       => some "null".toList
  | .bool true  => some "true".toList
  | .bool false => some "false".toList
  | .int i      => some (intText i)
  | .float x    => some (floatChars x)
  | .str s      => some (quote s)
  | .status s   => some (quote s.text)
  | _           => none

/-- The text that a key stands for, if JSON has a form for it. -/
def scalarKey? : Scalar → Option String
  | .null       => some "null"
  | .bool true  => some "true"
  | .bool false => some "false"
  | .int i      => some (String.ofList (intText i))
  | .float x    => some (String.ofList (floatChars x))
  | .str s      => some s
  | .status s   => some s.text
  | _           => none

/-- Is it an integer with more digits than are written? -/
def isLong : Scalar → Bool
  | .int i => decide (10 ^ digitLimit ≤ i.natAbs)
  | _      => false

end Json

namespace Value

mutual

/-- Does the value hold an integer with too many digits to be shown, be it in a key? -/
def holdsLong : Value → Bool
  | .scalar s  => Json.isLong s
  | .thing _ _ => false
  | .list xs   => anyLong xs
  | .tuple xs  => anyLong xs
  | .set xs    => anyLong xs
  | .dict es   => anyLongEntry es
  | .up _      => false

/-- Does one of the items hold one? -/
def anyLong : List Value → Bool
  | []      => false
  | x :: xs => holdsLong x || anyLong xs

/-- Does one of the entries hold one? -/
def anyLongEntry : List (Value × Value) → Bool
  | []           => false
  | (k, v) :: es => holdsLong k || holdsLong v || anyLongEntry es

end

end Value

namespace Json

/-- A key as text; keys with parts and opaque ones are refused. -/
def keyText : Value → Except JsonRefusal String
  | .scalar s =>
    if isLong s then .error .longInteger
    else match scalarKey? s, s with
    | some t, _       => .ok t
    | none,   .time _ => .error (.badKey "datetime.datetime")
    | none,   s       => .error (.badKey s.typeName)
  | v => .error (.badKey v.typeName)

/-- What the writer does with a value that JSON has no form for. -/
def fallback (lenient : Bool) (v : Value) : Except JsonRefusal (List Char) :=
  if lenient then
    if v.holdsLong then .error .longInteger else .ok (quote v.display)
  else .error (.noForm v.typeName)

/-- Texts between brackets, set off by commas. -/
def bracket (left right : Char) : List (List Char) → List Char
  | []      => [left, right]
  | x :: xs => left :: x ++ xs.flatMap (fun y => ',' :: ' ' :: y) ++ [right]

mutual

/-- The JSON text of a value. -/
def encode (lenient : Bool) : Value → Except JsonRefusal (List Char)
  | .scalar s   =>
    if isLong s then .error .longInteger
    else match scalarChars? s with
    | some cs => .ok cs
    | none    => fallback lenient (.scalar s)
  | .thing c id => fallback lenient (.thing c id)
  | .list xs    => (encodeItems lenient xs).map (bracket '[' ']')
  | .tuple xs   => (encodeItems lenient xs).map (bracket '[' ']')
  | .set xs     => fallback lenient (.set xs)
  | .dict es    => (encodeEntries lenient es).map (bracket '\x7b' '\x7d')
  | .up _       => .error .circular

/-- The JSON texts of items. -/
def encodeItems (lenient : Bool) :
    List Value → Except JsonRefusal (List (List Char))
  | []      => .ok []
  | x :: xs => do
    let t ← encode lenient x
    let ts ← encodeItems lenient xs
    pure (t :: ts)

/-- The JSON texts of entries. -/
def encodeEntries (lenient : Bool) :
    List (Value × Value) → Except JsonRefusal (List (List Char))
  | []           => .ok []
  | (k, v) :: es => do
    let key ← keyText k
    let t ← encode lenient v
    let ts ← encodeEntries lenient es
    pure ((quote key ++ ':' :: ' ' :: t) :: ts)

end

/-- The strict JSON text of a value. -/
def write (v : Value) : Except JsonRefusal String :=
  (encode false v).map String.ofList

/-- The JSON text of a value with plain texts for what JSON has no form
    for. -/
def writeLenient (v : Value) : Except JsonRefusal String :=
  (encode true v).map String.ofList

/-! ## Indented texts -/

/-- A line break and two blanks for each level. -/
def newline (level : Nat) : String :=
  "\n" ++ String.ofList (List.replicate (2 * level) ' ')

/-- Parts on lines of their own between brackets. -/
def indent (level : Nat) (left right : String) (parts : List String) : String :=
  if parts.isEmpty then left ++ right
  else left ++ newline (level + 1) ++
    ("," ++ newline (level + 1)).intercalate parts ++ newline level ++ right

mutual

/-- The JSON text of a plain value with every part on a line of its own. -/
def pretty (level : Nat) : Value → String
  | .scalar s   => String.ofList ((scalarChars? s).getD (quote s.display))
  | .list xs    => indent level "[" "]" (prettyItems (level + 1) xs)
  | .tuple xs   => indent level "[" "]" (prettyItems (level + 1) xs)
  | .dict es    => indent level "\x7b" "\x7d" (prettyEntries (level + 1) es)
  | .set xs     => String.ofList (quote (Value.set xs).display)
  | .thing c id => String.ofList (quote (Value.thing c id).display)
  | .up _       => "null"

/-- The indented texts of items. -/
def prettyItems (level : Nat) : List Value → List String
  | []      => []
  | x :: xs => pretty level x :: prettyItems level xs

/-- The indented texts of entries. -/
def prettyEntries (level : Nat) : List (Value × Value) → List String
  | []           => []
  | (k, v) :: es =>
    (String.ofList (quote ((keyText k).toOption.getD "")) ++ ": " ++ pretty level v) ::
      prettyEntries level es

end

end Json

end Workflow
