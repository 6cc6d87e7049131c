import Workflow.Json.Reader
import Workflow.Timestamp.Standard
import Workflow.Value.Text

/-! # Tagged — every value in plain JSON data

    Kinds that JSON does not tell apart are written as a map with one
    tagged key, for instance `$float` or `$set`.  Integers beyond the exact
    range of doubles are written as text, and a reference to an enclosing
    container as a mark. -/

namespace Workflow

namespace Tagged

/-- A map with one tagged key. -/
def tag (name : String) (v : Value) : Value := .record [("$" ++ name, v)]

/-- The first integer that is written as text. -/
def exactLimit : Nat := 2 ^ 53

/-- A reference as a map. -/
def refFields (r : EntityRef) : Value :=
  .record [("type", .str r.type), ("id", .str r.id)]

/-- A scalar in tagged form. -/
def writeScalar : Scalar → Value
  | .int i =>
    if i.natAbs < exactLimit then .int i
    else tag "int" (.str (String.ofList (intText i)))
  | .float x  => tag "float" (.str x.text)
  | .bytes b  => tag "bytes" (.list (b.map fun x => .int x.toNat))
  | .time t   => tag "datetime" (.str t.isoText)
  | .status s => tag "status" (.str s.text)
  | .ref r    =>
    tag (match r.kind with | .subject => "subject" | .actor => "actor") (refFields r)
  | s         => .scalar s

mutual

/-- A value in tagged form. -/
def write : Value → Value
  | .scalar s         => writeScalar s
  | .thing c none     => tag "obj" (.record [("class", .str c)])
  | .thing c (some v) => tag "obj" (.record [("class", .str c), ("id", write v)])
  | .list xs          => .list (writeItems xs)
  | .tuple xs         => tag "tuple" (.list (writeItems xs))
  | .set xs           => tag "set" (.list (writeItems xs))
  | .dict es          =>
    if es.all fun e => e.1.isText then .dict (writeEntries es)
    else tag "pairs" (.list (writePairs es))
  | .up _             => tag "cycle" (.bool true)

/-- Items in tagged form. -/
def writeItems : List Value → List Value
  | []      => []
  | x :: xs => write x :: writeItems xs

/-- Entries in tagged form, with texts as keys. -/
def writeEntries : List (Value × Value) → List (Value × Value)
  | []           => []
  | (k, v) :: es => (.str (k.toText?.getD ""), write v) :: writeEntries es

/-- Entries in tagged form, as pairs. -/
def writePairs : List (Value × Value) → List Value
  | []           => []
  | (k, v) :: es => .list [write k, write v] :: writePairs es

end

/-- The parts of a list. -/
def itemsOf : Value → List Value
  | .list xs => xs
  | _        => []

/-- The text of a field. -/
def textOf (m : Mapping) (key : String) : String :=
  ((m.field? key).bind Value.toText?).getD ""

/-- The bytes that a list of numbers denotes. -/
def bytesOf (v : Value) : List UInt8 :=
  (itemsOf v).map fun
    | .scalar (.int i) => UInt8.ofNat i.toNat
    | _                => 0

/-- Reads a tag whose content is already read; anything else is a map. -/
def untag (name : String) (v : Value) : Option Value :=
  match name, v with
  | "$float",    .scalar (.str s) => (Binary64.ofText? s).map .float
  | "$int",      .scalar (.str s) =>
    match s.toList with
    | '-' :: cs => some (.int (-(ofDigits cs : Int)))
    | cs        => some (.int (ofDigits cs))
  | "$set",      .list xs         => some (.set xs)
  | "$bytes",    v                => some (.bytes (bytesOf v))
  | "$datetime", .scalar (.str s) => (Timestamp.ofIsoText? s).map .time
  | "$status",   .scalar (.str s) => (Status.ofText? s).map .status
  | "$subject",  .dict m          => some (.ref (.subject (textOf m "type") (textOf m "id")))
  | "$actor",    .dict m          => some (.ref (.actor (textOf m "type") (textOf m "id")))
  | "$obj",      .dict m          =>
    some (.thing (textOf m "class") (Mapping.field? m "id"))
  | _,           _                => none

/-- Kinds of enclosing containers, the innermost first: does a written
    reference count it?  Tuples are passed over. -/
abbrev Enclosing := List Bool

/-- The place among the enclosing containers of the `n`-th that counts. -/
def levels (n : Nat) : Enclosing → Nat
  | []             => n
  | true :: outer  => if n ≤ 1 then n else levels (n - 1) outer + 1
  | false :: outer => levels n outer + 1

mutual

/-- Reads a value in tagged form, inside the given containers. -/
def readIn (outer : Enclosing) : Value → Value
  | .dict [(.scalar (.str "$up"), .scalar (.int n))] => .up (levels n.toNat outer)
  | .dict [(.scalar (.str "$tuple"), .list xs)]      => .tuple (readItems (false :: outer) xs)
  | .dict [(.scalar (.str "$pairs"), .list vs)]      =>
    .dict (Mapping.ofEntries (readPairs (true :: outer) vs))
  | .dict [(.scalar (.str name), v)] =>
    let v := readIn (true :: outer) v
    (untag name v).getD (.dict [(Value.str name, v)])
  | .dict es => .dict (readEntries (true :: outer) es)
  | .list xs => .list (readItems (true :: outer) xs)
  | v        => v

/-- Reads items in tagged form. -/
def readItems (outer : Enclosing) : List Value → List Value
  | []      => []
  | x :: xs => readIn outer x :: readItems outer xs

/-- Reads entries in tagged form. -/
def readEntries (outer : Enclosing) : List (Value × Value) → List (Value × Value)
  | []           => []
  | (k, v) :: es => (k, readIn outer v) :: readEntries outer es

/-- Reads entries given as pairs in tagged form. -/
def readPairs (outer : Enclosing) : List Value → List (Value × Value)
  | []                 => []
  | .list [k, v] :: vs => (readIn outer k, readIn outer v) :: readPairs outer vs
  | v :: vs            => (readIn outer v, .null) :: readPairs outer vs

end

/-- Reads a value in tagged form. -/
def read (v : Value) : Value := readIn [] v

end Tagged

end Workflow
