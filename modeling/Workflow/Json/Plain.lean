import Workflow.Json.Writer
import Workflow.Mapping

/-! # Plain — the data that a value's JSON text denotes

    JSON keeps texts, numbers, Booleans, null, lists and maps with texts as
    keys.  A value is brought into this form as the lenient writer would
    write it: what JSON has no form for becomes its plain text, and of keys
    with the same text the first keeps its place and the last its value. -/

namespace Workflow

namespace Json

/-- The plain form of an atomic value. -/
def plainScalar (s : Scalar) : Value :=
  match s, scalarChars? s with
  | .status t, _      => .str t.text
  | s,         some _ => .scalar s
  | s,         none   => .str s.display

mutual

/-- The plain form of a value; one that leads back to itself has none. -/
def plain : Value → Except JsonRefusal Value
  | .scalar s   => if isLong s then .error .longInteger else .ok (plainScalar s)
  | .thing c id => .ok (.str (Value.thing c id).display)
  | .list xs    => (plainItems xs).map .list
  | .tuple xs   => (plainItems xs).map .list
  | .set xs     => .ok (.str (Value.set xs).display)
  | .dict es    => (plainEntries es).map fun fs => .dict (Mapping.ofEntries fs)
  | .up _       => .error .circular

/-- The plain forms of items. -/
def plainItems : List Value → Except JsonRefusal (List Value)
  | []      => .ok []
  | x :: xs => do
    let y ← plain x
    let ys ← plainItems xs
    pure (y :: ys)

/-- The plain forms of entries. -/
def plainEntries :
    List (Value × Value) → Except JsonRefusal (List (Value × Value))
  | []           => .ok []
  | (k, v) :: es => do
    let key ← keyText k
    let w ← plain v
    let fs ← plainEntries es
    pure ((.str key, w) :: fs)

end

end Json

end Workflow
