import Workflow.Failure
import Workflow.Text.Encoded

/-! # Document — values in the form that stores keep

    A document is built of null, Booleans, integers, finite doubles, texts,
    lists and maps with texts as keys, not too deeply nested.  Writing turns
    every value into that form or refuses it; plain data is left as it is. -/

namespace Workflow

namespace Document

/-- The refusal of a value that documents have no form for. -/
def noForm (typeName : String) : Failure :=
  .other "PydanticSerializationError"
    s!"Unable to serialize unknown type: <class '{typeName}'>"

/-- The refusal of a byte string that is no text, with the bytes that are no
    character. -/
def badBytes (b : List UInt8) : Failure :=
  let (start, stop) := (Encoded.fault? 0 b).getD (0, b.length)
  let place :=
    if stop = start + 1 then
      let code := String.ofList (hexDigits 2 (b.getD start 0).toNat)
      s!"byte 0x{code} in position {start}"
    else s!"bytes in position {start}-{stop - 1}"
  .other "UnicodeDecodeError" s!"'utf-8' codec can't decode {place}: invalid utf-8"

/-- The refusal of a self-referencing value. -/
def circular : Failure :=
  .wrongValue "Circular reference detected (id repeated)"

/-- The deepest level of a value in a document; the values of the outermost
    map are on the first. -/
def depthLimit : Nat := 255

/-- Refuses a level below the deepest one. -/
def checkLevel (level : Nat) : Except Failure Unit :=
  if level ≤ depthLimit then .ok ()
  else .error (.wrongValue "Maximum serialization depth exceeded")

/-- The text that bytes encode, or their refusal. -/
def bytesText (b : List UInt8) : Except Failure String :=
  match textOfBytes? b with
  | some s => .ok s
  | none   => .error (badBytes b)

/-- A reference as a document. -/
def ofRef (r : EntityRef) : Value :=
  .record [("type", .str r.type), ("id", .str r.id)]

/-- A scalar as a document.  Infinite and undefined numbers become null. -/
def ofScalar : Scalar → Except Failure Value
  | .float x  => .ok (if x.isFinite then .float x else .null)
  | .bytes b  => (bytesText b).map .str
  | .time t   => .ok (.str t.documentText)
  | .status s => .ok (.str s.text)
  | .ref r    => .ok (ofRef r)
  | s         => .ok (.scalar s)

/-- The text of a scalar as a key. -/
def scalarKey : Scalar → Except Failure String
  | .null     => .ok "None"
  | .bool b   => .ok (if b then "true" else "false")
  | .float x  => .ok (if x.isFinite then x.text else "None")
  | .bytes b  => bytesText b
  | .time t   => .ok t.documentText
  | .status s => .ok s.text
  | s         => .ok s.display

mutual

/-- The text of a key; the parts of a tuple are joined by commas. -/
def keyText : Value → Except Failure String
  | .scalar s  => scalarKey s
  | .tuple ks  => (keyTexts ks).map (",".intercalate ·)
  | .thing c _ => .error (noForm c)
  | v          => .error (noForm v.typeName)

/-- The texts of the parts of a key. -/
def keyTexts : List Value → Except Failure (List String)
  | []      => .ok []
  | k :: ks => do
    let t ← keyText k
    let ts ← keyTexts ks
    pure (t :: ts)

end

/-- Does the scalar stand for another value one level below? -/
def isNested : Scalar → Bool
  | .status _ => true
  | _         => false

mutual

/-- A value on a level as a document. -/
def ofValue (level : Nat) : Value → Except Failure Value
  | .up _      => .error circular
  | .scalar s  => do
    checkLevel (if isNested s then level + 1 else level)
    ofScalar s
  | .thing c _ => do
    checkLevel level
    .error (noForm c)
  | .list xs   => do
    checkLevel level
    let ds ← ofItems (level + 1) xs
    pure (.list ds)
  | .tuple xs  => do
    checkLevel level
    let ds ← ofItems (level + 1) xs
    pure (.list ds)
  | .set xs    => do
    checkLevel level
    let ds ← ofItems (level + 1) xs
    pure (.list ds)
  | .dict es   => do
    checkLevel level
    let fs ← ofEntries (level + 1) es
    pure (.dict (Mapping.ofEntries fs))

/-- Items on a level as documents. -/
def ofItems (level : Nat) : List Value → Except Failure (List Value)
  | []      => .ok []
  | x :: xs => do
    let d ← ofValue level x
    let ds ← ofItems level xs
    pure (d :: ds)

/-- Entries on a level as documents. -/
def ofEntries (level : Nat) :
    List (Value × Value) → Except Failure (List (Value × Value))
  | []           => .ok []
  | (k, v) :: es => do
    let key ← keyText k
    let d ← ofValue level v
    let ds ← ofEntries level es
    pure ((.str key, d) :: ds)

end

/-- A map as a document. -/
def ofMapping (m : Mapping) : Except Failure Mapping := do
  let es ← ofEntries 1 m
  pure (Mapping.ofEntries es)

/-- An optional reference as a document. -/
def ofActor (a : Option EntityRef) : Value := (a.map ofRef).getD .null

/-- A transition record as a document. -/
def ofRecord (r : TransitionRecord) : Value :=
  .record [ ("from_step", .str r.fromStep), ("to_step", .str r.toStep),
    ("action", .str r.action), ("actor", ofActor r.actor),
    ("timestamp", .str r.timestamp.documentText) ]

/-- A history as a document. -/
def ofHistory (rs : List TransitionRecord) : Value := .list (rs.map ofRecord)

end Document

end Workflow
