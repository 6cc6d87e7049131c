import Workflow.Scalar

/-! # Value — the data that executions carry

    Values are trees of scalars, lists, tuples, sets and ordered maps.  A
    container may also refer back to one that encloses it: such a reference
    is `up n`, the `n`-th enclosing list, tuple or map counted outwards, so
    that a self-referencing value is still a finite tree. -/

namespace Workflow

/-- A value.  Maps keep their entries in order. -/
inductive Value where
  | scalar (s : Scalar)
  | thing (className : String) (id : Option Value)
  | list (items : List Value)
  | tuple (items : List Value)
  | set (items : List Value)
  | dict (entries : List (Value × Value))
  | up (levels : Nat)

/-- The entries of a map, in order. -/
abbrev Mapping := List (Value × Value)

namespace Value

@[match_pattern, reducible] def null : Value := .scalar .null
@[match_pattern, reducible] def bool (b : Bool) : Value := .scalar (.bool b)
@[match_pattern, reducible] def int (i : Int) : Value := .scalar (.int i)
@[match_pattern, reducible] def float (x : Binary64) : Value := .scalar (.float x)
@[match_pattern, reducible] def str (s : String) : Value := .scalar (.str s)
@[match_pattern, reducible] def bytes (b : List UInt8) : Value := .scalar (.bytes b)
@[match_pattern, reducible] def time (t : Timestamp) : Value := .scalar (.time t)
@[match_pattern, reducible] def status (s : Status) : Value := .scalar (.status s)
@[match_pattern, reducible] def ref (r : EntityRef) : Value := .scalar (.ref r)

instance : Inhabited Value := ⟨.null⟩

/-- A natural number. -/
def nat (n : Nat) : Value := .int n

/-- A list of texts. -/
def texts (ss : List String) : Value := .list (ss.map .str)

/-- A text, or null. -/
def optionalText (s : Option String) : Value := (s.map Value.str).getD .null

/-- A map with texts as keys. -/
def record (fields : List (String × Value)) : Value :=
  .dict (fields.map fun f => (.str f.1, f.2))

/-- The name of a value's type. -/
def typeName : Value → String
  | .scalar s  => s.typeName
  | .thing c _ => c
  | .list _    => "list"
  | .tuple _   => "tuple"
  | .set _     => "set"
  | .dict _    => "dict"
  | .up _      => "dict"

/-- Does a value count as true?  Empty containers do not. -/
def truthy : Value → Bool
  | .scalar s  => s.truthy
  | .thing _ _ => true
  | .list xs   => !xs.isEmpty
  | .tuple xs  => !xs.isEmpty
  | .set xs    => !xs.isEmpty
  | .dict es   => !es.isEmpty
  | .up _      => true

/-- The text that a string or a status is. -/
def toText? : Value → Option String
  | .scalar s => s.toText?
  | _         => none

/-- Is this value a text? -/
def isText (v : Value) : Bool := v.toText?.isSome

/-! ## Equality -/

mutual

/-- Equality by value of values without references to enclosing containers,
    of maps without regard to the order of their entries.  Opaque things
    equal nothing. -/
def equal : Value → Value → Bool
  | .scalar s, .scalar t => s.equal t
  | .list xs,  .list ys  => equalItems xs ys
  | .tuple xs, .tuple ys => equalItems xs ys
  | .set xs,   .set ys   => xs.length == ys.length && allOccur xs ys
  | .dict es,  .dict fs  => es.length == fs.length && allEntries es fs
  | _,         _         => false
termination_by structural v => v

/-- Item by item equality. -/
def equalItems : List Value → List Value → Bool
  | [],      []      => true
  | x :: xs, y :: ys => equal x y && equalItems xs ys
  | _,       _       => false
termination_by structural xs => xs

/-- Does every item occur in the second list? -/
def allOccur : List Value → List Value → Bool
  | [],      _  => true
  | x :: xs, ys => ys.any (fun y => equal x y) && allOccur xs ys
termination_by structural xs => xs

/-- Does every entry stand in the second map with an equal value? -/
def allEntries : List (Value × Value) → List (Value × Value) → Bool
  | [],           _  => true
  | (k, v) :: es, fs =>
    fs.any (fun f => equal k f.1 && equal v f.2) && allEntries es fs
termination_by structural es => es

end

/-! ## Size and keys -/

/-- Number of parts of a text or a container. -/
def size? : Value → Option Nat
  | .scalar (.bytes b) => some b.length
  | .scalar s => s.toText?.map String.length
  | .list xs  => some xs.length
  | .tuple xs => some xs.length
  | .set xs   => some xs.length
  | .dict es  => some es.length
  | _         => none

mutual

/-- The type that keeps a value from being a key of a map or a member of a
    set. -/
def unhashableType? : Value → Option String
  | .scalar _  => none
  | .thing _ _ => none
  | .tuple xs  => unhashableTypeAmong? xs
  | .list _    => some "list"
  | .set _     => some "set"
  | .dict _    => some "dict"
  | .up _      => some "list"

/-- The first such type among items. -/
def unhashableTypeAmong? : List Value → Option String
  | []      => none
  | x :: xs => (unhashableType? x).or (unhashableTypeAmong? xs)

end

/-- Can the value be a key of a map or a member of a set? -/
def isHashable (v : Value) : Bool := v.unhashableType?.isNone

/-- Does `part` occur in `whole` as a contiguous run? -/
def occursIn {α : Type} [BEq α] (part : List α) : List α → Bool
  | []      => part.isEmpty
  | x :: xs => part.isPrefixOf (x :: xs) || occursIn part xs

end Value

end Workflow
