import Workflow.Value

/-! # Mapping — ordered maps and the references inside them

    Looking up, inserting and removing keep the order of entries.  A value
    that leaves its map or list, and a map that is copied at the top only,
    carry their references to the old root along: all are re-rooted here. -/

namespace Workflow

namespace Value

mutual

/-- Replaces each reference to the container just outside by `f depth`,
    where `depth` counts the containers in between, that one included. -/
def replaceRoot (f : Nat → Value) (depth : Nat) : Value → Value
  | .scalar s   => .scalar s
  | .thing c id => .thing c id
  | .list xs    => .list (replaceRootItems f (depth + 1) xs)
  | .tuple xs   => .tuple (replaceRootItems f (depth + 1) xs)
  | .set xs     => .set (replaceRootItems f depth xs)
  | .dict es    => .dict (replaceRootEntries f (depth + 1) es)
  | .up n       => if n = depth then f depth else .up n

/-- Replacement in each item. -/
def replaceRootItems (f : Nat → Value) (depth : Nat) : List Value → List Value
  | []      => []
  | x :: xs => replaceRoot f depth x :: replaceRootItems f depth xs

/-- Replacement in each entry's value. -/
def replaceRootEntries (f : Nat → Value) (depth : Nat) :
    List (Value × Value) → List (Value × Value)
  | []           => []
  | (k, v) :: es => (k, replaceRoot f depth v) :: replaceRootEntries f depth es

end

end Value

namespace Mapping

/-- The value stored under a key, with references as they stand in the
    map. -/
def find? (m : Mapping) (key : Value) : Option Value :=
  (List.find? (fun e => key.equal e.1) m).map Prod.snd

/-- The value stored under a text, as it stands in the map. -/
def field? (m : Mapping) (key : String) : Option Value := m.find? (.str key)

/-- Is there an entry for the key? -/
def contains (m : Mapping) (key : String) : Bool :=
  m.any fun e => (Value.str key).equal e.1

/-- Inserts or overwrites; an overwritten entry keeps its place and its
    key. -/
def insert (m : Mapping) (key v : Value) : Mapping :=
  match m with
  | []          => [(key, v)]
  | (k, w) :: m => if key.equal k then (k, v) :: m else (k, w) :: insert m key v

/-- Inserts under a text. -/
def set (m : Mapping) (key : String) (v : Value) : Mapping :=
  insert m (.str key) v

/-- Inserts each entry of `additions` in turn. -/
def merge (m additions : Mapping) : Mapping :=
  additions.foldl (fun m e => insert m e.1 e.2) m

/-- The map with the given entries, a later equal key overwriting. -/
def ofEntries (es : List (Value × Value)) : Mapping := merge [] es

/-- Removes the entry of any key. -/
def remove (m : Mapping) (key : Value) : Mapping :=
  m.filter fun e => !key.equal e.1

/-- Removes the entry of a text. -/
def erase (m : Mapping) (key : String) : Mapping := m.remove (.str key)

/-- The value of an entry, standing on its own: what referred to the map
    refers to the map still, which leads back to the value. -/
def detach (m : Mapping) (key v : Value) : Value :=
  v.replaceRoot (fun depth => .dict (m.insert key (.up depth))) 1

/-- The value under any key, standing on its own. -/
def lookup? (m : Mapping) (key : Value) : Option Value :=
  (m.find? key).map (m.detach key)

/-- The value under a text, standing on its own. -/
def get? (m : Mapping) (key : String) : Option Value := m.lookup? (.str key)

/-- The value under a text, standing on its own, or a default. -/
def getD (m : Mapping) (key : String) (default : Value) : Value :=
  (m.get? key).getD default

/-- A copy of the top level, keeping the entries that satisfy `keep`: what
    led back to the map now leads to the map that was copied. -/
def copyTop (m : Mapping) (keep : Value → Bool) : Mapping :=
  (m.filter fun e => keep e.1).map fun e => (e.1, m.detach e.1 e.2)

/-- A copy of the whole top level. -/
def copy (m : Mapping) : Mapping := copyTop m fun _ => true

end Mapping

namespace Value

/-- The entries of a value that is a map. -/
def entries? : Value → Option Mapping
  | .dict m => some m
  | _       => none

/-- The items of a list or tuple, each standing on its own: what referred to
    the whole refers to it still, and there the item's place leads back to
    the item. -/
def detachedFrom (whole : List Value → Value) (xs : List Value) : List Value :=
  xs.mapIdx fun i x => x.replaceRoot (fun depth => whole (xs.set i (.up depth))) 1

/-- The items of a list, each standing on its own. -/
def detachedItems (xs : List Value) : List Value := detachedFrom .list xs

/-- The items of a tuple, each standing on its own. -/
def detachedComponents (xs : List Value) : List Value := detachedFrom .tuple xs

/-- The place that an index counts, a negative one from the end. -/
def placeOf? (size : Nat) (index : Int) : Option Nat :=
  let i := if index < 0 then index + size else index
  if 0 ≤ i ∧ i < size then some i.toNat else none

/-- What a value holds under a key, standing on its own: the entry of a map,
    or the item of a sequence at an index.  An item of a text is a text, one
    of bytes a number; a value of another kind holds nothing. -/
def part? (whole key : Value) : Option Value :=
  let item {α : Type} (xs : List α) : Option α := do
    let .scalar s := key | none
    xs[← placeOf? xs.length (← s.toInt?)]?
  match whole with
  | .dict m            => if key.isHashable then Mapping.lookup? m key else none
  | .list xs           => item (detachedItems xs)
  | .tuple xs          => item (detachedComponents xs)
  | .scalar (.bytes b) => (item b).map fun x => .int x.toNat
  | .scalar s          =>
    s.toText?.bind fun t => (item t.toList).map fun c => .str (String.singleton c)
  | _                  => none

/-- A map without the entry of a key; any other value as it is. -/
def without (v key : Value) : Value :=
  match v with
  | .dict m => .dict (Mapping.remove m key)
  | v       => v

end Value

end Workflow
