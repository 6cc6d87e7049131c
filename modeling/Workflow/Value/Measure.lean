import Workflow.Value

/-! # Measure — depth, leaves and counts of a value

    Lists and maps are the containers that are walked; everything else,
    tuples and sets included, is a leaf.  A reference to an enclosing
    container ends the walk without being counted. -/

namespace Workflow

namespace Value

mutual

/-- Length of the longest chain of containers that ends at a child, counting
    from `depth`. -/
def depthFrom (depth : Nat) : Value → Nat
  | .list []   => depth
  | .list (x :: xs) =>
    max (depthFrom (depth + 1) x) (depthOfItems (depth + 1) xs)
  | .dict []   => depth
  | .dict ((_, v) :: es) =>
    max (depthFrom (depth + 1) v) (depthOfEntries (depth + 1) es)
  | _          => depth

/-- Greatest depth among items. -/
def depthOfItems (depth : Nat) : List Value → Nat
  | []      => depth
  | x :: xs => max (depthFrom depth x) (depthOfItems depth xs)

/-- Greatest depth among the values of entries. -/
def depthOfEntries (depth : Nat) : List (Value × Value) → Nat
  | []           => depth
  | (_, v) :: es => max (depthFrom depth v) (depthOfEntries depth es)

end

/-- Levels of containers in a value. -/
def nestingDepth (v : Value) : Nat := depthFrom 0 v

mutual

/-- The type names of all leaves, in order. -/
def leafTypes : Value → List String
  | .scalar s   => [s.typeName]
  | .thing c _  => [c]
  | .list xs    => leafTypesOfItems xs
  | .tuple _    => ["tuple"]
  | .set _      => ["set"]
  | .dict es    => leafTypesOfEntries es
  | .up _       => []

/-- The leaves of items. -/
def leafTypesOfItems : List Value → List String
  | []      => []
  | x :: xs => leafTypes x ++ leafTypesOfItems xs

/-- The leaves of the values of entries. -/
def leafTypesOfEntries : List (Value × Value) → List String
  | []           => []
  | (_, v) :: es => leafTypes v ++ leafTypesOfEntries es

end

mutual

/-- Number of children, at any depth, that satisfy `p`. -/
def countChildren (p : Value → Bool) : Value → Nat
  | .list xs => countItems p xs
  | .dict es => countEntries p es
  | _        => 0

/-- Counts each item and what is below it. -/
def countItems (p : Value → Bool) : List Value → Nat
  | []      => 0
  | x :: xs => (if p x then 1 else 0) + countChildren p x + countItems p xs

/-- Counts each entry's value and what is below it. -/
def countEntries (p : Value → Bool) : List (Value × Value) → Nat
  | []           => 0
  | (_, v) :: es => (if p v then 1 else 0) + countChildren p v + countEntries p es

end

/-- Is the value null? -/
def isNull : Value → Bool
  | .scalar .null => true
  | _             => false

/-- Is the value a list or a map without parts? -/
def isEmptyCollection : Value → Bool
  | .list [] => true
  | .dict [] => true
  | _        => false

end Value

/-- How often each name occurs, by first occurrence. -/
def tally (names : List String) : List (String × Nat) :=
  names.foldl (fun counts n =>
    if counts.any (fun c => c.1 == n) then
      counts.map fun c => if c.1 == n then (c.1, c.2 + 1) else c
    else counts ++ [(n, 1)]) []

/-- A tally as a value. -/
def tallyValue (names : List String) : Value :=
  .record ((tally names).map fun c => (c.1, .nat c.2))

end Workflow
