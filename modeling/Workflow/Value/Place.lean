import Workflow.Value

/-! # Place — comparing values that lead back to themselves

    A reference to an enclosing container means that container, so a
    self-referencing value stands for an infinite tree.  A place is a value
    with the containers around it, which is enough to follow its references.
    Two such trees are compared part by part in order: the first difference
    decides, and where the same two containers are met again before one is
    found, there is no answer. -/

namespace Workflow

-- A sum starts from the numeral, also in a module that imports the zero of an algebra.
attribute [local instance (20000)] Zero.ofOfNat0

/-- A value together with the lists, tuples and maps that enclose it, the
    innermost first. -/
structure Place where
  value     : Value
  enclosing : List Value := []

namespace Value

mutual

/-- Number of parts of a value, itself included. -/
def weight : Value → Nat
  | .list xs  => weightOfItems xs + 1
  | .tuple xs => weightOfItems xs + 1
  | .set xs   => weightOfItems xs + 1
  | .dict es  => weightOfEntries es + 1
  | _         => 1

/-- Number of parts of items. -/
def weightOfItems : List Value → Nat
  | []      => 0
  | x :: xs => weight x + weightOfItems xs

/-- Number of parts of the values of entries. -/
def weightOfEntries : List (Value × Value) → Nat
  | []           => 0
  | (_, v) :: es => weight v + weightOfEntries es

end

end Value

namespace Place

/-- The place that is meant: a reference leads out to its container. -/
def target (p : Place) : Place :=
  match p.value with
  | .up n =>
    match p.enclosing.drop (n - 1) with
    | c :: outer => ⟨c, outer⟩
    | []         => p
  | _     => p

/-- A part of the list, tuple or map that stands here. -/
def part (p : Place) (v : Value) : Place := ⟨v, p.value :: p.enclosing⟩

/-- A bound on the pairs of parts of two values; a comparison that goes
    deeper has met one pair twice. -/
def pairBound (p q : Place) : Nat :=
  let weight (p : Place) : Nat := ((p.value :: p.enclosing).map Value.weight).sum
  weight p * weight q + 1

/-! ## Equality -/

/-- Equality by value, as far as a comparison of a given depth tells.  Lists
    and maps of different lengths differ without a look at their parts. -/
def same (depth : Nat) (p q : Place) : Option Bool :=
  match depth with
  | 0         => none
  | depth + 1 =>
    let p := p.target
    let q := q.target
    match p.value, q.value with
    | .list xs,  .list ys  =>
      if xs.length = ys.length then
        (xs.zip ys).allM fun z => same depth (p.part z.1) (q.part z.2)
      else some false
    | .tuple xs, .tuple ys => do
      let common ← (xs.zip ys).allM fun z =>
        same depth (p.part z.1) (q.part z.2)
      pure (common && xs.length == ys.length)
    | .dict es,  .dict fs  =>
      if es.length = fs.length then
        es.allM fun e =>
          match fs.find? fun f => e.1.equal f.1 with
          | some f => same depth (p.part e.2) (q.part f.2)
          | none   => some false
      else some false
    | v,         w         => some (v.equal w)

/-- Equality by value; no answer where it would never be found. -/
def same? (p q : Place) : Option Bool := same (pairBound p q) p q

/-! ## Order -/

/-- The first two places that differ. -/
def firstDifference? : List (Place × Place) → Option (Option (Place × Place))
  | []      => some none
  | z :: zs => do
    if ← z.1.same? z.2 then firstDifference? zs else pure (some z)

/-- Order by value, as far as a comparison of a given depth tells: `none`
    where two values have no order at all, and `some none` where both orders
    fail, as with an undefined number.  Sequences compare at their first
    difference, sets by inclusion. -/
def order (depth : Nat) (p q : Place) : Option (Option Ordering) :=
  match depth with
  | 0         => none
  | depth + 1 =>
    let p := p.target
    let q := q.target
    let sequences (xs ys : List Value) (zs : List (Place × Place)) :
        Option (Option Ordering) := do
      match ← firstDifference? zs with
      | some z => order depth z.1 z.2
      | none   => some (some (compare xs.length ys.length))
    match p.value, q.value with
    | .scalar s, .scalar t => s.order? t
    | .list xs,  .list ys  =>
      sequences xs ys ((xs.map p.part).zip (ys.map q.part))
    | .tuple xs, .tuple ys =>
      sequences xs ys ((xs.map p.part).zip (ys.map q.part))
    | .set xs,   .set ys   =>
      let le := Value.allOccur xs ys
      let ge := Value.allOccur ys xs
      some (if le && ge then some .eq else if le then some .lt
        else if ge then some .gt else none)
    | _,         _         => none

/-- Order by value. -/
def order? (p q : Place) : Option (Option Ordering) := order (pairBound p q) p q

end Place

namespace Value

/-! ## Membership -/

/-- Can the value be looked up in a set?  A set can, though it is no
    member of any. -/
def isLookable : Value → Bool
  | .set _ => true
  | v      => v.isHashable

/-- Is `item` in `whole`?  Texts hold their substrings, maps their keys;
    `none` where the question has no sense or no answer. -/
def holds? (whole item : Value) : Option Bool :=
  match whole with
  | .list xs  => xs.anyM fun x => Place.same? ⟨item, []⟩ ⟨x, [whole]⟩
  | .tuple xs => xs.anyM fun x => Place.same? ⟨item, []⟩ ⟨x, [whole]⟩
  | .set xs   => if item.isLookable then some (xs.any (item.equal ·)) else none
  | .dict es  =>
    if item.isHashable then some (es.any fun e => item.equal e.1) else none
  | .scalar (.bytes b) =>
    match item with
    | .scalar (.bytes c) => some (occursIn c b)
    | .scalar s => s.toInt?.bind fun i =>
      if 0 ≤ i ∧ i < 256 then some (b.contains (UInt8.ofNat i.toNat)) else none
    | _ => none
  | .scalar (.ref r) =>
    some ([("type", r.type), ("id", r.id)].any fun f =>
      item.equal (.tuple [.str f.1, .str f.2]))
  | .scalar s =>
    match s.toText?, item.toText? with
    | some t, some part => some (occursIn part.toList t.toList)
    | _, _ => none
  | _ => none

end Value

end Workflow
