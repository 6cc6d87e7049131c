import Workflow.Mapping
import Workflow.Yaml.Node
import Workflow.Yaml.Scalar

/-! # Reader — the value that a YAML text denotes

    A node without a tag is what its form tells; a tag names what a node has
    to be.  A map takes the entries of the maps under its merge keys first,
    so that its own ones go before them.  Nodes are looked at level by
    level: of several faults the one of the least depth counts. -/

namespace Workflow

namespace Yaml

/-! ## What nodes are -/

/-- What a node is to denote: a scalar of a kind, or a container.  Pairs are
    written as a list of maps with one entry each. -/
inductive Target where
  | word (kind : Kind)
  | list
  | map
  | set
  | pairs
deriving DecidableEq

/-- What the tags of the common targets begin with. -/
def commonTag : String := "tag:yaml.org,2002:"

/-- The names of the common targets. -/
def targets : List (String × Target) :=
  [("null", .word .null), ("bool", .word .bool), ("int", .word .int),
   ("float", .word .float), ("timestamp", .word .time), ("str", .word .text),
   ("binary", .word .binary), ("merge", .word .merge), ("value", .word .default),
   ("seq", .list), ("map", .map), ("set", .set), ("omap", .pairs), ("pairs", .pairs)]

/-- The target that a tag names. -/
def target? (tag : String) : Option Target :=
  (targets.find? fun t => commonTag ++ t.1 == tag).map Prod.snd

/-- The target of a container, which has its usual one unless a tag names
    another. -/
def containerTarget? (usual : Target) : Option String → Option Target
  | none   => some usual
  | some t => if t = "!" then some usual else target? t

/-- The target of a scalar: by its tag, else by its form when it is plain or
    its tag asks for that. -/
def scalarTarget? (tag : Option String) (text : String) (form : Form) : Option Target :=
  match tag with
  | none   => some (.word (if form = .plain then kindOf text.toList else .text))
  | some t =>
    if t = "!" then some (.word (kindOf (withoutFinalBreak text.toList)))
    else target? t

/-- Is the node a scalar of a kind? -/
def Node.isOfKind (kind : Kind) : Node → Bool
  | .scalar tag text form => scalarTarget? tag text form == some (.word kind)
  | _                     => false

mutual

/-- Can a map take over the entries under its merge keys?  They have to
    stand in maps. -/
def Node.mergeable : List (Node × Node) → Bool
  | []           => true
  | (k, n) :: es => (!k.isOfKind .merge || n.isSource) && Node.mergeable es

/-- Can entries be taken over from the node? -/
def Node.isSource : Node → Bool
  | .map _ es     => Node.mergeable es
  | .list _ ns    => Node.areSources ns
  | .enclosing    => true
  | .scalar _ _ _ => false

/-- Are the nodes maps that entries can be taken over from? -/
def Node.areSources : List Node → Bool
  | []      => true
  | n :: ns =>
    (match n with
      | .map _ es  => Node.mergeable es
      | .enclosing => true
      | _          => false) && Node.areSources ns

end

mutual

/-- The text of a scalar, or of the default value of a map. -/
def Node.text? : Node → Option (String × Form)
  | .scalar _ text form => some (text, form)
  | .map _ es           => Node.defaultText? es
  | _                   => none

/-- The text under the first default key. -/
def Node.defaultText? : List (Node × Node) → Option (String × Form)
  | []           => none
  | (k, n) :: es => if k.isOfKind .default then n.text? else Node.defaultText? es

end

/-! ## Values of nodes -/

/-- What reading comes to: a result, or a fault with its depth. -/
abbrev Outcome (α : Type) := Except (Nat × Fault) α

namespace Outcome

variable {α β γ : Type}

/-- Two outcomes together; of two faults the less deep one counts, else the
    first one. -/
def both (f : α → β → γ) : Outcome α → Outcome β → Outcome γ
  | .ok a,    .ok b    => .ok (f a b)
  | .ok _,    .error e => .error e
  | .error e, .ok _    => .error e
  | .error e, .error g => .error (if g.1 < e.1 then g else e)

/-- Outcomes together, in order. -/
def inOrder : List (Outcome α) → Outcome (List α)
  | []      => .ok []
  | x :: xs => both List.cons x (inOrder xs)

end Outcome

/-- A node that has no structure. -/
def misplaced {α : Type} (depth : Nat) : Outcome α := .error (depth, .malformed)

/-- The value of a text that is to be of a kind.  Half of a character makes
    it an opaque value rather than a text. -/
def textValue (depth : Nat) (kind : Kind) (text : String) (form : Form) : Outcome Value :=
  if form = .halved ∧ kind = .text then .ok (.thing "str" none)
  else (wordValue kind text.toList).mapError fun e => (depth, e)

/-- The value of a node that is no container by its target. -/
def ofTarget (depth : Nat) (target : Option Target) (text : Option (String × Form)) :
    Outcome Value :=
  match target, text with
  | some (.word kind), some (text, form) => textValue depth kind text form
  | some (.word _),    none              => misplaced depth
  | some _,            _                 => misplaced (depth + 1)
  | none,              _                 => misplaced depth

/-- The value of a key, which is no container.  A default key is a text. -/
def Node.keyValue (depth : Nat) (n : Node) : Outcome Value :=
  let ofText (target : Option Target) : Outcome Value :=
    match target, n.text? with
    | some (.word .text), some (text, _) => .ok (.str text)
    | some (.word kind),  some (text, _) => textValue depth kind text .plain
    | _,                  _              => misplaced depth
  match n with
  | .scalar tag text form =>
    if n.isOfKind .default then .ok (.str text)
    else ofText (scalarTarget? tag text form)
  | .map tag _            => ofText (containerTarget? .map tag)
  | .list _ _             => misplaced depth
  | .enclosing            => misplaced depth

mutual

/-- The value of a node at a depth. -/
def Node.value (depth : Nat) : Node → Outcome Value
  | .scalar tag text form =>
    ofTarget depth (scalarTarget? tag text form) (some (text, form))
  | .list tag ns          =>
    match containerTarget? .list tag with
    | some .list  => (Node.values (depth + 1) ns).map .list
    | some .pairs => (Node.pairs (depth + 1) ns).map .list
    | target      => ofTarget depth target none
  | .map tag es           =>
    let entries : Outcome Mapping :=
      if Node.mergeable es then
        let (merged, own) := Node.entries (depth + 1) es
        (Outcome.inOrder (merged ++ own)).map Mapping.ofEntries
      else misplaced (depth + 1)
    match containerTarget? .map tag with
    | some .map => entries.map .dict
    | some .set => entries.map fun m => .set (m.map Prod.fst)
    | target    => ofTarget depth target (Node.defaultText? es)
  | .enclosing            => .ok (.up 1)

/-- The values of nodes. -/
def Node.values (depth : Nat) : List Node → Outcome (List Value)
  | []      => .ok []
  | n :: ns => Outcome.both List.cons (n.value depth) (Node.values depth ns)

/-- The pairs that maps with one entry each are. -/
def Node.pairs (depth : Nat) : List Node → Outcome (List Value)
  | []      => .ok []
  | n :: ns =>
    let pair : Outcome Value :=
      match n with
      | .map _ es => Node.onlyEntry depth es
      | _         => misplaced depth
    Outcome.both List.cons pair (Node.pairs depth ns)

/-- The only entry of a map, as a pair. -/
def Node.onlyEntry (depth : Nat) : List (Node × Node) → Outcome Value
  | [(k, n)] =>
    Outcome.both (fun a b => .tuple [a, b]) (k.value depth) (n.value depth)
  | _        => misplaced depth

/-- The entries of a map: those that it takes over, and its own. -/
def Node.entries (depth : Nat) : List (Node × Node) →
    List (Outcome (Value × Value)) × List (Outcome (Value × Value))
  | []           => ([], [])
  | (k, n) :: es =>
    let (merged, own) := Node.entries depth es
    if k.isOfKind .merge then (Node.takenOver depth n ++ merged, own)
    else (merged, Outcome.both Prod.mk (k.keyValue depth) (n.value depth) :: own)

/-- The entries that a merge key takes over from a map, or from the maps of
    a list, where earlier ones go before later ones. -/
def Node.takenOver (depth : Nat) : Node → List (Outcome (Value × Value))
  | .map _ es  =>
    let (merged, own) := Node.entries depth es
    merged ++ own
  | .list _ ns => Node.takenOverAll depth ns
  | _          => []

/-- The entries of the maps of a list, the last map first. -/
def Node.takenOverAll (depth : Nat) : List Node → List (Outcome (Value × Value))
  | []      => []
  | n :: ns => Node.takenOverAll depth ns ++ n.takenOver depth

end

/-- The value that a text denotes; one without any node denotes null. -/
def read (text : String) : Except Fault Value := do
  let cs := text.toList
  if cs.all mayOccur then
    match ← node? cs with
    | some n => (n.value 0).mapError Prod.snd
    | none   => pure .null
  else throw .malformed

end Yaml

end Workflow
