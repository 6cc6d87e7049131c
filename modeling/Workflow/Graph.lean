/-! # Graph — reachability and cycles over named nodes

    A graph lists its declared nodes with their targets, in order.  A target
    need not be declared; an undeclared node has no targets.  Both searches
    are bounded by the size of the graph. -/

namespace Workflow

-- A sum starts from the numeral, also in a module that imports the zero of an algebra.
attribute [local instance (20000)] Zero.ofOfNat0

/-- Declared nodes with their targets. -/
abbrev Graph := List (String × List String)

namespace Graph

/-- The declared nodes, in order. -/
def nodes (g : Graph) : List String := g.map Prod.fst

/-- The targets of a node; none for an undeclared one. -/
def targets (g : Graph) (n : String) : List String :=
  ((g.find? fun e => e.1 == n).map Prod.snd).getD []

/-- Is the node declared? -/
def declares (g : Graph) (n : String) : Bool := g.any fun e => e.1 == n

/-- Number of edges. -/
def edgeCount (g : Graph) : Nat := (g.map fun e => e.2.length).sum

/-- The nodes of a list that are new, each once. -/
def fresh (seen : List String) : List String → List String
  | []      => []
  | n :: ns =>
    if seen.contains n then fresh seen ns else n :: fresh (n :: seen) ns

/-- Breadth-first search from a queue of nodes that are seen already. -/
def explore (g : Graph) : Nat → List String → List String → List String
  | 0,        _,          seen => seen
  | _ + 1,    [],         seen => seen
  | fuel + 1, n :: queue, seen =>
    let new := fresh seen (g.targets n)
    explore g fuel (queue ++ new) (seen ++ new)

/-- The nodes that a path of edges leads to, `start` included. -/
def reachableFrom (g : Graph) (start : String) : List String :=
  explore g (g.edgeCount + 2) [start] [start]

/-- The nodes that a path leads to from a declared node; none from an
    undeclared one. -/
def reachable (g : Graph) (start : String) : List String :=
  if g.declares start then g.reachableFrom start else []

/-- State of a depth-first search: the current path, the finished nodes and
    the cycles found so far. -/
structure Search where
  path   : List String
  done   : List String
  cycles : List (List String)
deriving Inhabited

/-- Visits a node.  A target on the current path closes a cycle; a declared
    target that is neither there nor finished is visited in turn. -/
def visit (g : Graph) : Nat → String → Search → Search
  | 0,        _, s => s
  | fuel + 1, n, s =>
    let s := { s with path := s.path ++ [n] }
    let s := (g.targets n).foldl (fun s t =>
      if s.path.contains t then
        { s with cycles := s.cycles ++ [s.path.dropWhile (· != t) ++ [t]] }
      else if g.declares t && !s.done.contains t then visit g fuel t s
      else s) s
    { s with path := s.path.dropLast, done := n :: s.done }

/-- The elementary cycles closed by a depth-first search over all nodes, one
    for each edge back to the current path. -/
def cycles (g : Graph) : List (List String) :=
  (g.nodes.foldl (fun (s : Search) n =>
    if s.done.contains n then s else visit g (g.length + 1) n s)
    ⟨[], [], []⟩).cycles

end Graph

end Workflow
