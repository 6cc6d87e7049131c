import Workflow.Yaml.Token

/-! # Node — the tree that a YAML text lays out

    A node is a scalar, a list or a map, perhaps with a tag.  An alias stands
    for the node with its anchor; inside of that node it means an enclosing
    one.  Where a node may be missing, an empty scalar takes its place. -/

namespace Workflow

namespace Yaml

/-- A node of a text. -/
inductive Node where
  | scalar (tag : Option String) (text : String) (form : Form)
  | list (tag : Option String) (items : List Node)
  | map (tag : Option String) (entries : List (Node × Node))
  | enclosing
deriving Inhabited

/-- A node that is not written. -/
def Node.missing : Node := .scalar none "" .plain

/-- What building nodes has come to: the tokens left, the anchors with their
    finished nodes, and the handles of tags. -/
structure Build where
  tokens  : List Token
  anchors : List (String × Option Node) := []
  handles : List (String × String) := [("!", "!"), ("!!", "tag:yaml.org,2002:")]

/-- A step of building. -/
abbrev Building := StateT Build (Except Fault)

namespace Building

/-- The token that follows. -/
def peek : Building (Option Token) := do return (← get).tokens.head?

/-- Passes a token. -/
def pass : Building Unit := modify fun s => { s with tokens := s.tokens.drop 1 }

/-- Passes a token if it follows; tells whether it does. -/
def accept (t : Token) : Building Bool := do
  if (← peek) = some t then
    pass
    pure true
  else pure false

/-- Does one of some tokens follow, or the end? -/
def atOneOf (ts : List Token) : Building Bool := do
  match ← peek with
  | some t => pure (ts.contains t)
  | none   => pure true

/-- Fails. -/
def malformed {α : Type} : Building α := throw .malformed

/-- Passes an anchor, if one follows. -/
def anchor? : Building (Option String) := do
  match ← peek with
  | some (.anchor name) =>
    pass
    pure (some name)
  | _                   => pure none

/-- Passes a tag, if one follows, with its handle spelt out. -/
def tag? : Building (Option String) := do
  match ← peek with
  | some (.tag none suffix)     =>
    pass
    pure (some suffix)
  | some (.tag (some h) suffix) =>
    pass
    match (← get).handles.find? fun e => e.1 == h with
    | some e => pure (some (e.2 ++ suffix))
    | none   => malformed
  | _                           => pure none

/-- The anchor and the tag of a node, in either order. -/
def properties : Building (Option String × Option String) := do
  match ← anchor? with
  | some a => pure (some a, ← tag?)
  | none   =>
    let t ← tag?
    pure (← anchor?, t)

/-- Notes a new anchor whose node is not finished. -/
def openAnchor (a : Option String) : Building Unit := do
  if let some name := a then
    if (← get).anchors.any fun e => e.1 == name then malformed
    modify fun s => { s with anchors := (name, none) :: s.anchors }

/-- Notes the finished node of an anchor. -/
def closeAnchor (a : Option String) (n : Node) : Building Node := do
  if let some name := a then
    modify fun s => { s with anchors := (name, some n) :: s.anchors }
  pure n

/-- The node that an alias stands for. -/
def aliased (name : String) : Building Node := do
  match (← get).anchors.find? fun e => e.1 == name with
  | some (_, some n) => pure n
  | some (_, none)   => pure .enclosing
  | none             => malformed

mutual

/-- A node.  Blocks are admitted with `block`, items right at a key's own
    indentation with `flush`. -/
def node (block flush : Bool) : Nat → Building Node
  | 0        => malformed
  | fuel + 1 => do
    if let some (.alias name) ← peek then
      pass
      return ← aliased name
    let (a, t) ← properties
    openAnchor a
    match ← peek with
    | some (.scalar text form) =>
      pass
      closeAnchor a (.scalar t text form)
    | some .openList           =>
      pass
      closeAnchor a (.list t (← flowItems true fuel))
    | some .openMap            =>
      pass
      closeAnchor a (.map t (← flowEntries true fuel))
    | next                     =>
      if flush ∧ next = some .item then closeAnchor a (.list t (← flushItems fuel))
      else if block ∧ next = some .listStart then
        pass
        closeAnchor a (.list t (← blockItems fuel))
      else if block ∧ next = some .mapStart then
        pass
        closeAnchor a (.map t (← blockEntries fuel))
      else if a.isSome || t.isSome then closeAnchor a (.scalar t "" .plain)
      else malformed

/-- A node, or a missing one where one of some tokens follows. -/
def optional (block flush : Bool) (ends : List Token) : Nat → Building Node
  | 0        => malformed
  | fuel + 1 => do
    if ← atOneOf ends then pure .missing else node block flush fuel

/-- The items of a block. -/
def blockItems : Nat → Building (List Node)
  | 0        => malformed
  | fuel + 1 => do
    if ← accept .item then
      let n ← optional true false [.item, .blockEnd] fuel
      pure (n :: (← blockItems fuel))
    else if ← accept .blockEnd then pure []
    else malformed

/-- The items at a key's own indentation. -/
def flushItems : Nat → Building (List Node)
  | 0        => malformed
  | fuel + 1 => do
    if ← accept .item then
      let n ← optional true false [.item, .key, .value, .blockEnd] fuel
      pure (n :: (← flushItems fuel))
    else pure []

/-- The entries of a block. -/
def blockEntries : Nat → Building (List (Node × Node))
  | 0        => malformed
  | fuel + 1 => do
    if ← accept .blockEnd then return []
    if !(← accept .key) then malformed
    let ends := [Token.key, .value, .blockEnd]
    let k ← optional true true ends fuel
    let v ← if ← accept .value then optional true true ends fuel else pure .missing
    pure ((k, v) :: (← blockEntries fuel))

/-- The items between brackets; a key among them makes a map of one
    entry. -/
def flowItems (first : Bool) : Nat → Building (List Node)
  | 0        => malformed
  | fuel + 1 => do
    if ← accept .closeList then return []
    if !first then
      if !(← accept .comma) then malformed
      if ← accept .closeList then return []
    let n ← if ← accept .key then do
        let k ← optional false false [.value, .comma, .closeList] fuel
        let v ← if ← accept .value then optional false false [.comma, .closeList] fuel
          else pure .missing
        pure (Node.map none [(k, v)])
      else node false false fuel
    pure (n :: (← flowItems false fuel))

/-- The entries between braces; a node that is no key has no value. -/
def flowEntries (first : Bool) : Nat → Building (List (Node × Node))
  | 0        => malformed
  | fuel + 1 => do
    if ← accept .closeMap then return []
    if !first then
      if !(← accept .comma) then malformed
      if ← accept .closeMap then return []
    let e ← if ← accept .key then do
        let k ← optional false false [.value, .comma, .closeMap] fuel
        let v ← if ← accept .value then optional false false [.comma, .closeMap] fuel
          else pure .missing
        pure (k, v)
      else do
        pure (← node false false fuel, Node.missing)
    pure (e :: (← flowEntries false fuel))

end

/-- Passes the directives before a document; a version must be given once
    at most, and a handle must be new. -/
def directives (versioned : Bool) (handles : List (String × String)) :
    Nat → Building (List (String × String))
  | 0        => malformed
  | fuel + 1 => do
    match ← peek with
    | some (.version major) =>
      if versioned || major != 1 then malformed
      pass
      directives true handles fuel
    | some (.tagHandle h e) =>
      if handles.any fun x => x.1 == h then malformed
      pass
      directives versioned ((h, e) :: handles) fuel
    | some .otherDirective  =>
      pass
      directives versioned handles fuel
    | _                     => pure handles

/-- Passes marks of the end of a document. -/
def passEnds : Nat → Building Unit
  | 0        => pure ()
  | fuel + 1 => do if ← accept .documentEnd then passEnds fuel

/-- Is it a directive or a mark between documents? -/
def isOutside : Token → Bool
  | .version _ | .tagHandle _ _ | .otherDirective | .documentStart => true
  | _                                                              => false

/-- The only document, if there is one. -/
def document : Building (Option Node) := do
  let s ← get
  let fuel := 4 * s.tokens.length + 4
  match s.tokens with
  | []     => pure none
  | t :: _ =>
    let n ← if isOutside t then do
        let handles ← directives false [] fuel
        modify fun s => { s with handles := handles ++ s.handles }
        if !(← accept .documentStart) then malformed
        match ← peek with
        | none              => pure .missing
        | some .documentEnd => pure .missing
        | some t            => if isOutside t then malformed else node true false fuel
      else node true false fuel
    passEnds fuel
    if (← get).tokens.isEmpty then pure (some n) else malformed

end Building

/-- The node that a text lays out, if there is any. -/
def node? (cs : List Char) : Except Fault (Option Node) := do
  let ts ← tokens cs
  let (n, _) ← Building.document.run { tokens := ts }
  pure n

end Yaml

end Workflow
