import Workflow.Text.Encoded
import Workflow.Yaml.Word

/-! # Token — a YAML text as a list of marks and scalars

    Blocks are told by columns: a line further in begins a block, one further
    out ends it.  What might be a key is remembered, and the mark of a key is
    put in front of it once a colon follows on the same line. -/

namespace Workflow

namespace Yaml

/-- A mark or a scalar of a text. -/
inductive Token where
  | version (major : Nat)
  | tagHandle (handle expansion : String)
  | otherDirective
  | documentStart
  | documentEnd
  | listStart
  | mapStart
  | blockEnd
  | openList
  | closeList
  | openMap
  | closeMap
  | comma
  | item
  | key
  | value
  | alias (name : String)
  | anchor (name : String)
  | tag (handle : Option String) (suffix : String)
  | scalar (text : String) (form : Form)
deriving DecidableEq

/-- A token that may turn out to be a key: its number and its place.  A key
    is required where nothing else can stand. -/
structure PossibleKey where
  token    : Nat
  required : Bool
  index    : Nat
  line     : Nat
  column   : Nat

/-- What reading has come to.  `size` is the length of the text, `flow` counts
    the open brackets, and possible keys are kept for each count. -/
structure Scan where
  size       : Nat
  cursor     : Cursor
  tokens     : Array Token := #[]
  flow       : Nat := 0
  indent     : Int := -1
  outer      : List Int := []
  keyAllowed : Bool := true
  keys       : List (Nat × PossibleKey) := []

/-- A step of reading. -/
abbrev Scanning := StateT Scan (Except Fault)

namespace Scanning

/-- Fails unless the condition holds. -/
def require (condition : Bool) : Scanning Unit :=
  if condition then pure () else throw .malformed

/-- The place that reading has come to. -/
def cursor : Scanning Cursor := do return (← get).cursor

/-- Goes on at a place. -/
def goTo (c : Cursor) : Scanning Unit := modify fun s => { s with cursor := c }

/-- Adds a token. -/
def emit (t : Token) : Scanning Unit := modify fun s => { s with tokens := s.tokens.push t }

/-- Adds a token before the one with a number. -/
def insertAt (n : Nat) (t : Token) : Scanning Unit :=
  modify fun s => { s with
    tokens := (s.tokens.extract 0 n).push t ++ s.tokens.extract n s.tokens.size }

/-- Says whether a key may follow. -/
def allowKey (allowed : Bool) : Scanning Unit :=
  modify fun s => { s with keyAllowed := allowed }

/-! ## Possible keys -/

/-- A key is at most this long. -/
def keyLimit : Nat := 1024

/-- Forgets possible keys that are on an earlier line or too long. -/
def forgetStaleKeys : Scanning Unit := do
  let s ← get
  let isStale (k : PossibleKey) : Bool :=
    k.line != s.cursor.line || keyLimit < s.cursor.index - k.index
  require (s.keys.all fun k => !(isStale k.2 && k.2.required))
  set { s with keys := s.keys.filter fun k => !isStale k.2 }

/-- Forgets the possible key inside the present brackets. -/
def forgetKey : Scanning Unit := do
  let s ← get
  require (s.keys.all fun k => !(k.1 == s.flow && k.2.required))
  set { s with keys := s.keys.filter fun k => k.1 != s.flow }

/-- Remembers that the next token may be a key. -/
def rememberKey : Scanning Unit := do
  if (← get).keyAllowed then
    forgetKey
    modify fun s =>
      let required := s.flow == 0 && s.indent == s.cursor.column
      { s with keys := (s.flow, ⟨s.tokens.size, required, s.cursor.index,
          s.cursor.line, s.cursor.column⟩) :: s.keys }

/-! ## Indentation -/

/-- Ends the blocks that are further in than a column. -/
def unwind (column : Int) : Scanning Unit := do
  let s ← get
  if s.flow = 0 then
    let rec go (indent : Int) (tokens : Array Token) : List Int → Scan
      | []          => { s with indent, tokens, outer := [] }
      | out :: outs =>
        if column < indent then go out (tokens.push .blockEnd) outs
        else { s with indent, tokens, outer := out :: outs }
    set (go s.indent s.tokens s.outer)

/-- Begins a block at a column, unless there is one; tells whether it
    does. -/
def indentTo (column : Nat) : Scanning Bool := do
  let s ← get
  if s.indent < column then
    set { s with indent := (column : Int), outer := s.indent :: s.outer }
    pure true
  else pure false

/-! ## Marks -/

/-- Passes blanks, comments and line ends.  Outside brackets a key may begin
    a line. -/
def passGaps : Nat → Scanning Unit
  | 0        => pure ()
  | fuel + 1 => do
    let c ← cursor
    let c := (c.skipWhile (· == ' ')).skipComment
    match c.lineBreak? with
    | none        => goTo c
    | some (_, c) =>
      goTo c
      if (← get).flow = 0 then allowKey true
      passGaps fuel

/-- A mark of one character. -/
def mark (t : Token) : Scanning Unit := do
  goTo (← cursor).next
  emit t

/-- Ends all blocks before a line that stands outside of them. -/
def leaveBlocks : Scanning Unit := do
  unwind (-1)
  forgetKey
  allowKey false

/-- A mark between documents. -/
def documentMark (t : Token) : Scanning Unit := do
  leaveBlocks
  goTo ((← cursor).skip 3)
  emit t

/-- An opening bracket, which may begin a key. -/
def openBracket (t : Token) : Scanning Unit := do
  rememberKey
  modify fun s => { s with flow := s.flow + 1 }
  allowKey true
  mark t

/-- A closing bracket. -/
def closeBracket (t : Token) : Scanning Unit := do
  forgetKey
  modify fun s => { s with flow := s.flow - 1 }
  allowKey false
  mark t

/-- A comma between brackets. -/
def comma : Scanning Unit := do
  allowKey true
  forgetKey
  mark .comma

/-- Begins a block at the present column outside brackets, where a key has
    to be allowed. -/
def beginBlock (start : Token) : Scanning Unit := do
  let s ← get
  if s.flow = 0 then
    require s.keyAllowed
    if ← indentTo s.cursor.column then emit start

/-- The dash of an item. -/
def item : Scanning Unit := do
  beginBlock .listStart
  allowKey true
  forgetKey
  mark .item

/-- The question mark of a key. -/
def explicitKey : Scanning Unit := do
  beginBlock .mapStart
  allowKey ((← get).flow == 0)
  forgetKey
  mark .key

/-- The colon of a value: what stands before it becomes a key, if it may. -/
def value : Scanning Unit := do
  let s ← get
  match s.keys.find? fun k => k.1 == s.flow with
  | some (_, k) =>
    set { s with keys := s.keys.filter fun k => k.1 != s.flow }
    insertAt k.token .key
    if s.flow = 0 then
      if ← indentTo k.column then insertAt k.token .mapStart
    allowKey false
  | none        =>
    beginBlock .mapStart
    allowKey (s.flow == 0)
    forgetKey
  mark .value

/-! ## Names -/

/-- The name of an anchor or an alias. -/
def name (token : String → Token) : Scanning Unit := do
  rememberKey
  allowKey false
  let (cs, c) := (← cursor).next.span isNameChar
  require (!cs.isEmpty && (isGap c.head ||
    ['?', ':', ',', ']', '\x7d', '%', '@', '\x60'].contains c.head))
  goTo c
  emit (token (String.ofList cs))

/-- May the character stand in the suffix of a tag? -/
def isTagChar (c : Char) : Bool :=
  c.isAlphanum || "-;/?:@&=+$,_.!~*'()[]".toList.contains c

/-- The bytes that escapes with a percent sign in front denote. -/
def escapedBytes : List Char → List UInt8
  | '%' :: h :: l :: cs =>
    match hexNumber? 2 [h, l] with
    | some n => UInt8.ofNat n :: escapedBytes cs
    | none   => []
  | _                   => []

/-- Characters of the suffix of a tag, and texts that escapes encode. -/
def tagParts : Nat → Scanning (List Char)
  | 0        => throw .malformed
  | fuel + 1 => do
    let (cs, c) := (← cursor).span isTagChar
    goTo c
    if c.head ≠ '%' then pure cs
    else
      let bytes := escapedBytes c.rest
      goTo (c.skip (3 * bytes.length))
      require ((← cursor).head != '%')
      match textOfBytes? bytes with
      | some t => return cs ++ t.toList ++ (← tagParts fuel)
      | none   => throw .malformed

/-- The suffix of a tag. -/
def tagSuffix : Scanning String := do
  let cs ← tagParts ((← get).size + 1)
  require (!cs.isEmpty)
  pure (String.ofList cs)

/-- The handle of a tag: an exclamation mark, or a name between two. -/
def handle : Scanning String := do
  let c ← cursor
  let (cs, after) := c.next.span isNameChar
  if c.ahead 1 = ' ' then
    goTo c.next
    pure "!"
  else
    require (c.head == '!' && after.head == '!')
    goTo after.next
    pure (String.ofList ('!' :: cs ++ ['!']))

/-- A tag. -/
def tag : Scanning Unit := do
  rememberKey
  allowKey false
  let c ← cursor
  let t ←
    if c.ahead 1 = '<' then do
      goTo (c.skip 2)
      let suffix ← tagSuffix
      require ((← cursor).head == '>')
      goTo (← cursor).next
      pure (Token.tag none suffix)
    else if isGap (c.ahead 1) then do
      goTo c.next
      pure (Token.tag none "!")
    else do
      let word := c.next.rest.takeWhile fun ch => ch == '\t' || !isGap ch
      let h ← if word.contains '!' then handle else do
        goTo c.next
        pure "!"
      pure (Token.tag (some h) (← tagSuffix))
  let c ← cursor
  require (c.head == ' ' || isLineEnd c.head)
  emit t

/-! ## Directives -/

/-- The number of a version. -/
def versionNumber : Scanning Nat := do
  let (ds, c) := (← cursor).span Char.isDigit
  require (!ds.isEmpty)
  goTo c
  pure (ofDigits ds)

/-- Passes blanks. -/
def passBlanks : Scanning Unit := do goTo ((← cursor).skipWhile (· == ' '))

/-- What a directive says, behind its name. -/
def directiveOf (name : String) : Scanning Token := do
  passBlanks
  if name = "YAML" then
    let major ← versionNumber
    require ((← cursor).head == '.')
    goTo (← cursor).next
    let _ ← versionNumber
    pure (.version major)
  else if name = "TAG" then
    let h ← handle
    require ((← cursor).head == ' ')
    passBlanks
    pure (.tagHandle h (← tagSuffix))
  else
    goTo ((← cursor).skipWhile fun ch => !isBreak ch)
    pure .otherDirective

/-- A directive, which takes up a line. -/
def directive : Scanning Unit := do
  leaveBlocks
  let (name, c) := (← cursor).next.span isNameChar
  require (!name.isEmpty && (c.head == ' ' || isLineEnd c.head))
  goTo c
  let t ← directiveOf (String.ofList name)
  let c ← cursor
  require (c.head == ' ' || isLineEnd c.head)
  let c ← StateT.lift c.finishLine
  goTo c
  emit t

/-! ## Scalars -/

/-- A plain word. -/
def plain : Scanning Unit := do
  rememberKey
  let s ← get
  let c := s.cursor
  let (cs, c, ended) := plainWord (s.flow != 0) (s.indent + 1) (s.size + 1) [] c
  allowKey ended
  goTo c
  emit (.scalar (String.ofList cs) .plain)

/-- A text in quotes. -/
def quoted (quote : Char) : Scanning Unit := do
  rememberKey
  allowKey false
  let s ← get
  let (cs, c) ← StateT.lift (quotedText quote (s.size + 1) s.cursor.next)
  goTo c
  let form := if cs.all Option.isSome then Form.marked else .halved
  emit (.scalar (String.ofList (cs.map fun ch => ch.getD '\ufffd')) form)

/-- A block of lines. -/
def block (fold : Bool) : Scanning Unit := do
  allowKey true
  forgetKey
  let s ← get
  let (cs, c) ← StateT.lift (blockText fold s.indent s.cursor.next)
  goTo c
  emit (.scalar (String.ofList cs) .marked)

/-- May a plain word begin here? -/
def startsPlain (inFlow : Bool) (c : Cursor) : Bool :=
  let ch := c.head
  !(isGap ch || "-?:,[]#&*!|>'\"%@".toList.contains ch || ch == '\x60' ||
      ch == '\x7b' || ch == '\x7d') ||
    (!isGap (c.ahead 1) && (ch == '-' || (!inFlow && (ch == '?' || ch == ':'))))

/-- Reads one token, with the marks of blocks before it; tells whether there
    was one. -/
def step : Scanning Bool := do
  passGaps ((← get).size + 1)
  forgetStaleKeys
  let s ← get
  let c := s.cursor
  unwind c.column
  let inFlow := s.flow != 0
  let indicator := inFlow || isGap (c.ahead 1)
  let ch := c.head
  if ch = beyond then
    leaveBlocks
    return false
  if ch = '%' ∧ c.column = 0 then directive
  else if c.column = 0 ∧ c.isMark then
    documentMark (if ch = '-' then .documentStart else .documentEnd)
  else if ch = '[' then openBracket .openList
  else if ch = '\x7b' then openBracket .openMap
  else if ch = ']' then closeBracket .closeList
  else if ch = '\x7d' then closeBracket .closeMap
  else if ch = ',' then comma
  else if ch = '-' ∧ isGap (c.ahead 1) then item
  else if ch = '?' ∧ indicator then explicitKey
  else if ch = ':' ∧ indicator then value
  else if ch = '*' then name .alias
  else if ch = '&' then name .anchor
  else if ch = '!' then tag
  else if ch = '|' ∧ !inFlow then block false
  else if ch = '>' ∧ !inFlow then block true
  else if ch = '\'' ∨ ch = '"' then quoted ch
  else if startsPlain inFlow c then plain
  else throw .malformed
  return true

/-- Reads all tokens. -/
def all : Nat → Scanning Unit
  | 0        => throw .malformed
  | fuel + 1 => do if ← step then all fuel

end Scanning

/-- The tokens of a text. -/
def tokens (cs : List Char) : Except Fault (List Token) := do
  let cs := if cs.head? = some orderMark then cs.drop 1 else cs
  let size := cs.length
  let (_, s) ← (Scanning.all (size + 2)).run { size, cursor := { rest := cs } }
  pure s.tokens.toList

end Yaml

end Workflow
