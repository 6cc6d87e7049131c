import Workflow.Yaml.Cursor

/-! # Word — the texts of scalars

    A scalar is written as a plain word, in quotes, or as a block of lines.
    A line break inside of one is folded: a single one becomes a blank,
    further ones stay. -/

namespace Workflow

namespace Yaml

/-- How a scalar is written: as a plain word, as a marked text, or as one
    that holds half of a character and therefore is no text. -/
inductive Form where
  | plain
  | marked
  | halved
deriving DecidableEq

/-- A line break and the ones after it, folded. -/
def folded (first : Char) (more : List Char) : List Char :=
  (if first ≠ '\n' then [first] else if more = [] then [' '] else []) ++ more

/-! ## Plain words -/

/-- Blanks and line breaks between the lines of a plain word: the breaks, or
    none where a mark between documents ends the word. -/
def plainBreaks : Nat → Cursor → Option (List Char) × Cursor
  | 0,        c => (none, c)
  | fuel + 1, c =>
    let c := c.skipWhile (· == ' ')
    match c.lineBreak? with
    | none        => (some [], c)
    | some (b, c) =>
      if c.isMark then (none, c)
      else
        let (bs, c) := plainBreaks fuel c
        (bs.map (b :: ·), c)

/-- What parts the pieces of a plain word, the place behind it, and whether
    a line ended. -/
def plainGap (c : Cursor) : List Char × Cursor × Bool :=
  let (blanks, c) := c.span (· == ' ')
  match c.lineBreak? with
  | none        => (blanks, c, false)
  | some (b, c) =>
    if c.isMark then ([], c, true)
    else match plainBreaks (c.rest.length + 1) c with
      | (none, c)    => ([], c, true)
      | (some bs, c) => (folded b bs, c, true)

/-- Is it a bracket or a comma, which ends a plain word inside brackets? -/
def isFlowMark (c : Char) : Bool :=
  c == ',' || c == '[' || c == ']' || c == '\x7b' || c == '\x7d'

/-- A piece of a plain word: up to a gap, a colon that marks a value, or
    inside brackets one of their marks. -/
def plainPiece (inFlow : Bool) : List Char → List Char
  | []      => []
  | c :: cs =>
    let follower := cs.headD beyond
    if isGap c then []
    else if c = ':' ∧ (isGap follower ∨ (inFlow ∧ isFlowMark follower)) then []
    else if inFlow ∧ (isFlowMark c ∨ c = '?') then []
    else c :: plainPiece inFlow cs

/-- A plain word, the place behind it, and whether a line ended after its
    last piece.  `gap` is what parts it from the piece before; `indent` is
    the least column of its further lines. -/
def plainWord (inFlow : Bool) (indent : Int) :
    Nat → List Char → Cursor → List Char × Cursor × Bool
  | 0,        _,   c => ([], c, false)
  | fuel + 1, gap, c =>
    let piece := plainPiece inFlow c.rest
    let (spaces, after, ended) := plainGap (c.skip piece.length)
    let head := after.head
    if spaces = [] ∨ head = '#' ∨ (!inFlow ∧ (after.column : Int) < indent) ∨
        plainPiece inFlow after.rest = [] then
      (gap ++ piece, after, ended)
    else
      let (more, after, ended) := plainWord inFlow indent fuel spaces after
      (gap ++ piece ++ more, after, ended)

/-! ## Quoted texts -/

/-- The escapes of one letter between double quotes. -/
def escapes : List (Char × Char) :=
  [('0', '\x00'), ('a', '\x07'), ('b', '\x08'), ('t', '\t'), ('\t', '\t'),
   ('n', '\n'), ('v', '\x0b'), ('f', '\x0c'), ('r', '\r'), ('e', '\x1b'),
   (' ', ' '), ('"', '"'), ('\\', '\\'), ('/', '/'), ('N', '\x85'),
   ('_', '\xa0'), ('L', '\u2028'), ('P', '\u2029')]

/-- The number of hexadecimal digits after a letter of an escape. -/
def escapeWidth (c : Char) : Option Nat :=
  if c = 'x' then some 2 else if c = 'u' then some 4
  else if c = 'U' then some 8 else none

/-- The number that a count of hexadecimal digits in front denotes. -/
def hexNumber? (count : Nat) (cs : List Char) : Option Nat :=
  let ds := cs.take count
  if ds.length = count then
    ds.foldlM (fun n c => (hexValue? c).map (16 * n + ·)) 0
  else none

/-- The character of an escape with a number; there is none for half of a
    character that is written as two. -/
def numbered (code : Nat) : Except Fault (Option Char) :=
  if 0xD800 ≤ code ∧ code ≤ 0xDFFF then .ok none
  else if code ≤ 0x10FFFF then .ok (some (Char.ofNat code))
  else if code < 2 ^ 31 then .error .noValue
  else .error .tooLarge

/-- The line breaks of a quoted text, with blanks around them. -/
def quotedBreaks : Nat → Cursor → Except Fault (List Char × Cursor)
  | 0,        _ => .error .malformed
  | fuel + 1, c =>
    if c.isMark then .error .malformed
    else
      let c := c.skipWhile fun ch => ch == ' ' || ch == '\t'
      match c.lineBreak? with
      | none        => .ok ([], c)
      | some (b, c) => do
        let (bs, c) ← quotedBreaks fuel c
        pure (b :: bs, c)

/-- What an escape stands for, behind its backslash. -/
def escape (c : Cursor) : Except Fault (List (Option Char) × Cursor) :=
  match escapes.find? fun e => e.1 == c.head, escapeWidth c.head with
  | some e, _          => .ok ([some e.2], c.next)
  | none,   some width =>
    match hexNumber? width c.next.rest with
    | none      => .error .malformed
    | some code => do
      let ch ← numbered code
      pure ([ch], c.next.skip width)
  | none,   none       =>
    if isBreak c.head then do
      let (bs, c) ← quotedBreaks (c.rest.length + 1) c.skipBreak
      pure (bs.map some, c)
    else .error .malformed

/-- A gap inside a quoted text. -/
def quotedGap (c : Cursor) : Except Fault (List Char × Cursor) :=
  let (blanks, c) := c.span fun ch => ch == ' ' || ch == '\t'
  if c.head = beyond then .error .malformed
  else match c.lineBreak? with
    | none        => .ok (blanks, c)
    | some (b, c) => do
      let (bs, c) ← quotedBreaks (c.rest.length + 1) c
      pure (folded b bs, c)

/-- Does the character stand for itself between both kinds of quotes? -/
def isQuotable (c : Char) : Bool :=
  !(c == '\'' || c == '"' || c == '\\' || isGap c)

/-- A quoted text up to its closing quote, and the place behind that. -/
def quotedText (quote : Char) : Nat → Cursor → Except Fault (List (Option Char) × Cursor)
  | 0,        _ => .error .malformed
  | fuel + 1, c => do
    let (direct, c) := c.span isQuotable
    let (part, c) ←
      if c.head = quote then
        if quote = '\'' ∧ c.ahead 1 = quote then pure ([some quote], c.skip 2)
        else return (direct.map some, c.next)
      else if c.head = '\\' ∧ quote = '"' then escape c.next
      else if isGap c.head then do
        let (gap, c) ← quotedGap c
        pure (gap.map some, c)
      else pure ([some c.head], c.next)
    let (more, c) ← quotedText quote fuel c
    pure (direct.map some ++ part ++ more, c)

/-! ## Blocks of lines -/

/-- What becomes of the line breaks at the end of a block. -/
inductive Chomping where
  | clip
  | strip
  | keep
deriving DecidableEq

/-- Reads a sign of chomping. -/
def chompingSign (c : Cursor) : Option Chomping × Cursor :=
  if c.head = '+' then (some .keep, c.next)
  else if c.head = '-' then (some .strip, c.next)
  else (none, c)

/-- Reads an indentation given as a digit, which must not be zero. -/
def indentDigit (c : Cursor) : Except Fault (Option Nat × Cursor) :=
  if c.head.isDigit then
    if c.head = '0' then .error .malformed
    else .ok (some (c.head.toNat - 48), c.next)
  else .ok (none, c)

/-- The signs of a block, in either order. -/
def blockSigns (c : Cursor) : Except Fault (Chomping × Option Nat × Cursor) := do
  let (sign, c) := chompingSign c
  let (digit, c) ← indentDigit c
  let (sign, c) := match sign with
    | some s => (some s, c)
    | none   => if digit.isSome then chompingSign c else (none, c)
  if c.head = ' ' ∨ isLineEnd c.head then pure (sign.getD .clip, digit, c)
  else throw .malformed

/-- The line breaks before a block, and the greatest indentation among
    them. -/
def leadingBreaks : Nat → Nat → Cursor → List Char × Nat × Cursor
  | 0,        deepest, c => ([], deepest, c)
  | fuel + 1, deepest, c =>
    let c := c.skipWhile (· == ' ')
    let deepest := max deepest c.column
    match c.lineBreak? with
    | none        => ([], deepest, c)
    | some (b, c) =>
      let (bs, deepest, c) := leadingBreaks fuel deepest c
      (b :: bs, deepest, c)

/-- The place behind the blanks before a column. -/
def skipIndent (indent : Nat) (c : Cursor) : Cursor :=
  c.skip (((c.rest.take (indent - c.column)).takeWhile (· == ' ')).length)

/-- The line breaks between the lines of a block. -/
def blockBreaks (indent : Nat) : Nat → Cursor → List Char × Cursor
  | 0,        c => ([], c)
  | fuel + 1, c =>
    let c := skipIndent indent c
    match c.lineBreak? with
    | none        => ([], c)
    | some (b, c) =>
      let (bs, c) := blockBreaks indent fuel c
      (b :: bs, c)

/-- Does a line of a block begin with a blank? -/
def startsBlank (c : Cursor) : Bool := c.head == ' ' || c.head == '\t'

/-- The lines of a block behind the given line breaks. -/
def blockLines (fold : Bool) (chomping : Chomping) (indent : Nat) :
    Nat → List Char → Cursor → List Char × Cursor
  | 0,        _,      c => ([], c)
  | fuel + 1, breaks, c =>
    let (line, after) := c.span fun ch => !isBreak ch
    let ending := (after.lineBreak?.map fun b => [b.1]).getD []
    let (more, next) := blockBreaks indent (after.rest.length + 1) after.skipBreak
    if next.column = indent ∧ next.head ≠ beyond then
      let joint :=
        if fold ∧ ending = ['\n'] ∧ !startsBlank c ∧ !startsBlank next then
          if more = [] then [' '] else []
        else ending
      let (rest, last) := blockLines fold chomping indent fuel more next
      (breaks ++ line ++ joint ++ rest, last)
    else
      (breaks ++ line ++ (if chomping = .strip then [] else ending) ++
        (if chomping = .keep then more else []), next)

/-- A block of lines behind its mark; `outer` is the indentation around
    it. -/
def blockText (fold : Bool) (outer : Int) (c : Cursor) :
    Except Fault (List Char × Cursor) := do
  let (chomping, digit, c) ← blockSigns c
  let c ← c.finishLine
  let least := max (outer + 1).toNat 1
  let fuel := c.rest.length + 1
  let (breaks, indent, c) := match digit with
    | some d =>
      let indent := least + d - 1
      let (breaks, c) := blockBreaks indent fuel c
      (breaks, indent, c)
    | none   =>
      let (breaks, deepest, c) := leadingBreaks fuel 0 c
      (breaks, max least deepest, c)
  if c.column = indent ∧ c.head ≠ beyond then
    pure (blockLines fold chomping indent fuel breaks c)
  else pure (if chomping = .keep then breaks else [], c)

end Yaml

end Workflow
