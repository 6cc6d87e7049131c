import Workflow.Binary64.Decimal

/-! # Cursor — a place in a YAML text

    What a text means hangs on lines and columns, so reading moves a cursor
    that counts both.  Five characters end a line; two of them stand for
    themselves when a line break becomes part of a value, the others for a
    line feed. -/

namespace Workflow

namespace Yaml

/-- Why a text denotes no value: it has no structure, a word is no number or
    no time that there is, a number is beyond its range, a word is none of
    those for a Boolean, a time has not the form of one, or a number is
    empty. -/
inductive Fault where
  | malformed
  | noValue
  | tooLarge
  | noWord (word : String)
  | noTime
  | empty
deriving DecidableEq

/-- What stands beyond the end of a text; it is no character of one. -/
def beyond : Char := '\x00'

/-- Does the character end a line? -/
def isBreak (c : Char) : Bool :=
  c == '\n' || c == '\r' || c == '\x85' || c == '\u2028' || c == '\u2029'

/-- Is this the end of a line, or of the text? -/
def isLineEnd (c : Char) : Bool := c == beyond || isBreak c

/-- Does this part words? -/
def isGap (c : Char) : Bool := c == ' ' || c == '\t' || isLineEnd c

/-- May the character occur in a text? -/
def mayOccur (c : Char) : Bool :=
  let n := c.toNat
  n == 9 || n == 10 || n == 13 || (0x20 ≤ n && n ≤ 0x7E) || n == 0x85 ||
    (0xA0 ≤ n && n ≤ 0xFFFD) || 0x10000 ≤ n

/-- Does the character belong to a name? -/
def isNameChar (c : Char) : Bool := c.isAlphanum || c == '-' || c == '_'

/-- The value of a hexadecimal digit. -/
def hexValue? (c : Char) : Option Nat :=
  if c.isDigit then some (c.toNat - 48)
  else if 'a' ≤ c ∧ c ≤ 'f' then some (c.toNat - 87)
  else if 'A' ≤ c ∧ c ≤ 'F' then some (c.toNat - 55)
  else none

/-- The mark of the byte order, which takes up no column. -/
def orderMark : Char := '\ufeff'

/-- A place in a text: what follows it, and how much is before it. -/
structure Cursor where
  rest   : List Char
  index  : Nat := 0
  line   : Nat := 0
  column : Nat := 0

namespace Cursor

/-- The character some places ahead. -/
def ahead (c : Cursor) (places : Nat) : Char := c.rest.getD places beyond

/-- The character that follows. -/
def head (c : Cursor) : Char := c.ahead 0

/-- The place behind the next character. -/
def next (c : Cursor) : Cursor :=
  match c.rest with
  | []         => c
  | ch :: rest =>
    if isBreak ch then ⟨rest, c.index + 1, c.line + 1, 0⟩
    else ⟨rest, c.index + 1, c.line, if ch = orderMark then c.column else c.column + 1⟩

/-- The place behind some characters. -/
def skip (c : Cursor) : Nat → Cursor
  | 0     => c
  | n + 1 => c.next.skip n

/-- The characters in front that satisfy `p`, and the place behind them. -/
def span (p : Char → Bool) (c : Cursor) : List Char × Cursor :=
  let cs := c.rest.takeWhile p
  (cs, c.skip cs.length)

/-- The place behind the characters that satisfy `p`. -/
def skipWhile (p : Char → Bool) (c : Cursor) : Cursor := (c.span p).2

/-- A line break as part of a value, and the place behind it. -/
def lineBreak? (c : Cursor) : Option (Char × Cursor) :=
  if isBreak c.head then
    some (if c.head = '\u2028' ∨ c.head = '\u2029' then c.head else '\n', c.next)
  else none

/-- The place behind a line break, if there is one here. -/
def skipBreak (c : Cursor) : Cursor := ((c.lineBreak?).map Prod.snd).getD c

/-- The place behind a comment, if there is one here. -/
def skipComment (c : Cursor) : Cursor :=
  if c.head = '#' then c.skipWhile (fun ch => !isBreak ch) else c

/-- The place behind blanks, a comment and a line break; nothing else may
    stand on the line. -/
def finishLine (c : Cursor) : Except Fault Cursor :=
  let c := (c.skipWhile (· == ' ')).skipComment
  if isLineEnd c.head then .ok c.skipBreak else .error .malformed

/-- Do three dashes or three dots stand here alone? -/
def isMark (c : Cursor) : Bool :=
  let cs := c.rest.take 3
  (cs == ['-', '-', '-'] || cs == ['.', '.', '.']) && isGap (c.ahead 3)

end Cursor

end Yaml

end Workflow
