import Workflow.Text.Printable

/-! # Quoted — texts and byte strings as they are shown in messages

    A text is shown in single quotes, or in double quotes when it holds a
    single quote and no double one.  The quote, the backslash and every
    character that is not printable are escaped. -/

namespace Workflow

/-- The digits of `n` in base sixteen, padded to a width. -/
def hexDigits (width n : Nat) : List Char :=
  let ds := Nat.toDigits 16 n
  List.replicate (width - ds.length) '0' ++ ds

namespace Quoted

/-- The quote to use around a text. -/
def quoteFor (cs : List Char) : Char :=
  if cs.contains '\'' && !cs.contains '"' then '"' else '\''

/-- The escape of a code point by its size. -/
def escapeCode (n : Nat) : List Char :=
  if n < 256 then '\\' :: 'x' :: hexDigits 2 n
  else if n < 65536 then '\\' :: 'u' :: hexDigits 4 n
  else '\\' :: 'U' :: hexDigits 8 n

/-- One character inside quotes; `plain` says what needs no escape. -/
def escapeChar (quote : Char) (plain : Char → Bool) (c : Char) : List Char :=
  if c = quote ∨ c = '\\' then ['\\', c]
  else if c = '\n' then ['\\', 'n']
  else if c = '\r' then ['\\', 'r']
  else if c = '\t' then ['\\', 't']
  else if plain c then [c]
  else escapeCode c.toNat

/-- Characters in quotes. -/
def chars (plain : Char → Bool) (cs : List Char) : List Char :=
  let quote := quoteFor cs
  quote :: cs.flatMap (escapeChar quote plain) ++ [quote]

end Quoted

/-- A text as shown in messages. -/
def quotedText (s : String) : String :=
  String.ofList (Quoted.chars isPrintable s.toList)

/-- A byte string as shown in messages. -/
def quotedBytes (b : List UInt8) : String :=
  String.ofList ('b' :: Quoted.chars (fun c => 32 ≤ c.toNat && c.toNat < 127)
    (b.map fun x => Char.ofNat x.toNat))

end Workflow
