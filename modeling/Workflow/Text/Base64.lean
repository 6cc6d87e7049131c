/-! # Base64 — bytes written as characters of six bits

    Four characters make three bytes.  A character that stands for no six
    bits is passed over, and padding ends the text once it fills up four. -/

namespace Workflow

namespace Base64

/-- The six bits that a character stands for. -/
def sextet? (c : Char) : Option Nat :=
  if c.isUpper then some (c.toNat - 65)
  else if c.isLower then some (c.toNat - 71)
  else if c.isDigit then some (c.toNat + 4)
  else if c = '+' then some 62
  else if c = '/' then some 63
  else none

/-- The bytes that characters denote.  `held` counts the characters of the
    present four, `left` are their bits that are in no byte yet, and `pads`
    counts the padding since the last of them. -/
def bytesFrom (held left pads : Nat) : List Char → Option (List UInt8)
  | []      => if held = 0 then some [] else none
  | c :: cs =>
    if c = '=' then
      if held < 2 then bytesFrom held left pads cs
      else if 3 ≤ held + pads then some []
      else bytesFrom held left (pads + 1) cs
    else match sextet? c with
      | none   => bytesFrom held left pads cs
      | some v =>
        if held = 0 then bytesFrom 1 v 0 cs
        else
          let byte := UInt8.ofNat (left * 4 ^ held + v / 4 ^ (3 - held))
          (bytesFrom ((held + 1) % 4) (v % 4 ^ (3 - held)) 0 cs).map (byte :: ·)

/-- The bytes that a text denotes. -/
def bytes? (cs : List Char) : Option (List UInt8) := bytesFrom 0 0 0 cs

end Base64

end Workflow
