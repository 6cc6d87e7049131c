/-! # Encoded — byte strings as texts in UTF-8

    A character takes one to four bytes; the first one tells the ranges of
    those that follow.  A byte string that is no text has a first place
    where no character begins, and a longest run there that might have
    begun one. -/

namespace Workflow

namespace Encoded

/-- The range of most bytes that follow a first one. -/
def usual : Nat × Nat := (0x80, 0xBF)

/-- The ranges of the bytes that follow a first byte, if it is one. -/
def following (b : Nat) : Option (List (Nat × Nat)) :=
  if b < 0x80 then some []
  else if b < 0xC2 then none
  else if b < 0xE0 then some [usual]
  else if b = 0xE0 then some [(0xA0, 0xBF), usual]
  else if b = 0xED then some [(0x80, 0x9F), usual]
  else if b < 0xF0 then some [usual, usual]
  else if b = 0xF0 then some [(0x90, 0xBF), usual, usual]
  else if b < 0xF4 then some [usual, usual, usual]
  else if b = 0xF4 then some [(0x80, 0x8F), usual, usual]
  else none

/-- How many bytes at the front are in their ranges. -/
def fitting : List (Nat × Nat) → List UInt8 → Nat
  | r :: rs, b :: bs =>
    if r.1 ≤ b.toNat ∧ b.toNat ≤ r.2 then fitting rs bs + 1 else 0
  | _,       _       => 0

/-- The first run of bytes that is no character: where it begins and where
    it ends.  `position` counts the bytes before. -/
def fault? (position : Nat) (bytes : List UInt8) : Option (Nat × Nat) :=
  match bytes with
  | []      => none
  | b :: bs =>
    match following b.toNat with
    | none        => some (position, position + 1)
    | some ranges =>
      let n := fitting ranges bs
      if n < ranges.length then some (position, position + 1 + n)
      else fault? (position + 1 + n) (bs.drop n)
termination_by bytes.length

end Encoded

/-- The text that bytes encode. -/
def textOfBytes? (b : List UInt8) : Option String :=
  String.fromUTF8? ⟨b.toArray⟩

end Workflow
