/-! # Blank — the characters between words

    White space is what Unicode calls so.  The four separators of ASCII part
    words too. -/

namespace Workflow

/-- Is the character white space? -/
def isWhite (c : Char) : Bool :=
  let n := c.toNat
  (9 ≤ n && n ≤ 13) || n == 32 || n == 0x85 || n == 0xA0 || n == 0x1680 ||
    (0x2000 ≤ n && n ≤ 0x200A) || n == 0x2028 || n == 0x2029 || n == 0x202F ||
    n == 0x205F || n == 0x3000

/-- Does the character part words? -/
def partsWords (c : Char) : Bool := isWhite c || (28 ≤ c.toNat && c.toNat ≤ 31)

/-- Characters without those that satisfy `p` at both ends. -/
def trimBoth (p : Char → Bool) (cs : List Char) : List Char :=
  ((cs.dropWhile p).reverse.dropWhile p).reverse

/-- The last word of a text. -/
def lastWord? (s : String) : Option String :=
  let cs := s.toList.reverse.dropWhile partsWords
  if cs = [] then none
  else some (String.ofList (cs.takeWhile fun c => !partsWords c).reverse)

end Workflow
