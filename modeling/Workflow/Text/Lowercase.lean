/-! # Lowercase — lower case for comparing with English words

    The words looked for are ASCII, so besides the ASCII capitals only the
    two characters matter whose lower case holds an ASCII letter. -/

namespace Workflow

/-- The lower case of a character, as far as ASCII letters come of it. -/
def lowerChar (c : Char) : List Char :=
  if c = '\u212A' then ['k']
  else if c = '\u0130' then ['i', '\u0307']
  else [c.toLower]

/-- A text in lower case. -/
def lowerChars (s : String) : List Char := s.toList.flatMap lowerChar

end Workflow
