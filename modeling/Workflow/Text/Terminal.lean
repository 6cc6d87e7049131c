/-! # Terminal — texts as a program prints them

    A sequence that sets how a terminal shows text is an escape character, a
    bracket, digits and marks, and a letter.  What is not meant for a
    terminal is printed without such sequences, and its lines end with a
    line feed alone. -/

namespace Workflow

namespace Terminal

/-- Does the character stand between the bracket and the letter? -/
def isParameter (c : Char) : Bool := c.isDigit || c == ';' || c == '?'

/-- Length of what follows the escape character of a sequence, if the
    characters in front are that. -/
def sequenceLength? : List Char → Option Nat
  | '[' :: cs =>
    let parameters := cs.takeWhile isParameter
    match cs.drop parameters.length with
    | c :: _ => if c.isAlpha then some (parameters.length + 2) else none
    | []     => none
  | _ => none

/-- The characters without the sequences. -/
def dropSequences : List Char → List Char
  | []      => []
  | c :: cs =>
    if c = '\x1b' then
      match sequenceLength? cs with
      | some n => dropSequences (cs.drop n)
      | none   => c :: dropSequences cs
    else c :: dropSequences cs
termination_by cs => cs.length

/-- The characters with a line feed alone at the end of each line. -/
def plainEnds : List Char → List Char
  | '\r' :: '\n' :: cs => '\n' :: plainEnds cs
  | c :: cs            => c :: plainEnds cs
  | []                 => []

/-- A line as it is printed. -/
def plainLine (s : String) : String := String.ofList (dropSequences s.toList)

end Terminal

end Workflow
