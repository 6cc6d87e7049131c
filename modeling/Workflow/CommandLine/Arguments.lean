/-! # Arguments — options and operands on a command line

    An option has a long name and perhaps a letter.  Its value follows as
    the next argument, after an equals sign, or right behind the letter.
    Options and operands may stand in any order; after two dashes there are
    only operands. -/

namespace Workflow

/-- An option that a command takes; each one takes a value. -/
structure OptionSpec where
  name   : String
  letter : Option Char := none
deriving DecidableEq

/-- What one argument is. -/
inductive Token where
  | operand (text : String)
  | option (name : String)
  | assigned (name value : String)
  | unknown
deriving DecidableEq

/-- Arguments taken apart: options with their values, and operands. -/
structure Arguments where
  options  : List (String × String) := []
  operands : List String := []
deriving DecidableEq

namespace Token

/-- The token of an argument with two dashes. -/
def ofLong (specs : List OptionSpec) (cs : List Char) : Token :=
  let name := String.ofList (cs.takeWhile (· != '='))
  if specs.any fun s => s.name == name then
    match cs.dropWhile (· != '=') with
    | []         => .option name
    | _ :: value => .assigned name (String.ofList value)
  else .unknown

/-- The token of an argument with one dash, a letter and what follows. -/
def ofLetter (specs : List OptionSpec) (c : Char) (cs : List Char) : Token :=
  match specs.find? fun s => s.letter == some c with
  | none   => .unknown
  | some s => if cs = [] then .option s.name else .assigned s.name (String.ofList cs)

/-- The token of an argument. -/
def ofText (specs : List OptionSpec) (arg : String) : Token :=
  match arg.toList with
  | '-' :: '-' :: cs => ofLong specs cs
  | '-' :: c :: cs   => ofLetter specs c cs
  | _                => .operand arg

end Token

namespace Arguments

/-- Puts an option in front. -/
def withOption (a : Arguments) (name value : String) : Arguments :=
  { a with options := (name, value) :: a.options }

/-- Puts an operand in front. -/
def withOperand (a : Arguments) (text : String) : Arguments :=
  { a with operands := text :: a.operands }

/-- Takes arguments apart, after an option that waits for its value if there
    is one; `none` for an unknown option or a missing value. -/
def parseAfter (specs : List OptionSpec) (waiting : Option String) :
    List String → Option Arguments
  | []          => if waiting.isSome then none else some {}
  | arg :: args =>
    match waiting with
    | some name => (parseAfter specs none args).map (·.withOption name arg)
    | none      =>
      if arg = "--" then some { operands := args }
      else match Token.ofText specs arg with
        | .operand text        => (parseAfter specs none args).map (·.withOperand text)
        | .option name         => parseAfter specs (some name) args
        | .assigned name value =>
          (parseAfter specs none args).map (·.withOption name value)
        | .unknown             => none

/-- Takes the arguments of a command apart. -/
def parse (specs : List OptionSpec) (args : List String) : Option Arguments :=
  parseAfter specs none args

/-- Every value of an option, in order. -/
def values (a : Arguments) (name : String) : List String :=
  (a.options.filter fun o => o.1 == name).map Prod.snd

/-- The last value of an option. -/
def value? (a : Arguments) (name : String) : Option String :=
  (a.values name).getLast?

end Arguments

end Workflow
