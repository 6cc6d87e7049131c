import Workflow.CommandLine.Run
import Workflow.Json.Reader
import Workflow.Store.Location

/-! # Main — the program

    The program carries out one command line on the store in memory.  A
    module is a file in the working directory that holds a JSON map: its
    variables by name, of which some are definitions. -/

namespace Workflow

/-- The text of a file, if it can be read. -/
def fileText? (path : String) : IO (Option String) := do
  try
    return some (← IO.FS.readFile path)
  catch _ =>
    return none

/-- The variables of a module given as a JSON text. -/
def moduleValues (text : String) : List Value :=
  match Json.read? text with
  | some (.dict m) => m.map Prod.snd
  | _              => []

/-- The modules among those named that are there. -/
def findModules : List String → IO (List (String × List Value))
  | []            => pure []
  | name :: names => do
    let rest ← findModules names
    match ← fileText? s!"{name}.json" with
    | some text => pure ((name, moduleValues text) :: rest)
    | none      => pure rest

/-- The variables of the environment that the program heeds. -/
def heededVariables : List String :=
  ["STEPFLOW_CONFIG", "STEPFLOW_DATABASE_URL", "DATABASE_URL", "STEPFLOW_LOG_LEVEL"]

/-- The values of the variables that are set. -/
def setVariables : List String → IO (List (String × String))
  | []            => pure []
  | name :: names => do
    let rest ← setVariables names
    match ← IO.getEnv name with
    | some value => pure ((name, value) :: rest)
    | none       => pure rest

/-- The surroundings of the program. -/
def findHost : IO Host := do
  let environment ← setVariables heededVariables
  let path := Host.settingsPath { environment } none
  let text ← fileText? path
  return { environment, files := fun p => if p = path then text else none }

/-- Carries out a command line, writes its lines and answers with its exit
    code. -/
def runCommandLine (args : List String) : IO UInt32 := do
  match StoreCache.get {} (← findHost) none none with
  | .error f   =>
    IO.eprintln f.text
    return 1
  | .ok (s, _) =>
    if s.location ≠ .memory then
      IO.eprintln "Only the store in memory can be reached from here"
      return 1
    let names := ((Command.ofArguments? args).map (·.modules)).getD []
    let sources ← findModules (names.map fun n => (Catalogue.parts n).1)
    match (Console.execute { catalogue := { sources } } args).1 with
    | .misused                     =>
      IO.eprintln "Usage: definition|execution|recovery COMMAND [OPTIONS]"
      return 2
    | outcome                      =>
      IO.print (outcome.output?.getD "")
      match outcome.failure? with
      | some f => IO.eprintln f.text
      | none   => pure ()
      return outcome.exitCode.toUInt32

end Workflow

/-- Runs the program. -/
def main (args : List String) : IO UInt32 := Workflow.runCommandLine args
