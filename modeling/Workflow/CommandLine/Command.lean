import Workflow.CommandLine.Arguments

/-! # Command — what a command line asks for

    Commands come in three groups: about definitions, about executions and
    about recovery.  A command line that names no command, or not with the
    operands and options it takes, asks for nothing. -/

namespace Workflow

/-- A command; `modules` are to be loaded first. -/
inductive Command where
  | listDefinitions (modules : List String)
  | validateDefinitions (modules : List String)
  | listExecutions (workflow status : Option String)
  | showExecution (id : String) (modules : List String)
  | showHistory (id : String)
  | checkIntegrity (id : String) (modules : List String)
  | listCheckpoints (id : String)
  | exportDiagnostics (id format : String) (modules : List String)
  | repairExecution (id : String) (modules : List String)
deriving DecidableEq

namespace Command

/-- The option that names a module; it may be repeated. -/
def moduleOption : OptionSpec := ⟨"module", some 'm'⟩

/-- The modules that options name. -/
def modulesOf (a : Arguments) : List String := a.values moduleOption.name

/-- Arguments without operands. -/
def withoutOperands (specs : List OptionSpec) (args : List String) :
    Option Arguments := do
  let a ← Arguments.parse specs args
  if a.operands.isEmpty then some a else none

/-- Arguments with one operand. -/
def withOperand (specs : List OptionSpec) (args : List String) :
    Option (String × Arguments) := do
  let a ← Arguments.parse specs args
  match a.operands with
  | [id] => some (id, a)
  | _    => none

/-- Drops two dashes in front of the name of a group or a command. -/
def dropDashes : List String → List String
  | "--" :: args => args
  | args         => args

/-- A command about definitions. -/
def ofDefinitionArguments? : List String → Option Command
  | "list" :: args     => do
    let a ← withoutOperands [moduleOption] args
    some (.listDefinitions (modulesOf a))
  | "validate" :: args => do
    let a ← withoutOperands [moduleOption] args
    if (modulesOf a).isEmpty then none else some (.validateDefinitions (modulesOf a))
  | _                  => none

/-- A command about executions. -/
def ofExecutionArguments? : List String → Option Command
  | "list" :: args    => do
    let a ← withoutOperands [⟨"workflow", none⟩, ⟨"status", none⟩] args
    some (.listExecutions (a.value? "workflow") (a.value? "status"))
  | "show" :: args    => do
    let (id, a) ← withOperand [moduleOption] args
    some (.showExecution id (modulesOf a))
  | "history" :: args => do
    let (id, _) ← withOperand [] args
    some (.showHistory id)
  | _                 => none

/-- A command about recovery. -/
def ofRecoveryArguments? : List String → Option Command
  | "integrity" :: args   => do
    let (id, a) ← withOperand [moduleOption] args
    some (.checkIntegrity id (modulesOf a))
  | "checkpoints" :: args => do
    let (id, _) ← withOperand [] args
    some (.listCheckpoints id)
  | "diagnostics" :: args => do
    let (id, a) ← withOperand [⟨"format", none⟩, moduleOption] args
    some (.exportDiagnostics id ((a.value? "format").getD "json") (modulesOf a))
  | "repair" :: args      => do
    let (id, a) ← withOperand [moduleOption] args
    some (.repairExecution id (modulesOf a))
  | _                     => none

/-- The command that arguments ask for. -/
def ofArguments? (args : List String) : Option Command :=
  match dropDashes args with
  | "definition" :: rest => ofDefinitionArguments? (dropDashes rest)
  | "execution" :: rest  => ofExecutionArguments? (dropDashes rest)
  | "recovery" :: rest   => ofRecoveryArguments? (dropDashes rest)
  | _                    => none

/-- The modules that a command loads. -/
def modules : Command → List String
  | .listDefinitions modules        => modules
  | .validateDefinitions modules    => modules
  | .showExecution _ modules        => modules
  | .checkIntegrity _ modules       => modules
  | .exportDiagnostics _ _ modules  => modules
  | .repairExecution _ modules      => modules
  | .listExecutions _ _             => []
  | .showHistory _                  => []
  | .listCheckpoints _              => []

end Command

end Workflow
