import Workflow.CommandLine.Catalogue
import Workflow.CommandLine.Command
import Workflow.Recovery.Diagnostics
import Workflow.Text.Terminal
import Workflow.World

/-! # Run — carrying out commands

    A command writes lines and ends with an exit code: 0, or 1 when it
    found something wrong.  A failure that it does not report itself ends
    it too.  Commands work with the default settings. -/

namespace Workflow

/-- What commands work on. -/
structure Console where
  world     : World := {}
  registry  : Registry := {}
  catalogue : Catalogue := {}
  lines     : List String := []

/-- How a command may end early. -/
inductive Stop where
  | exit (code : Nat)
  | escaped (f : Failure)

/-- A command under way. -/
abbrev Run := ExceptT Stop (StateM Console)

namespace Run

variable {α : Type}

/-- Writes several lines. -/
def echoAll (lines : List String) : Run Unit :=
  modify fun c => { c with lines := c.lines ++ lines.map Terminal.plainLine }

/-- Writes a line. -/
def echo (line : String) : Run Unit := echoAll [line]

/-- Ends with exit code 1. -/
def giveUp : Run α := throw (.exit 1)

/-- Writes a line and ends with exit code 1. -/
def refuse (line : String) : Run α := do
  echo line
  giveUp

/-- Carries out an operation, keeping its failure. -/
def attempt (p : Client α) : Run (Except Failure α) := do
  let c ← get
  let (r, w) := p.run c.world
  set { c with world := w }
  pure r

/-- The result of a computation; a failure ends the command. -/
def ofExcept (r : Except Failure α) : Run α :=
  match r with
  | .ok a    => pure a
  | .error f => throw (.escaped f)

/-- Carries out an operation; its failure ends the command. -/
def client (p : Client α) : Run α := do
  ofExcept (← attempt p)

/-- The engine of a command. -/
def engine : Run Engine := do
  let c ← get
  pure { registry := c.registry }

/-- Loads a module. -/
def load (name : String) : Run (Except ImportFailure (List Definition)) := do
  let c ← get
  let (r, catalogue) := c.catalogue.load name
  set { c with catalogue }
  pure r

/-! ## Modules -/

/-- The refusal of a module that is not there. -/
def missingModule (name reason : String) : Run α :=
  refuse s!"Cannot import {name}: {reason}"

/-- Is the very definition registered? -/
def isRegistered (r : Registry) (d : Definition) : Bool :=
  match r.get? d.name with
  | some e => e.serial == d.serial
  | none   => false

/-- Registers the definitions of a module in the place of others of their
    names. -/
def registerAll (name : String) : List Definition → Run Unit
  | []      => pure ()
  | d :: ds => do
    let c ← get
    if !isRegistered c.registry d then
      match c.registry.register d true with
      | .ok registry => set { c with registry }
      | .error f     => refuse s!"Invalid workflow in {name}: {f.text}"
    registerAll name ds

/-- Is the failure one of a definition? -/
def isDefinitionFailure : Failure → Bool
  | .workflow e => e.kind.isDefinition
  | _           => false

/-- Loads modules and registers their definitions. -/
def loadModules : List String → Run Unit
  | []            => pure ()
  | name :: names => do
    match ← load name with
    | .ok ds                => registerAll name ds
    | .error (.missing why) => missingModule name why
    | .error (.broken f)    =>
      if isDefinitionFailure f then
        refuse s!"Invalid workflow in {name}: {f.text}"
      else throw (.escaped f)
    loadModules names

/-! ## Definitions -/

/-- Names in a list, or a word for none. -/
def listed (names : List String) : String :=
  let text := ", ".intercalate names
  if text = "" then "(none)" else text

/-- The lines about one definition. -/
def summaryLines (s : DefinitionSummary) : List String :=
  let steps := ", ".intercalate s.steps
  let safe := ", ".intercalate s.safeSteps
  [s.name ++ "\t" ++ s.initialStep.getD "None" ++ " -> " ++ listed s.finalSteps,
    s!"  Steps: {steps}"] ++
    (if s.safeSteps.isEmpty then [] else [s!"  Safe steps: {safe}"])

/-- Lists the registered definitions. -/
def listDefinitions (modules : List String) : Run Unit := do
  loadModules modules
  let c ← get
  if c.registry.definitions.isEmpty then echo "No workflow definitions registered"
  else echoAll (c.registry.summaries.flatMap summaryLines)

/-- The verdict on one definition. -/
def verdictLines (d : Definition) : List String :=
  if d.issues.isEmpty then [s!"{d.name}: OK"]
  else s!"{d.name}: {d.issues.length} issue(s)" :: d.issues.map fun i => s!"  - {i}"

/-- Checks the definitions of modules; tells whether all are in order. -/
def validateModules : List String → Run Bool
  | []            => pure true
  | name :: names => do
    let sound ← match ← load name with
      | .error (.missing why) => missingModule name why
      | .error (.broken f)    =>
        if isDefinitionFailure f then
          echo s!"{name}: {f.text}"
          pure false
        else throw (.escaped f)
      | .ok []                =>
        echo s!"{name}: no workflow definitions found"
        pure true
      | .ok ds                =>
        echoAll (ds.flatMap verdictLines)
        pure (ds.all (·.issues.isEmpty))
    let rest ← validateModules names
    pure (sound && rest)

/-- Checks the definitions of modules. -/
def validateDefinitions (modules : List String) : Run Unit := do
  if !(← validateModules modules) then giveUp

/-! ## Executions -/

/-- The execution with an id. -/
def requireExecution (id : String) : Run Execution := do
  match ← client (Client.load (.str id)) with
  | some e => pure e
  | none   => refuse "Execution not found"

/-- The line of an execution in a list. -/
def executionLine (e : Execution) : String :=
  "\t".intercalate [e.id, e.workflowName.display, e.currentStep.display, e.status.text]

/-- Lists executions; a blank status is none. -/
def listExecutions (workflow status : Option String) : Run Unit := do
  let status := status.filter (· ≠ "")
  match status with
  | some s => if (Status.ofText? s).isNone then refuse s!"Unknown status: {s}"
  | none   => pure ()
  let es ← client (Client.list
    { workflow := workflow.map .str, status := status.map .str })
  if es.isEmpty then echo "No executions found" else echoAll (es.map executionLine)

/-- Shows one execution. -/
def showExecution (id : String) (modules : List String) : Run Unit := do
  loadModules modules
  let g ← engine
  let e ← requireExecution id
  echo s!"Execution {e.id}: {e.workflowName.display} at {e.currentStep.display} ({e.status.text})"
  echo s!"Subject: {e.subject.label}"
  match e.assignedActor with
  | some a => echo s!"Assigned to: {a.label}"
  | none   => pure ()
  let context ← ofExcept e.publicContext
  if !context.isEmpty then
    match Json.writeLenient (.dict context) with
    | .ok text => echo s!"Context: {text}"
    | .error r => throw (.escaped (.unwritable r))
  let d ← ofExcept (g.definitionFor e)
  if d.isSome then
    echo s!"Available actions: {listed (e.openActions d)}"

/-- The line of a transition. -/
def transitionLine (r : TransitionRecord) : String :=
  let actor := match r.actor with
    | some a => s!" by {a.label}"
    | none   => ""
  s!"{r.timestamp.isoText}  {r.fromStep} -> {r.toStep} [{r.action}]{actor}"

/-- Shows the history of an execution, the oldest transition first. -/
def showHistory (id : String) : Run Unit := do
  let e ← requireExecution id
  if e.history.isEmpty then echo "No transitions recorded"
  else echoAll (e.history.map transitionLine)

/-! ## Recovery -/

/-- Checks an execution's integrity. -/
def checkIntegrity (id : String) (modules : List String) : Run Unit := do
  loadModules modules
  let g ← engine
  let e ← requireExecution id
  let r ← ofExcept (g.integrity e)
  if r.isValid then echo "Integrity OK"
  else
    echo s!"{r.issues.length} issue(s), severity {r.severity.text}"
    echoAll (r.issues.map fun i => s!"  - {i}")
    echoAll (r.recommendations.map fun a => s!"  * {a}")
    giveUp

/-- The line of a listed checkpoint. -/
def checkpointLine (v : Value) : String :=
  let m := Definition.asMapping v
  "\t".intercalate (["id", "step", "age", "label"].map fun k =>
    ((Mapping.field? m k).bind Value.toText?).getD "")

/-- Lists the checkpoints of an execution. -/
def listCheckpoints (id : String) : Run Unit := do
  let e ← requireExecution id
  let cs ← client (Client.draft (Checkpoint.listing e))
  if cs.isEmpty then echo "No checkpoints found" else echoAll (cs.map checkpointLine)

/-- Writes the diagnostics of an execution. -/
def exportDiagnostics (id format : String) (modules : List String) : Run Unit := do
  if format ≠ "json" ∧ format ≠ "yaml" then refuse s!"Unsupported format: {format}"
  loadModules modules
  let g ← engine
  let e ← requireExecution id
  let v ← client (Client.draft (g.diagnostics e format))
  echo v.display

/-- Repairs an execution. -/
def repairExecution (id : String) (modules : List String) : Run Unit := do
  loadModules modules
  let g ← engine
  let e ← requireExecution id
  match ← attempt (g.autoRepair (.snapshot e)) with
  | .error (.workflow f) => refuse s!"Repair failed: {f.message}"
  | .error f             => throw (.escaped f)
  | .ok r                =>
    if r.repairs.isEmpty then echo "Nothing to repair"
    echoAll r.repairs
    echoAll (r.remaining.map fun i => s!"Remaining issue: {i}")

end Run

/-- Carries out a command. -/
def Command.run : Command → Run Unit
  | .listDefinitions modules             => Run.listDefinitions modules
  | .validateDefinitions modules         => Run.validateDefinitions modules
  | .listExecutions workflow status      => Run.listExecutions workflow status
  | .showExecution id modules            => Run.showExecution id modules
  | .showHistory id                      => Run.showHistory id
  | .checkIntegrity id modules           => Run.checkIntegrity id modules
  | .listCheckpoints id                  => Run.listCheckpoints id
  | .exportDiagnostics id format modules => Run.exportDiagnostics id format modules
  | .repairExecution id modules          => Run.repairExecution id modules

/-- What a command line came to: an exit code, and for all but a wrong use
    the lines written and the failure that ended the command. -/
inductive Outcome where
  | misused
  | finished (exitCode : Nat) (lines : List String) (failure : Option Failure)

/-- The exit code of an outcome. -/
def Outcome.exitCode : Outcome → Nat
  | .misused           => 2
  | .finished code _ _ => code

/-- The failure that ended the command. -/
def Outcome.failure? : Outcome → Option Failure
  | .misused        => none
  | .finished _ _ f => f

/-- The text written, if the command line was no wrong use. -/
def Outcome.output? : Outcome → Option String
  | .misused            => none
  | .finished _ lines _ =>
    some (String.ofList (Terminal.plainEnds (lines.flatMap fun l => l.toList ++ ['\n'])))

/-- Carries out what arguments ask for. -/
def Console.execute (c : Console) (args : List String) : Outcome × Console :=
  match Command.ofArguments? args with
  | none         => (.misused, c)
  | some command =>
    let (r, c) := (Command.run command).run { c with lines := [] }
    match r with
    | .ok _               => (.finished 0 c.lines none, c)
    | .error (.exit code) => (.finished code c.lines none, c)
    | .error (.escaped f) => (.finished 1 c.lines (some f), c)

end Workflow
