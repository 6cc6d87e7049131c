import Workflow.Failure
import Workflow.Graph
import Workflow.Guard

/-! # Definition — the step graph of a workflow type

    A definition is declared once and shared by all executions of its type.
    Steps keep their declaration order: the first is the initial step, and a
    step without actions is final. -/

namespace Workflow

/-- A named transition, open when its guard holds. -/
structure ActionDefinition where
  name         : String
  target       : String
  guard        : Option Guard
  description  : Option String
  confirmation : Bool

/-- A named state with its outgoing actions and entry conditions. -/
structure StepDefinition where
  name         : String
  description  : Option String := none
  requirements : List String := []
  actions      : List ActionDefinition := []
  conditions   : List Condition := []
  safe         : Bool := false

/-- A context key that every execution must carry, with the value that
    repair fills in. -/
structure ContextRequirement where
  key     : String
  default : Value

/-- The step graph of a workflow type.  `serial` tells one declared
    definition from another, whatever they hold. -/
structure Definition where
  serial       : Nat
  name         : String
  description  : Option String := none
  steps        : List StepDefinition := []
  requirements : List ContextRequirement := []

/-- Overview of a definition. -/
structure DefinitionSummary where
  name        : String
  description : Option String
  steps       : List String
  initialStep : Option String
  finalSteps  : List String
  safeSteps   : List String

namespace ActionDefinition

/-- Is the action open, and how does its guard leave the context? -/
def check (a : ActionDefinition) (context : Value) : Bool × Value :=
  match a.guard with
  | none   => (true, context)
  | some g => let r := g context; (r.1.getD false, r.2)

/-- Is the action open for a context? -/
def isAvailable (a : ActionDefinition) (context : Value) : Bool :=
  (a.check context).1

end ActionDefinition

namespace StepDefinition

/-- The names of the actions, in order. -/
def actionNames (s : StepDefinition) : List String := s.actions.map (·.name)

/-- A step without actions is final. -/
def isTerminal (s : StepDefinition) : Bool := s.actions.isEmpty

/-- The first action with a name. -/
def findAction? (s : StepDefinition) (name : String) : Option ActionDefinition :=
  s.actions.find? fun a => a.name == name

/-- The error of an action that the step does not define. -/
def missingAction (s : StepDefinition) (name : Value) : Failure :=
  .plain .invalidAction s!"Action '{name.display}' is not defined on step '{s.name}'"
    [textDetail "step" s.name, (.str "action", name)]

/-- The action with a name, or an error. -/
def requireAction (s : StepDefinition) (name : Value) :
    Except Failure ActionDefinition :=
  match name.toText?.bind s.findAction? with
  | some a => .ok a
  | none   => .error (s.missingAction name)

/-- Do all entry conditions hold? -/
def satisfiesConditions (s : StepDefinition) (context : Value) : Bool :=
  s.conditions.all fun c => c.holds context

/-- Must the named action be confirmed? -/
def needsConfirmation (s : StepDefinition) (action : String) : Bool :=
  ((s.findAction? action).map (·.confirmation)).getD false

/-- The names of the open actions, in order.  Each guard sees the context as
    the earlier ones left it. -/
def openActions (actions : List ActionDefinition) (context : Value) :
    List String :=
  match actions with
  | []      => []
  | a :: as =>
    let (holds, context) := a.check context
    let rest := openActions as context
    if holds then a.name :: rest else rest

end StepDefinition

namespace Definition

/-- The names of the steps, in order. -/
def stepNames (d : Definition) : List String := d.steps.map (·.name)

/-- The first step. -/
def initialStep? (d : Definition) : Option String := d.steps.head?.map (·.name)

/-- The steps without actions. -/
def finalSteps (d : Definition) : List String :=
  (d.steps.filter (·.isTerminal)).map (·.name)

/-- The steps marked as rollback points. -/
def safeSteps (d : Definition) : List String :=
  (d.steps.filter (·.safe)).map (·.name)

/-- The required context keys, in order. -/
def requiredKeys (d : Definition) : List String := d.requirements.map (·.key)

/-- The first step with a name. -/
def findStep? (d : Definition) (name : String) : Option StepDefinition :=
  d.steps.find? fun s => s.name == name

/-- Is the step declared? -/
def hasStep (d : Definition) (name : String) : Bool := (d.findStep? name).isSome

/-- The step that a value names; only a text names one. -/
def named? (d : Definition) (name : Value) : Option StepDefinition :=
  name.toText?.bind d.findStep?

/-- The error of a step that the workflow does not define. -/
def missingStep (d : Definition) (name : Value) : Failure :=
  .plain .invalidStep s!"Step '{name.display}' is not defined in workflow '{d.name}'"
    [textDetail "workflow" d.name, (.str "step", name)]

/-- The step that a value names, or an error. -/
def requireStep (d : Definition) (name : Value) : Except Failure StepDefinition :=
  match d.named? name with
  | some s => .ok s
  | none   => .error (d.missingStep name)

/-- Is the step declared and final? -/
def isFinalStep (d : Definition) (name : String) : Bool :=
  ((d.findStep? name).map (·.isTerminal)).getD false

/-- Does the action lead from one step to the other? -/
def canTransition (d : Definition) (source action target : String) : Bool :=
  match (d.findStep? source).bind (·.findAction? action) with
  | some a => a.target == target
  | none   => false

/-- The value that repair fills in for a key; null when none is declared. -/
def defaultFor (d : Definition) (key : String) : Value :=
  ((d.requirements.find? fun r => r.key == key).map (·.default)).getD .null

/-- Overview of the definition. -/
def summary (d : Definition) : DefinitionSummary :=
  { name        := d.name
    description := d.description
    steps       := d.stepNames
    initialStep := d.initialStep?
    finalSteps  := d.finalSteps
    safeSteps   := d.safeSteps }

/-- The steps and the targets of their actions. -/
def graph (d : Definition) : Graph :=
  d.steps.map fun s => (s.name, s.actions.map (·.target))

/-! ## Checks -/

/-- The declared steps that no path of actions leads to from the first, in
    order. -/
def unreachableSteps (d : Definition) : List String :=
  match d.initialStep? with
  | none   => []
  | some s =>
    let seen := d.graph.reachableFrom s
    d.stepNames.filter fun n => !seen.contains n

/-- The problems of one step: actions whose target is not declared. -/
def danglingIssues (d : Definition) (s : StepDefinition) : List String :=
  (s.actions.filter fun a => !d.stepNames.contains a.target).map fun a =>
    s!"Step '{s.name}' action '{a.name}' targets undefined step '{a.target}'"

/-- Every problem of a definition; none means valid. -/
def issues (d : Definition) : List String :=
  if d.steps.isEmpty then ["Workflow must define at least one step"]
  else d.steps.flatMap d.danglingIssues ++
    d.unreachableSteps.map fun n => s!"Step '{n}' is unreachable"

end Definition

/-! ## Checks of executions against definitions -/

/-- The problems of an execution's current step. -/
def executionIssues (d : Option Definition) (e : Execution) : List String :=
  match d with
  | none   => [s!"Workflow definition '{e.workflowName.display}' not found"]
  | some d =>
    if !e.currentStep.truthy then ["Current step cannot be empty"]
    else if (d.named? e.currentStep).isSome then []
    else [s!"Current step '{e.currentStep.display}' is not defined in workflow"]

/-- Everything that forbids an action, which may be named by any value, given
    whether it is open. -/
def transitionIssues (d : Definition) (e : Execution) (action : Value)
    (isOpen : Bool) : List String :=
  let status := if e.status = .active then []
    else [s!"Workflow execution is {e.status.text}"]
  let closed := if isOpen then []
    else [s!"Action '{action.display}' is not available from step '{e.currentStep.display}'"]
  let unmet := match d.named? e.currentStep with
    | none   => []
    | some s => if s.satisfiesConditions e.context then []
        else [s!"Step conditions not satisfied for '{e.currentStep.display}'"]
  status ++ closed ++ unmet

end Workflow
