import Workflow.Inspection.Report
import Workflow.Value.Place

/-! # Prediction — what an action would come to

    Suggestions list the open actions of a snapshot; a simulation tries one
    action on a copy of the context with test data merged in. -/

namespace Workflow

namespace Engine

/-- An open action, with what performing it would come to. -/
structure Suggestion where
  detail        : ActionDetail
  conditionsMet : Bool
  completes     : Bool

/-- The open actions of a snapshot with their prospects. -/
def suggestions (g : Engine) (e : Execution) : Except Failure (List Suggestion) := do
  let d ← g.definitionFor e
  let met := ((e.stepIn? d).map (·.satisfiesConditions e.context)).getD false
  let completes (target : String) : Bool := (d.map (·.isFinalStep target)).getD false
  pure ((openDetails d e).map fun a => ⟨a, met, completes a.target⟩)

/-- A suggestion as data. -/
def Suggestion.toValue (s : Suggestion) : Value :=
  .record (openActionFields s.detail ++
    [ ("condition_met", .bool s.conditionsMet),
      ("completes_workflow", .bool s.completes) ])

/-- The prediction for an action. -/
structure Simulation where
  action       : String
  target       : String
  wouldSucceed : Bool
  details      : List String
  completes    : Bool
  warnings     : List String

/-- The definition, step and action that a simulation needs, or an error. -/
def simulated (found : Option Definition) (e : Execution) (action : Value) :
    Except Failure (Definition × StepDefinition × ActionDefinition) := do
  match found with
  | none   => .error (.plain .definition
      s!"Workflow definition '{e.workflowName.display}' not found")
  | some d =>
    let s ← d.requireStep e.currentStep
    let a ← s.requireAction action
    pure (d, s, a)

/-- The keys of a map that test data would overwrite with another value, in
    the order of the test data.  There is no answer when a value that leads
    back to itself would be compared without end. -/
def overwritten? (context test : Mapping) : Option (List Value) :=
  test.filterMapM fun t =>
    match context.find? t.1 with
    | none   => some none
    | some v => do
      let same ← Place.same? ⟨v, [.dict context]⟩ ⟨t.2, [.dict test]⟩
      pure (if same then none else some t.1)

/-- The keys of a context that test data would overwrite with another value;
    a context that is no map must hold none of them. -/
def overwritten (context : Value) (test : Mapping) : Except Failure (List Value) :=
  match context with
  | .dict m =>
    match overwritten? m test with
    | some keys => .ok keys
    | none      => .error .endless
  | v       =>
    if test.any fun t => v.holds? t.1 == some true then
      .error (.wrongType s!"a value of type {v.typeName} has no entries")
    else .ok []

/-- Predicts an action on a copy of the context with the test data in it; the
    guard is evaluated first and the conditions see the copy as it leaves it.
    `replaced` are the keys that get another value. -/
def simulate (d : Definition) (s : StepDefinition) (a : ActionDefinition)
    (e : Execution) (merged : Value) (test : Mapping) (replaced : List Value) :
    Simulation :=
  let (guardOk, context) := a.check merged
  let conditionsOk := s.satisfiesConditions context
  let active := decide (e.status = .active)
  let problems := contextProblems false test
  { action       := a.name
    target       := a.target
    wouldSucceed := guardOk && conditionsOk && active && problems.isEmpty
    details      :=
      (if guardOk then [] else ["Action guard is not satisfied"]) ++
      (if conditionsOk then []
        else [s!"Step conditions not satisfied for '{s.name}'"]) ++
      (if active then [] else [s!"Workflow execution is {e.status.text}"]) ++
      problems
    completes    := d.isFinalStep a.target
    warnings     :=
      (replaced.map fun k =>
        s!"Context key '{k.display}' would be overwritten") ++
      (if a.confirmation then ["Action requires confirmation"] else []) }

/-- A simulation as data. -/
def Simulation.toValue (s : Simulation) : Value :=
  .record
    [ ("action", .str s.action), ("target_step", .str s.target),
      ("would_succeed", .bool s.wouldSucceed),
      ("validation_details", .texts s.details),
      ("completes_workflow", .bool s.completes),
      ("warnings", .texts s.warnings) ]

/-- The prediction for an action, as data; an action that is not there would
    not succeed. -/
def simulateAction (g : Engine) (e : Execution) (action test : Value) :
    Except Failure Value := do
  match simulated (← g.definitionFor e) e action with
  | .error f      => pure (.record
      [ ("action", action), ("would_succeed", .bool false),
        ("error", .str f.text) ])
  | .ok (d, s, a) => do
    let test ← looseMapping test
    let merged ← e.context.updated test
    let replaced ← overwritten e.context test
    pure (simulate d s a e merged test replaced).toValue

end Engine

end Workflow
