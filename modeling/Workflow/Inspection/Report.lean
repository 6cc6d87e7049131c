import Workflow.Inspection.Trace

/-! # Report — everything about one execution at a glance

    The report only reads.  It is made of parts that are also available on
    their own.  Some of them can fail: what needs the definition, the age of the
    execution, and what is said about a context that is no map. -/

namespace Workflow

namespace Engine

/-- Who, what and when. -/
def executionSummary (e : Execution) : Value :=
  .record
    [ ("id", e.idValue), ("workflow_name", e.workflowName),
      ("subject", .str e.subject.label), ("current_step", e.currentStep),
      ("status", .str e.status.text), ("started_at", .str e.createdAt.isoText),
      ("last_updated", .str e.updatedAt.isoText),
      ("total_transitions", .nat e.history.length) ]

/-- The current step. -/
def stepState (d : Option Definition) (e : Execution) : Value :=
  let s := e.stepIn? d
  .record
    [ ("step_name", e.currentStep),
      ("description", .optionalText (s.bind (·.description))),
      ("requirements", .texts ((s.map (·.requirements)).getD [])),
      ("available_actions", .nat (e.openActions d).length),
      ("is_final_step", .bool ((s.map (·.isTerminal)).getD false)),
      ("is_safe_step", .bool ((s.map (·.safe)).getD false)) ]

/-- The open actions. -/
def openDetails (d : Option Definition) (e : Execution) : List ActionDetail :=
  (e.detailsIn d).filter (·.available)

/-- An open action in a report. -/
def openActionFields (a : ActionDetail) : List (String × Value) :=
  [ ("action", .str a.name), ("target_step", .str a.target),
    ("description", .optionalText a.description),
    ("requires_confirmation", .bool a.confirmation) ]

/-- Size and shape of the context. -/
def contextAnalysis (e : Execution) : Except Failure Value := do
  let m ← e.publicContext
  let context := Value.dict m
  pure (.record
    [ ("total_keys", .nat m.length),
      ("nested_levels", .nat context.nestingDepth),
      ("data_types", tallyValue context.leafTypes),
      ("size_estimate", .int e.contextSize),
      ("null_values", .nat (context.countChildren Value.isNull)),
      ("empty_collections", .nat (context.countChildren Value.isEmptyCollection)) ])

/-- The required keys that a context lacks. -/
def missingKeys (d : Option Definition) (context : Value) :
    Except Failure (List String) :=
  match d with
  | none   => .ok []
  | some d => context.lacking d.requiredKeys

/-- Everything that is wrong with the state of an execution. -/
def stateIssues (g : Engine) (e : Execution) : Except Failure (List String) := do
  let d ← g.definitionFor e
  let missing ← missingKeys d e.context
  pure (executionIssues d e ++ valueProblems true e.context ++
    missing.map fun k => s!"Missing required context key: {k}")

/-- The verdict on the state. -/
def validationStatus (g : Engine) (e : Execution) : Except Failure Value := do
  let issues ← g.stateIssues e
  pure (.record
    [ ("is_valid", .bool issues.isEmpty), ("issue_count", .nat issues.length),
      ("issues", .texts issues) ])

/-- Has the execution not been updated for longer than the settings allow? -/
def isStale (g : Engine) (now : Timestamp) (e : Execution) : Except Failure Bool := do
  let idle ← elapsedMicros now e.updatedAt
  let limit ← (spanMicros 3600 (.real g.settings.recovery.staleAfterHours)).mapError
    spanFailure
  pure (decide (idle > limit))

/-- Signs of trouble. -/
def potentialIssues (g : Engine) (now : Timestamp) (e : Execution) :
    Except Failure (List String) := do
  let settings := g.settings.recovery
  let stale ← g.isStale now e
  let size := e.contextSize
  let d ← g.definitionFor e
  let steps := (d.map fun d => d.steps.length).getD 0
  let final := ((e.stepIn? d).map (·.isTerminal)).getD false
  let hours := settings.staleAfterHours.displayText
  pure (
    (if stale then
      [s!"Workflow execution hasn't been updated in over {hours} hours"] else []) ++
    (if size > settings.largeContextBytes then
      [s!"Context data is unusually large ({size} bytes)"] else []) ++
    (if History.backtracking [] e.history > steps then
      ["Potential loop detected in execution history"] else []) ++
    (if (e.openActions d).isEmpty && !final then
      ["No actions are currently available from a non-final step"] else []))

/-- The whole report. -/
def debugReport (g : Engine) (now : Timestamp) (e : Execution) :
    Except Failure Value := do
  let d ← g.definitionFor e
  let context ← contextAnalysis e
  let status ← g.validationStatus e
  let issues ← g.potentialIssues now e
  pure (.record
    [ ("execution_summary", executionSummary e),
      ("current_state", stepState d e),
      ("available_actions",
        .list ((openDetails d e).map fun a => .record (openActionFields a))),
      ("context_analysis", context),
      ("validation_status", status),
      ("history_analysis", History.analysis e.history),
      ("potential_issues", .texts issues) ])

end Engine

end Workflow
