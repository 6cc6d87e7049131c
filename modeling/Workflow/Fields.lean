import Workflow.Json.Plain
import Workflow.Recovery.Checkpoint
import Workflow.Settings
import Workflow.Value.Tagged

/-! # Fields — results as plain data

    What a caller is shown of executions, definitions and failures: a map
    with one entry for each field.  Where any value may stand it is shown in
    tagged form, while a name that was put in place without a check is shown
    as its JSON text has it. -/

namespace Workflow

/-- A value in its plain form; null where it has none. -/
def plainOrNull (v : Value) : Value := (Json.plain v).toOption.getD .null

/-- A reference, or null. -/
def refOrNull (r : Option EntityRef) : Value := (r.map Tagged.refFields).getD .null

/-! ## Executions -/

/-- A record as data. -/
def TransitionRecord.fields (r : TransitionRecord) : Value :=
  .record
    [ ("from_step", .str r.fromStep), ("to_step", .str r.toStep),
      ("action", .str r.action), ("actor", refOrNull r.actor),
      ("timestamp", .str r.timestamp.isoText) ]

/-- An execution as data. -/
def Execution.fields (e : Execution) : Value :=
  .record
    [ ("id", plainOrNull e.idValue), ("workflow_name", plainOrNull e.workflowName),
      ("subject", Tagged.refFields e.subject),
      ("current_step", plainOrNull e.currentStep), ("status", .str e.status.text),
      ("context", Tagged.write e.context),
      ("history", .list (e.history.map (·.fields))),
      ("assigned_actor", refOrNull e.assignedActor),
      ("version", plainOrNull e.versionValue),
      ("created_at", .str e.createdAt.isoText),
      ("updated_at", .str e.updatedAt.isoText) ]

/-- An execution as data, or null. -/
def executionOrNull (e : Option Execution) : Value :=
  (e.map Execution.fields).getD .null

/-- A checkpoint as data. -/
def Checkpoint.fields (c : Checkpoint) : Value :=
  .record
    [ ("id", .str c.id), ("label", .str c.label), ("captured_step", .str c.capturedStep),
      ("captured_status", .str c.capturedStatus.text),
      ("captured_context",
        Tagged.write ((c.capturedContext.map Value.dict).getD .null)),
      ("captured_history", .list (c.capturedHistory.map (·.fields))),
      ("created_at", .str c.createdAt.isoText), ("created_by", .str c.createdBy) ]

/-! ## Definitions -/

/-- An action as data. -/
def ActionDefinition.fields (a : ActionDefinition) : Value :=
  .record
    [ ("name", .str a.name), ("target_step", .str a.target),
      ("guarded", .bool a.guard.isSome), ("description", .optionalText a.description),
      ("confirmation_required", .bool a.confirmation) ]

/-- A step as data. -/
def StepDefinition.fields (s : StepDefinition) : Value :=
  .record
    [ ("name", .str s.name), ("description", .optionalText s.description),
      ("requirements", .texts s.requirements), ("safe", .bool s.safe),
      ("terminal", .bool s.isTerminal), ("conditions", .nat s.conditions.length),
      ("action_names", .texts s.actionNames),
      ("actions", .list (s.actions.map (·.fields))) ]

/-- An overview of a definition as data. -/
def DefinitionSummary.fields (s : DefinitionSummary) : Value :=
  .record
    [ ("name", .str s.name), ("description", .optionalText s.description),
      ("steps", .texts s.steps), ("initial_step", .optionalText s.initialStep),
      ("final_steps", .texts s.finalSteps), ("safe_steps", .texts s.safeSteps) ]

/-! ## Outcomes -/

/-- What caused an error, as entries. -/
def causeFields : Option Cause → List (String × Value)
  | none   => []
  | some c => ("cause", .str c.className) ::
      (c.fields.map fun fs => ("fields", Value.texts fs)).toList

/-- A failure as data. -/
def Failure.fields : Failure → Value
  | .workflow e   =>
    .record (
      [ ("error", .str e.kind.className), ("message", .str e.message),
        ("severity", .str e.kind.severity.text), ("retryable", .bool e.kind.retryable),
        ("details", Tagged.write e.details),
        ("execution", executionOrNull e.execution) ] ++ causeFields e.cause)
  | .invalid fs   => .record [("error", .str "ValidationError"), ("fields", .texts fs)]
  | .missingKey k => .record [("error", .str "KeyError"), ("message", .str k)]
  | .other c _    => .record [("error", .str c)]
  | f             => .record [("error", .str f.className), ("message", .str f.text)]

/-- What an action came to, as data. -/
def ActionResult.fields (r : ActionResult) : Value :=
  .record
    [ ("success", .bool r.success), ("errors", .texts r.errors),
      ("reason", .optionalText r.reason), ("execution", executionOrNull r.execution) ]

/-- What a recovery came to, as data. -/
def Engine.RecoveryResult.fields (r : Engine.RecoveryResult) : Value :=
  .record
    [ ("success", .bool true), ("strategy", .str r.strategy),
      ("target_step", .optionalText r.targetStep),
      ("checkpoint_id", .optionalText r.checkpointId),
      ("backup_id", .optionalText r.backupId),
      ("retry_action", .optionalText r.retryAction),
      ("retry_available", (r.retryAvailable.map Value.bool).getD .null),
      ("instructions", .texts r.instructions),
      ("recovery_plan", Tagged.write (r.plan.getD .null)),
      ("execution", r.execution.fields) ]

end Workflow
