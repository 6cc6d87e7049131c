import Workflow.Execution.Reader

/-! # ActionResult — what an operator action came to

    A refused action is no error: it comes back with its problems and a
    reason that machines can read. -/

namespace Workflow

/-- Why an action was refused. -/
inductive Rejection where
  | invalidContext
  | definitionMissing
  | notActive
  | actionUnavailable
  | conditionsUnmet
  | invalidStatus
deriving DecidableEq

/-- The word for a reason. -/
def Rejection.text : Rejection → String
  | .invalidContext    => "invalid_context"
  | .definitionMissing => "definition_missing"
  | .notActive         => "not_active"
  | .actionUnavailable => "action_unavailable"
  | .conditionsUnmet   => "conditions_unmet"
  | .invalidStatus     => "invalid_status"

/-- The kind of error that a reason stands for. -/
def rejectionKind (reason : Option String) : ErrorKind :=
  if reason = some Rejection.conditionsUnmet.text then .conditionNotMet
  else if reason = some Rejection.actionUnavailable.text then .invalidTransition
  else if reason = some Rejection.invalidContext.text then .invalidContext
  else if reason = some Rejection.definitionMissing.text then .definition
  else .transition

/-- Outcome of an operator action. -/
structure ActionResult where
  success   : Bool
  errors    : List String := []
  reason    : Option String := none
  execution : Option Execution := none

namespace ActionResult

/-- A successful action. -/
def done (e : Execution) : ActionResult :=
  { success := true, execution := some e }

/-- A refused action. -/
def rejected (errors : List String) (reason : Rejection)
    (e : Option Execution) : ActionResult :=
  { success := false, errors, reason := some reason.text, execution := e }

/-- Reads the fields of an outcome, with the execution it is about. -/
def read (m : Mapping) (e : Option Execution) : Checked ActionResult :=
  (ActionResult.mk · · · e)
    <$> Checked.field m "" "success" none Lax.bool
    <*> Checked.field m "" "errors" (some []) (Lax.list Lax.text)
    <*> Checked.field m "" "reason" (some none) Lax.optionalText

/-- Fails with the error that matches the reason, unless the action
    succeeded. -/
def raiseForErrors (r : ActionResult) : Except Failure Unit :=
  if r.success then .ok ()
  else
    let listed := "; ".intercalate r.errors
    .error (.workflow
      { kind      := rejectionKind r.reason
        message   := if listed = "" then "Action failed" else listed
        execution := r.execution
        details   := .record [("reason", .optionalText r.reason)] })

end ActionResult

end Workflow
