import Workflow.Client
import Workflow.Execution.Reader

/-! # Fresh — executions built from structured data

    Data without an id gets the next one.  The id is drawn before the other
    fields are looked at, so one that does not fit uses it up. -/

namespace Workflow

/-- The execution that a map denotes. -/
def Execution.fresh (m : Mapping) : Draft Execution := do
  let id ← if Mapping.contains m "id" then pure "" else Draft.executionId
  let now ← Draft.now
  Draft.ofExcept (Execution.read now id m).toExcept

end Workflow
