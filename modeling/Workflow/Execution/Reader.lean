import Workflow.Checked
import Workflow.Failure

/-! # Reader — executions and their parts from structured data

    Fields are taken in a lax manner: numbers and times may come as texts,
    missing optional fields take their defaults, fields that are not known
    are ignored. -/

namespace Workflow

namespace Checked

variable {α : Type}

/-- A reading as the result of an operation. -/
def toExcept : Checked α → Except Failure α
  | .ok a   => .ok a
  | .bad fs => .error (.invalid (sortedFaults fs))

end Checked

namespace TransitionRecord

/-- Reads a record; a missing time is the present. -/
def read (now : Timestamp) (path : String) : Value → Checked TransitionRecord
  | .dict m =>
    TransitionRecord.mk
      <$> Checked.field m path "from_step" none Lax.text
      <*> Checked.field m path "to_step" none Lax.text
      <*> Checked.field m path "action" none Lax.text
      <*> Checked.field m path "actor" (some none) Lax.optionalActor
      <*> Checked.field m path "timestamp" (some now) Lax.time
  | _ => .bad [path]

end TransitionRecord

namespace Execution

/-- Reads an execution; `freshId` is the id of one that has none.  What is read
    is sound. -/
def read (now : Timestamp) (freshId : String) (m : Mapping) :
    Checked Execution :=
  Execution.mk
    <$> Checked.field m "" "id" (some freshId) Lax.text
    <*> (Value.str <$> Checked.field m "" "workflow_name" none Lax.text)
    <*> Checked.field m "" "subject" none (Lax.reference .subject)
    <*> (Value.str <$> Checked.field m "" "current_step" none Lax.text)
    <*> Checked.field m "" "status" (some .active) Lax.status
    <*> (Value.dict <$> Checked.field m "" "context" (some []) Lax.mapping)
    <*> Checked.field m "" "history" (some [])
          (Lax.list (TransitionRecord.read now))
    <*> Checked.field m "" "assigned_actor" (some none) Lax.optionalActor
    <*> Checked.field m "" "version" (some 0) Lax.int
    <*> Checked.field m "" "created_at" (some now) Lax.time
    <*> Checked.field m "" "updated_at" (some now) Lax.time
    <*> .ok []

end Execution

end Workflow
