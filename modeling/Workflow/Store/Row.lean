import Workflow.Document
import Workflow.Execution.Reader
import Workflow.Json.Reader
import Workflow.Timestamp.Standard

/-! # Row — executions as flat rows

    Every store keeps the same columns.  Context and history are documents,
    so that a store that holds texts can keep them as JSON without losing
    the order of records or keys. -/

namespace Workflow

/-- The columns of a row, in order. -/
def rowColumns : List String :=
  ["id", "workflow_name", "subject_type", "subject_id", "current_step",
   "status", "context", "history", "assigned_actor_type",
   "assigned_actor_id", "version", "created_at", "updated_at"]

/-- One execution as a row. -/
structure Row where
  id           : String
  workflowName : String
  subjectType  : String
  subjectId    : String
  currentStep  : String
  status       : String
  context      : Mapping
  history      : List Value
  actorType    : Option String
  actorId      : Option String
  version      : Int
  createdAt    : Timestamp
  updatedAt    : Timestamp

namespace Row

/-- The row of an execution with texts as id and names and a given context. -/
def filled (e : Execution) (id workflowName currentStep : String) (context : Mapping) :
    Row :=
  { id           := id
    workflowName := workflowName
    subjectType  := e.subject.type
    subjectId    := e.subject.id
    currentStep  := currentStep
    status       := e.status.text
    context      := context
    history      := e.history.map Document.ofRecord
    actorType    := e.assignedActor.map (·.type)
    actorId      := e.assignedActor.map (·.id)
    version      := e.version
    createdAt    := e.createdAt
    updatedAt    := e.updatedAt }

/-- The row of an execution; its id, its names and its context must have a
    document form, id and names must be texts and the context a map. -/
def ofExecution (e : Execution) : Except Failure Row := do
  let _ ← Document.ofValue 0 e.idValue
  let _ ← Document.ofValue 0 e.workflowName
  let _ ← Document.ofValue 0 e.currentStep
  let document ← Document.ofValue 0 e.context
  (filled e
    <$> Lax.text "id" e.idValue
    <*> Lax.text "workflow_name" e.workflowName
    <*> Lax.text "current_step" e.currentStep
    <*> Lax.mapping "context" document).toExcept

/-- The assigned actor: there is one when both of its columns are set. -/
def actor? (r : Row) : Option EntityRef := do
  pure (.actor (← r.actorType) (← r.actorId))

/-- The records of a history, each read from its document. -/
def records (now : Timestamp) : List Value → Except Failure (List TransitionRecord)
  | []      => .ok []
  | d :: ds => do
    let r ← (TransitionRecord.read now "" d).toExcept
    let rs ← records now ds
    pure (r :: rs)

/-- The execution of a row. -/
def toExecution (now : Timestamp) (r : Row) : Except Failure Execution := do
  match Status.ofText? r.status with
  | none        => throw (.unknownStatus r.status)
  | some status =>
    let history ← records now r.history
    pure
      { id            := r.id
        workflowName  := .str r.workflowName
        subject       := .subject r.subjectType r.subjectId
        currentStep   := .str r.currentStep
        status        := status
        context       := .dict r.context
        history       := history
        assignedActor := r.actor?
        version       := r.version
        createdAt     := r.createdAt
        updatedAt     := r.updatedAt }

/-- The context column as a text. -/
def contextJson (r : Row) : Except Failure String :=
  (Json.write (.dict r.context)).mapError .unwritable

/-- The history column as a text. -/
def historyJson (r : Row) : Except Failure String :=
  (Json.write (.list r.history)).mapError .unwritable

end Row

end Workflow
