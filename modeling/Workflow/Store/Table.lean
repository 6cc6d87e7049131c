import Workflow.Store.Memory
import Workflow.Store.Row

/-! # Table — executions kept as rows of texts

    A row holds its documents as JSON texts and its times as ISO texts.
    Rows stand in the order of their creation; listings are sorted by the
    text of the creation time, equal ones staying in that order. -/

namespace Workflow

/-- A row as it is stored. -/
structure TableRow where
  id            : String
  workflowName  : String
  subjectType   : String
  subjectId     : String
  currentStep   : String
  status        : String
  contextText   : String
  historyText   : String
  actorType     : Option String
  actorId       : Option String
  version       : Int
  createdText   : String
  updatedText   : String
deriving DecidableEq

/-- Rows in a table. -/
structure TableStore where
  rows : List TableRow := []

namespace TableRow

/-- Can the table hold the integer? -/
def fits (i : Int) : Bool := decide (-(2 ^ 63 : Int) ≤ i ∧ i < 2 ^ 63)

/-- The refusal of an integer beyond the range of the table. -/
def tooLarge : Failure :=
  .overflow "Python int too large to convert to SQLite INTEGER"

/-- The refusal of a row whose id is taken. -/
def duplicate : Failure :=
  .other "IntegrityError" "UNIQUE constraint failed: executions.id"

/-- A row as it is stored. -/
def ofRow (r : Row) : Except Failure TableRow := do
  let contextText ← r.contextJson
  let historyText ← r.historyJson
  if !fits r.version then throw tooLarge
  pure
    { id           := r.id
      workflowName := r.workflowName
      subjectType  := r.subjectType
      subjectId    := r.subjectId
      currentStep  := r.currentStep
      status       := r.status
      contextText  := contextText
      historyText  := historyText
      actorType    := r.actorType
      actorId      := r.actorId
      version      := r.version
      createdText  := r.createdAt.isoText
      updatedText  := r.updatedAt.isoText }

/-- The stored row of an execution. -/
def ofExecution (e : Execution) : Except Failure TableRow := do
  ofRow (← Row.ofExecution e)

/-- The refusal of a text that is no JSON. -/
def badJson : Failure := .other "JSONDecodeError" "Expecting value"

/-- The refusal of a text that is no time. -/
def badTime : Failure := .wrongValue "Invalid isoformat string"

/-- The row that a stored row denotes. -/
def toRow (t : TableRow) : Except Failure Row :=
  match Json.read? t.contextText, Json.read? t.historyText,
      Timestamp.ofIsoText? t.createdText, Timestamp.ofIsoText? t.updatedText with
  | some (.dict context), some (.list history), some created, some updated =>
    .ok
      { id           := t.id
        workflowName := t.workflowName
        subjectType  := t.subjectType
        subjectId    := t.subjectId
        currentStep  := t.currentStep
        status       := t.status
        context      := context
        history      := history
        actorType    := t.actorType
        actorId      := t.actorId
        version      := t.version
        createdAt    := created
        updatedAt    := updated }
  | some _, some _, _, _ => .error badTime
  | _, _, _, _           => .error badJson

/-- The execution that a stored row denotes. -/
def toExecution (now : Timestamp) (t : TableRow) : Except Failure Execution := do
  (← t.toRow).toExecution now

end TableRow

namespace TableStore

/-- The stored execution with an id. -/
def get? (s : TableStore) (now : Timestamp) (id : String) :
    Except Failure (Option Execution) :=
  match s.rows.find? fun r => r.id == id with
  | none   => .ok none
  | some r => (r.toExecution now).map some

/-- The text that a value compares as with the texts of a column; null and
    bytes equal none of them.  Containers and things are refused. -/
def comparand : Value → Except Failure (Option String)
  | .scalar .null      => .ok none
  | .scalar (.bytes _) => .ok none
  | .scalar (.bool b)  => .ok (some (if b then "1" else "0"))
  | .scalar (.int i)   =>
    if TableRow.fits i then .ok (some (String.ofList (intText i)))
    else .error TableRow.tooLarge
  | .scalar (.float x) => .ok (if x = .nan then none else some x.text)
  | .scalar (.str s)   => .ok (some s)
  | .scalar (.time t)  => .ok (some t.plainText)
  | .scalar (.status s) => .ok (some s.text)
  | v                  =>
    .error (.other "ProgrammingError"
      s!"Error binding parameter 1: type {quotedText v.typeName} is not supported")

/-- The stored execution whose id equals a value. -/
def find? (s : TableStore) (now : Timestamp) (id : Value) :
    Except Failure (Option Execution) := do
  match ← comparand id with
  | some t => s.get? now t
  | none   => pure none

/-- Stores a new execution; its id must be new. -/
def create (s : TableStore) (e : Execution) : Except Failure TableStore := do
  let row ← TableRow.ofExecution e
  if s.rows.any fun r => r.id == e.id then throw TableRow.duplicate
  pure ⟨s.rows ++ [row]⟩

/-- A row with new contents; the creation time stays. -/
def updateRow (old new : TableRow) : TableRow :=
  { new with createdText := old.createdText }

/-- Replaces the row of an execution if its version is the expected one;
    otherwise a second look tells a lost update from a missing row. -/
def save (s : TableStore) (now : Timestamp) (e : Execution) (expected : Int) :
    Except Failure (Execution × TableStore) := do
  let updated := e.committed expected now
  let row ← TableRow.ofExecution updated
  if !TableRow.fits expected then throw TableRow.tooLarge
  if s.rows.any fun r => r.id == row.id && r.version == expected then
    pure (updated, ⟨s.rows.map fun r =>
      if r.id == row.id && r.version == expected then updateRow r row else r⟩)
  else match ← s.find? now e.idValue with
    | none         => throw (.missingKey e.idValue.display)
    | some current =>
      throw (lostUpdate e.id expected current.version (some current))

/-- Rows by the text of their creation time. -/
def sorted (rows : List TableRow) : List TableRow :=
  rows.mergeSort fun r t => decide (r.createdText ≤ t.createdText)

/-- The executions of rows. -/
def executions (now : Timestamp) : List TableRow → Except Failure (List Execution)
  | []      => .ok []
  | r :: rs => do
    let e ← r.toExecution now
    let es ← executions now rs
    pure (e :: es)

/-- The stored executions that a filter admits; its status must be one. -/
def list (s : TableStore) (now : Timestamp) (f : Filter) :
    Except Failure (List Execution) :=
  do
    let status ← f.status?
    let workflow ← f.workflow.mapM comparand
    executions now (sorted (s.rows.filter fun r =>
      workflow.all (· == some r.workflowName) && status.all (·.text == r.status)))

/-- The stored executions of a subject, which must be a reference. -/
def findForSubject (s : TableStore) (now : Timestamp) (subject : Value) :
    Except Failure (List Execution) :=
  match subject with
  | .scalar (.ref r) =>
    executions now (sorted (s.rows.filter fun row =>
      row.subjectType == r.type && row.subjectId == r.id))
  | v                => .error (.noType v)

/-- Removes an execution. -/
def delete (s : TableStore) (id : String) : TableStore :=
  ⟨s.rows.filter fun r => r.id != id⟩

/-- Removes the execution whose id equals a value. -/
def remove (s : TableStore) (id : Value) : Except Failure TableStore := do
  pure (((← comparand id).map s.delete).getD s)

end TableStore

end Workflow
