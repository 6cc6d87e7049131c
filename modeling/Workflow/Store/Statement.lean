import Workflow.Execution.Reader
import Workflow.Store.Row
import Workflow.Value.Measure

/-! # Statement — what is sent to a remote store

    Two statements prepare the table and its index; every other one works
    on rows, with its values as numbered arguments. -/

namespace Workflow

/-- A statement with its arguments. -/
structure Statement where
  text      : String
  arguments : List Value := []

namespace Statement

/-- The columns of a row, in order. -/
def columnList : String := ", ".intercalate rowColumns

/-- Makes the table unless it is there. -/
def createTable : Statement :=
  ⟨"CREATE TABLE IF NOT EXISTS stepflow_executions ( id TEXT PRIMARY KEY, " ++
    "workflow_name TEXT NOT NULL, subject_type TEXT NOT NULL, " ++
    "subject_id TEXT NOT NULL, current_step TEXT NOT NULL, status TEXT NOT NULL, " ++
    "context JSONB NOT NULL, history JSONB NOT NULL, assigned_actor_type TEXT, " ++
    "assigned_actor_id TEXT, version INTEGER NOT NULL DEFAULT 0, " ++
    "created_at TIMESTAMPTZ NOT NULL, updated_at TIMESTAMPTZ NOT NULL )", []⟩

/-- Makes the index on subjects unless it is there. -/
def createIndex : Statement :=
  ⟨"CREATE INDEX IF NOT EXISTS idx_stepflow_executions_subject " ++
    "ON stepflow_executions (subject_type, subject_id)", []⟩

/-- The values that a save may change, but for version and time. -/
def contents (r : Row) : Except Failure (List Value) := do
  let context ← r.contextJson
  let history ← r.historyJson
  pure [.str r.workflowName, .str r.subjectType, .str r.subjectId,
    .str r.currentStep, .str r.status, .str context, .str history,
    .optionalText r.actorType, .optionalText r.actorId]

/-- Inserts a row. -/
def insert (r : Row) : Except Failure Statement := do
  let values ← contents r
  let places := ", ".intercalate ((List.range rowColumns.length).map fun i => s!"${i + 1}")
  pure ⟨s!"INSERT INTO stepflow_executions ({columnList}) VALUES ({places})",
    .str r.id :: values ++ [.int r.version, .time r.createdAt, .time r.updatedAt]⟩

/-- Replaces the row with an id and a version. -/
def update (r : Row) (expected : Int) : Except Failure Statement := do
  let values ← contents r
  pure ⟨"UPDATE stepflow_executions SET workflow_name = $1, subject_type = $2, " ++
    "subject_id = $3, current_step = $4, status = $5, context = $6, history = $7, " ++
    "assigned_actor_type = $8, assigned_actor_id = $9, version = $10, " ++
    "updated_at = $11 WHERE id = $12 AND version = $13",
    values ++ [.int r.version, .time r.updatedAt, .str r.id, .int expected]⟩

/-- Looks up the version of a row. -/
def selectVersion (id : String) : Statement :=
  ⟨"SELECT version FROM stepflow_executions WHERE id = $1", [.str id]⟩

/-- The start of every look at whole rows. -/
def selectRows : String := s!"SELECT {columnList} FROM stepflow_executions"

/-- Looks up a row. -/
def selectOne (id : Value) : Statement :=
  ⟨selectRows ++ " WHERE id = $1", [id]⟩

/-- The conditions that columns equal values, numbered in order. -/
def conditions (columns : List String) : String :=
  " AND ".intercalate (columns.zipIdx.map fun c => s!"{c.1} = ${c.2 + 1}")

/-- Lists the rows whose columns have given values, by time of creation. -/
def selectWhere (equal : List (String × Value)) : Statement :=
  let clause := if equal.isEmpty then "" else " WHERE " ++ conditions (equal.map Prod.fst)
  ⟨selectRows ++ clause ++ " ORDER BY created_at", equal.map Prod.snd⟩

end Statement

/-! ## Rows as the server sends them -/

namespace Row

/-- Reads a row from its columns. -/
def read (m : Mapping) : Checked Row :=
  Row.mk
    <$> Checked.field m "" "id" none Lax.text
    <*> Checked.field m "" "workflow_name" none Lax.text
    <*> Checked.field m "" "subject_type" none Lax.text
    <*> Checked.field m "" "subject_id" none Lax.text
    <*> Checked.field m "" "current_step" none Lax.text
    <*> Checked.field m "" "status" none Lax.text
    <*> Checked.field m "" "context" none Lax.mapping
    <*> Checked.field m "" "history" none
          (Lax.list fun path v => Value.dict <$> Lax.entries "history" path v)
    <*> Checked.field m "" "assigned_actor_type" none Lax.optionalText
    <*> Checked.field m "" "assigned_actor_id" none Lax.optionalText
    <*> Checked.field m "" "version" none Lax.int
    <*> Checked.field m "" "created_at" none Lax.time
    <*> Checked.field m "" "updated_at" none Lax.time

/-- The first of some columns that a row lacks. -/
def missing? (m : Mapping) (columns : List String) : Option String :=
  columns.find? fun c => !Mapping.contains m c

/-- The failure of reading a document column. -/
def documentFailure : Json.Fault → Failure
  | .malformed   => .other "JSONDecodeError" "Expecting value"
  | .longInteger => .wrongValue "an integer has too many digits"

/-- A document column: a text is read as JSON. -/
def parsed (m : Mapping) (column : String) : Except Failure Mapping :=
  match (Mapping.field? m column).bind Value.toText? with
  | some s => ((Json.read s).mapError documentFailure).map (m.set column ·)
  | none   => .ok m

/-- The columns in the order in which they are looked at, up to the
    documents. -/
def earlyColumns : List String :=
  ["context", "history", "id", "workflow_name", "subject_type", "subject_id",
   "current_step", "status"]

/-- The execution of a row as the server sends it. -/
def decode (now : Timestamp) (v : Value) : Except Failure Execution :=
  match v with
  | .dict m => do
    if let some c := missing? m earlyColumns then throw (.missingKey c)
    let m ← parsed m "context"
    let m ← parsed m "history"
    if let some c := missing? m rowColumns then throw (.missingKey c)
    let row ← (Row.read m).toExcept
    row.toExecution now
  | _ => .error (.wrongType "row has no columns")

/-- The executions of several rows. -/
def decodeAll (now : Timestamp) : List Value → Except Failure (List Execution)
  | []      => .ok []
  | v :: vs => do
    let e ← decode now v
    let es ← decodeAll now vs
    pure (e :: es)

end Row

end Workflow
