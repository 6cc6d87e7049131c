import Workflow.Store.Table

/-! # Store — where executions are kept

    Both stores answer the same requests: a store of values in memory and a
    table of rows.  The present is handed in, for a store stamps what it
    commits. -/

namespace Workflow

/-- A store of executions. -/
inductive Store where
  | memory (s : MemoryStore)
  | table (s : TableStore)

namespace Store

/-- The stored execution with an id. -/
def get? (s : Store) (now : Timestamp) (id : String) :
    Except Failure (Option Execution) :=
  match s with
  | .memory m => .ok (m.get? id)
  | .table t  => t.get? now id

/-- The stored execution whose id equals a value. -/
def find? (s : Store) (now : Timestamp) (id : Value) :
    Except Failure (Option Execution) :=
  match s with
  | .memory m => m.find? id
  | .table t  => t.find? now id

/-- Stores a new execution and answers with it. -/
def create (s : Store) (e : Execution) : Except Failure (Execution × Store) :=
  match s with
  | .memory m => (m.create e).map fun m => (e, .memory m)
  | .table t  => (t.create e).map fun t => (e, .table t)

/-- Replaces a stored execution whose version is the expected one. -/
def save (s : Store) (now : Timestamp) (e : Execution) (expected : Int) :
    Except Failure (Execution × Store) :=
  match s with
  | .memory m => (m.save now e expected).map fun r => (r.1, .memory r.2)
  | .table t  => (t.save now e expected).map fun r => (r.1, .table r.2)

/-- The stored executions that a filter admits. -/
def list (s : Store) (now : Timestamp) (f : Filter) :
    Except Failure (List Execution) :=
  match s with
  | .memory m => .ok (m.list f)
  | .table t  => t.list now f

/-- The stored executions of a subject. -/
def findForSubject (s : Store) (now : Timestamp) (subject : Value) :
    Except Failure (List Execution) :=
  match s with
  | .memory m => .ok (m.findForSubject subject)
  | .table t  => t.findForSubject now subject

/-- Removes an execution. -/
def delete (s : Store) (id : String) : Store :=
  match s with
  | .memory m => .memory (m.delete id)
  | .table t  => .table (t.delete id)

/-- Removes the execution whose id equals a value. -/
def remove (s : Store) (id : Value) : Except Failure Store :=
  match s with
  | .memory m => (m.remove id).map .memory
  | .table t  => (t.remove id).map .table

end Store

end Workflow
