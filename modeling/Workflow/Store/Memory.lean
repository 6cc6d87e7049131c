import Workflow.Failure

/-! # Memory — executions kept by value

    Executions stand in the order of their creation, one for each id.
    Saving is a compare-and-swap on the version. -/

namespace Workflow

/-- Which executions to list: those of a workflow, those of a status.  Any
    value can be asked for, though not every store takes it. -/
structure Filter where
  workflow : Option Value := none
  status   : Option Value := none
deriving Inhabited

/-- The status that a filter asks for; a value that is none is refused. -/
def Filter.status? (f : Filter) : Except Failure (Option Status) :=
  match f.status with
  | none   => .ok none
  | some v =>
    match v.toText?.bind Status.ofText? with
    | some s => .ok (some s)
    | none   => .error (.unknownStatus v.display)

/-- The error of a save that lost against another writer. -/
def lostUpdate (id : String) (expected found : Int) (current : Option Execution) :
    Failure :=
  .workflow
    { kind      := .concurrentModification
      message   := s!"Execution {id} was modified concurrently (expected version {expected}, found {found})"
      execution := current }

/-- The snapshot as a store commits it. -/
def Execution.committed (e : Execution) (expected : Int) (now : Timestamp) :
    Execution :=
  { e.withVersion (.int (expected + 1)) with updatedAt := now }

/-- Executions in memory. -/
structure MemoryStore where
  executions : List Execution := []

namespace MemoryStore

/-- The stored execution with an id. -/
def get? (s : MemoryStore) (id : String) : Option Execution :=
  s.executions.find? fun e => e.id == id

/-- The stored execution whose id equals a value, which must be one that can
    be looked up. -/
def find? (s : MemoryStore) (id : Value) : Except Failure (Option Execution) :=
  if id.isHashable then .ok (s.executions.find? fun e => (Value.str e.id).equal id)
  else .error (.unhashable id)

/-- Stores a new execution; its id must be new. -/
def create (s : MemoryStore) (e : Execution) : Except Failure MemoryStore :=
  if (s.get? e.id).isSome then
    .error (.refused s!"Execution {e.id} already exists")
  else .ok ⟨s.executions ++ [e]⟩

/-- Puts an execution in the place of the stored one with its id. -/
def replace (s : MemoryStore) (e : Execution) : MemoryStore :=
  ⟨s.executions.map fun f => if f.id = e.id then e else f⟩

/-- Replaces a stored execution whose version is the expected one; answers
    with what is stored then. -/
def save (s : MemoryStore) (now : Timestamp) (e : Execution) (expected : Int) :
    Except Failure (Execution × MemoryStore) := do
  match ← s.find? e.idValue with
  | none         => throw (.missingKey e.idValue.display)
  | some current =>
    if current.version = expected then
      let updated := e.committed expected now
      pure (updated, s.replace updated)
    else throw (lostUpdate e.id expected current.version (some current))

/-- The stored executions that a filter admits, in order of creation. -/
def list (s : MemoryStore) (f : Filter) : List Execution :=
  s.executions.filter fun e =>
    (f.workflow.all fun w => e.workflowName.equal w) &&
      (f.status.all fun v => (Value.status e.status).equal v)

/-- The stored executions whose subject equals a value, in order of
    creation. -/
def findForSubject (s : MemoryStore) (subject : Value) : List Execution :=
  s.executions.filter fun e => (Value.ref e.subject).equal subject

/-- Removes an execution. -/
def delete (s : MemoryStore) (id : String) : MemoryStore :=
  ⟨s.executions.filter fun e => e.id != id⟩

/-- Removes the execution whose id equals a value, which must be one that can
    be looked up. -/
def remove (s : MemoryStore) (id : Value) : Except Failure MemoryStore := do
  pure (((← s.find? id).map fun e => s.delete e.id).getD s)

end MemoryStore

end Workflow
