import Workflow.Duration
import Workflow.Store.Memory

/-! # Client — operations as programs of store requests

    An operation is a tree of requests: it asks the store, or the clocks,
    and goes on with the answer.  What happens between two requests is up to
    the world that answers them, other writers included.  What is computed
    from one snapshot, without asking, is a draft. -/

namespace Workflow

/-- How many ids of each kind have been drawn. -/
structure Serials where
  executions  : Nat := 0
  checkpoints : Nat := 0
deriving DecidableEq, Inhabited

/-- A computation on a snapshot: it sees the present, may draw ids and may
    fail.  Ids drawn before a failure stay drawn. -/
abbrev Draft := ReaderT Timestamp (ExceptT Failure (StateM Serials))

namespace Draft

variable {α : Type}

/-- The present. -/
def now : Draft Timestamp := read

/-- Fails. -/
def fail (f : Failure) : Draft α := throw f

/-- The result of a computation that draws nothing. -/
def ofExcept (r : Except Failure α) : Draft α :=
  match r with
  | .ok a    => pure a
  | .error f => fail f

/-- Draws an execution id. -/
def executionId : Draft String := do
  let s ← get
  set { s with executions := s.executions + 1 }
  pure s!"exec-{s.executions + 1}"

/-- Draws a checkpoint id. -/
def checkpointId : Draft String := do
  let s ← get
  set { s with checkpoints := s.checkpoints + 1 }
  pure s!"cp-{s.checkpoints + 1}"

/-- Result and serials of a draft carried out at a time. -/
def runAt (d : Draft α) (now : Timestamp) (s : Serials) :
    Except Failure α × Serials :=
  d.run now |>.run.run s

end Draft

/-- What an operation may ask for. -/
inductive Request where
  | load (id : Value)
  | insert (e : Execution)
  | save (e : Execution) (expected : Int)
  | list (f : Filter)
  | findForSubject (subject : Value)
  | moment (use : Timestamp → Serials → Serials)
  | elapsed
  | draw
  | sleep (delay : Number)

/-- The type of the answer to a request. -/
@[reducible] def Request.Answer : Request → Type
  | .load _           => Except Failure (Option Execution)
  | .insert _         => Except Failure Execution
  | .save _ _         => Except Failure Execution
  | .list _           => Except Failure (List Execution)
  | .findForSubject _ => Except Failure (List Execution)
  | .moment _         => Timestamp × Serials
  | .elapsed          => Binary64
  | .draw             => Number
  | .sleep _          => Unit

/-- An operation: a result, a failure, or a request and how to go on. -/
inductive Client (α : Type) where
  | done (a : α)
  | fail (f : Failure)
  | ask (q : Request) (next : q.Answer → Client α)

namespace Client

variable {α β : Type}

/-- Goes on with the result of an operation. -/
def bind : Client α → (α → Client β) → Client β
  | .done a,     k => k a
  | .fail f,     _ => .fail f
  | .ask q next, k => .ask q fun a => bind (next a) k

instance : Monad Client where
  pure := .done
  bind := bind

/-- Goes on with the failure of an operation. -/
def recover : Client α → (Failure → Client α) → Client α
  | .done a,     _ => .done a
  | .fail f,     h => h f
  | .ask q next, h => .ask q fun a => recover (next a) h

/-- The result of a computation that asks nothing. -/
def ofExcept : Except Failure α → Client α
  | .ok a    => .done a
  | .error f => .fail f

/-- Loads an execution. -/
def load (id : Value) : Client (Option Execution) :=
  .ask (.load id) fun r => ofExcept r

/-- Stores a new execution. -/
def insert (e : Execution) : Client Execution :=
  .ask (.insert e) fun r => ofExcept r

/-- Tries to replace a stored execution. -/
def trySave (e : Execution) (expected : Int) : Client (Except Failure Execution) :=
  .ask (.save e expected) fun r => .done r

/-- Lists executions. -/
def list (f : Filter) : Client (List Execution) :=
  .ask (.list f) fun r => ofExcept r

/-- Lists the executions of a subject. -/
def findForSubject (subject : Value) : Client (List Execution) :=
  .ask (.findForSubject subject) fun r => ofExcept r

/-- Carries out a draft at the present. -/
def draft (d : Draft α) : Client α :=
  .ask (.moment fun now s => (d.runAt now s).2) fun m =>
    ofExcept (d.runAt m.1 m.2).1

/-- The present. -/
def now : Client Timestamp := draft Draft.now

/-- The seconds on the monotonic clock. -/
def elapsed : Client Binary64 := .ask .elapsed fun x => .done x

/-- A random fraction. -/
def draw : Client Number := .ask .draw fun u => .done u

/-- Waits. -/
def sleep (delay : Number) : Client Unit := .ask (.sleep delay) fun u => .done u

end Client

end Workflow
