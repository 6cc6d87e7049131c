import Workflow.Store.Memory
import Workflow.Store.Statement
import Workflow.Text.Blank
import Workflow.Value.Measure

/-! # Remote — executions kept by a server

    Each operation opens one connection, sends its statements and closes the
    connection again, whatever the server answers.  The first connection of
    a store also prepares the table. -/

namespace Workflow

/-- What passes over a connection. -/
inductive RemoteCall where
  | connect (address : String)
  | execute (s : Statement)
  | fetchRow (s : Statement)
  | fetch (s : Statement)
  | close

/-- What the server answers to a statement. -/
inductive Reply where
  | answered (v : Value)
  | raised (f : Failure)

/-- The line to the server: was the table prepared, what the server will
    answer, and what has passed. -/
structure Wire where
  prepared : Bool := false
  replies  : List Reply := []
  calls    : List RemoteCall := []

/-- An exchange with the server. -/
abbrev Exchange := ExceptT Failure (StateM Wire)

namespace Exchange

variable {α : Type}

/-- The result of a computation that sends nothing. -/
def ofExcept (r : Except Failure α) : Exchange α :=
  match r with
  | .ok a    => pure a
  | .error f => throw f

/-- Something passes that is not answered. -/
def pass (c : RemoteCall) : Exchange Unit :=
  modify fun w => { w with calls := w.calls ++ [c] }

/-- A statement passes and is answered; a server that has nothing more to
    answer answers null. -/
def ask (c : RemoteCall) : Exchange Value := do
  pass c
  let w ← get
  match w.replies with
  | []                  => pure .null
  | .answered v :: rest =>
    set { w with replies := rest }
    pure v
  | .raised f :: rest   =>
    set { w with replies := rest }
    throw f

/-- Prepares the table, once. -/
def prepare : Exchange Unit := do
  let w ← get
  if !w.prepared then
    pass (.execute .createTable)
    pass (.execute .createIndex)
    modify fun w => { w with prepared := true }

/-- The outcome of an exchange, failed or not. -/
def outcome (x : Exchange α) : Exchange (Except Failure α) := ExceptT.lift x.run

/-- Carries out an exchange over a connection of its own. -/
def connected (address : String) (body : Exchange α) : Exchange α := do
  pass (.connect address)
  prepare
  let r ← outcome body
  pass .close
  ofExcept r

end Exchange

/-- A store on a server. -/
structure RemoteStore where
  address : String

namespace RemoteStore

/-- Stores a new execution. -/
def create (s : RemoteStore) (e : Execution) : Exchange Execution := do
  let row ← Exchange.ofExcept (Row.ofExecution e)
  Exchange.connected s.address do
    let insertion ← Exchange.ofExcept (Statement.insert row)
    let _ ← Exchange.ask (.execute insertion)
  pure e

/-- The stored execution with an id. -/
def get (s : RemoteStore) (now : Timestamp) (id : Value) :
    Exchange (Option Execution) := do
  let row ← Exchange.connected s.address (Exchange.ask (.fetchRow (.selectOne id)))
  if row.truthy then some <$> Exchange.ofExcept (Row.decode now row)
  else pure none

/-- The refusal of a tag without a word. -/
def blankTag : Failure := .other "IndexError" "tag is blank"

/-- Is the byte a blank or one of the controls from tab to carriage return? -/
def isBlankByte (b : UInt8) : Bool := b == 32 || (9 ≤ b && b ≤ 13)

/-- Did an update with this tag change a row?  The tag ends with the number
    of rows; the word of a tag in bytes is never taken for none. -/
def changed (tag : Value) : Except Failure Bool :=
  match tag, tag.toText? with
  | .scalar (.bytes b), _ => if b.all isBlankByte then .error blankTag else .ok true
  | _, none      => .error (.other "AttributeError" "tag is no text")
  | _, some text =>
    match lastWord? text with
    | none   => .error blankTag
    | some w => .ok (w != "0")

/-- The version in a row, as a text. -/
def versionText (row : Value) : Except Failure String :=
  match row with
  | .dict m =>
    match Mapping.field? m "version" with
    | some v => .ok v.display
    | none   => .error (.missingKey "version")
  | _       => .error (.wrongType "row has no columns")

/-- The error of a save that changed no row: the row is gone, or it has
    another version. -/
def lostSave (id : String) (expected : Int) : Exchange Unit := do
  let row ← Exchange.ask (.fetchRow (.selectVersion id))
  if row.isNull then throw (.missingKey id)
  let found ← Exchange.ofExcept (versionText row)
  throw (.plain .concurrentModification
    s!"Execution {id} was modified concurrently (expected version {expected}, found {found})")

/-- Replaces a stored execution whose version is the expected one. -/
def save (s : RemoteStore) (now : Timestamp) (e : Execution) (expected : Int) :
    Exchange Execution := do
  let updated := e.committed expected now
  let row ← Exchange.ofExcept (Row.ofExecution updated)
  Exchange.connected s.address do
    let update ← Exchange.ofExcept (Statement.update row expected)
    let tag ← Exchange.ask (.execute update)
    if !(← Exchange.ofExcept (changed tag)) then lostSave e.id expected
  pure updated

/-- The rows that a server sends; none are null. -/
def rowsOf (v : Value) : Except Failure (List Value) :=
  match v with
  | .scalar .null       => .ok []
  | .list vs            => .ok vs
  | .tuple vs           => .ok vs
  | .set vs             => .ok vs
  | .dict es            => .ok (es.map Prod.fst)
  | .scalar (.str text) => .ok (text.toList.map fun c => .str (String.ofList [c]))
  | _                   => .error (.wrongType "answer has no rows")

/-- The executions of the rows that a statement selects; a statement that
    cannot be made is found out over the connection. -/
def select (s : RemoteStore) (now : Timestamp) (q : Except Failure Statement) :
    Exchange (List Execution) := do
  let rows ← Exchange.connected s.address do
    Exchange.ask (.fetch (← Exchange.ofExcept q))
  Exchange.ofExcept (rowsOf rows >>= Row.decodeAll now)

/-- The stored executions that a filter admits; its status must be one. -/
def list (s : RemoteStore) (now : Timestamp) (f : Filter) :
    Exchange (List Execution) := do
  let status ← Exchange.ofExcept f.status?
  s.select now (.ok (.selectWhere
    (((f.workflow.map fun v => ("workflow_name", v)).toList) ++
      (status.map fun t => ("status", .str t.text)).toList)))

/-- The stored executions of a subject, which must be a reference. -/
def findForSubject (s : RemoteStore) (now : Timestamp) (subject : Value) :
    Exchange (List Execution) :=
  s.select now (match subject with
    | .scalar (.ref r) =>
      .ok (.selectWhere [("subject_type", .str r.type), ("subject_id", .str r.id)])
    | v                => .error (.noType v))

end RemoteStore

end Workflow
