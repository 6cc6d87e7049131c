import Workflow.Document
import Workflow.Engine
import Workflow.Execution.Reader
import Workflow.Inspection.Trace

/-! # Checkpoint — snapshots kept inside the context

    A checkpoint captures the mutable state of an execution.  It is stored
    as a document in a reserved entry of the context, where only the newest
    ones up to a limit are kept, and read back when it is needed. -/

namespace Workflow

/-- Deep snapshot of an execution's mutable state. -/
structure Checkpoint where
  id              : String
  label           : String
  capturedStep    : String
  capturedStatus  : Status
  capturedContext : Option Mapping
  capturedHistory : List TransitionRecord
  createdAt       : Timestamp
  createdBy       : String
deriving Inhabited

namespace Checkpoint

/-- Who creates checkpoints. -/
def creator : String := "recovery_system"

/-- The checkpoint of an execution's state. -/
def taken (e : Execution) (id : String) (now : Timestamp) (label step : String)
    (context : Mapping) : Checkpoint :=
  { id, label
    capturedStep    := step
    capturedStatus  := e.status
    capturedContext := some context
    capturedHistory := e.history
    createdAt       := now
    createdBy       := creator }

/-- Captures the state of an execution, without its checkpoints; the label and
    the step must be texts. -/
def capture (e : Execution) (label : Value) : Draft Checkpoint := do
  let m ← Draft.ofExcept e.entries
  let id ← Draft.checkpointId
  let now ← Draft.now
  Draft.ofExcept (taken e id now
    <$> Lax.text "label" label
    <*> Lax.text "captured_step" e.currentStep
    <*> Lax.mapping "captured_context"
          (.dict (m.copyTop fun k => !(Value.str checkpointsKey).equal k))).toExcept

/-- A checkpoint as a document. -/
def document (c : Checkpoint) : Except Failure Value := do
  let context ← match c.capturedContext with
    | none   => pure Value.null
    | some m => (Document.ofMapping m).map Value.dict
  pure (.record
    [ ("id", .str c.id), ("label", .str c.label),
      ("captured_step", .str c.capturedStep),
      ("captured_status", .str c.capturedStatus.text),
      ("captured_context", context),
      ("captured_history", Document.ofHistory c.capturedHistory),
      ("created_at", .str c.createdAt.documentText),
      ("created_by", .str c.createdBy) ])

/-- A map with texts as keys, or null. -/
def optionalMapping (path : String) : Value → Checked (Option Mapping)
  | .scalar .null => .ok none
  | v             => some <$> Lax.mapping path v

/-- Reads a stored checkpoint; `freshId` is the id of one that has none. -/
def read (now : Timestamp) (freshId : String) : Value → Checked Checkpoint
  | .dict m =>
    Checkpoint.mk
      <$> Checked.field m "" "id" (some freshId) Lax.text
      <*> Checked.field m "" "label" none Lax.text
      <*> Checked.field m "" "captured_step" none Lax.text
      <*> Checked.field m "" "captured_status" none Lax.status
      <*> Checked.field m "" "captured_context" (some none) optionalMapping
      <*> Checked.field m "" "captured_history" (some [])
            (Lax.list (TransitionRecord.read now))
      <*> Checked.field m "" "created_at" (some now) Lax.time
      <*> Checked.field m "" "created_by" (some creator) Lax.text
  | _ => .bad [""]

/-- The stored documents of an execution. -/
def stored (e : Execution) : Except Failure (List Value) := do
  let raw ← e.contextValue (.str checkpointsKey) .null
  if !raw.truthy then .ok []
  else match raw with
    | .list ds => .ok ds
    | _        => .error (.about .stateCorruption "Checkpoint storage is corrupted" e)

/-- The last `limit` items of a list. -/
def newest {α : Type} (limit : Int) (xs : List α) : List α :=
  xs.drop (xs.length - limit.toNat)

/-- The stored documents with one more, the oldest dropped beyond the limit.
    The list that is kept is a new one: what referred to the stored list
    refers to it still, with nothing dropped. -/
def appended (ds : List Value) (d : Value) (limit : Int) : List Value :=
  newest limit (Value.detachedItems (ds ++ [d]))

/-- A context with one more checkpoint, the oldest dropped beyond the
    limit. -/
def store (e : Execution) (c : Checkpoint) (limit : Int) (context : Mapping) :
    Except Failure Mapping := do
  let ds ← stored e
  let d ← c.document
  pure (context.set checkpointsKey (.list (appended ds d limit)))

/-- Does a stored document lack an id? -/
def lacksId : Value → Bool
  | .dict m => !(Mapping.contains m "id")
  | _       => false

/-- Reads stored documents one by one. -/
def readAll (e : Execution) : List Value → Draft (List Checkpoint)
  | []      => pure []
  | d :: ds => do
    let freshId ← if lacksId d then Draft.checkpointId else pure ""
    let now ← Draft.now
    match read now freshId d with
    | .bad fs => Draft.fail (.workflow
        { kind      := .stateCorruption
          message   := "Checkpoint data is corrupted"
          execution := some e
          cause     := some ⟨"ValidationError", some (Checked.sortedFaults fs)⟩ })
    | .ok c   =>
      let cs ← readAll e ds
      pure (c :: cs)

/-- The checkpoints of an execution, the oldest first. -/
def load (e : Execution) : Draft (List Checkpoint) := do
  let ds ← Draft.ofExcept (stored e)
  readAll e (Value.detachedItems ds)

/-- The checkpoint with an id. -/
def find (e : Execution) (id : String) : Draft Checkpoint := do
  let cs ← load e
  match cs.find? fun c => c.id == id with
  | some c => pure c
  | none   => Draft.fail (.about .checkpointNotFound s!"Checkpoint {id} not found" e)

/-- The entry of a checkpoint in a listing. -/
def listed (now : Timestamp) (c : Checkpoint) : Except Failure Value := do
  let age ← elapsedMicros now c.createdAt
  pure (.record
    [ ("id", .str c.id), ("label", .str c.label), ("step", .str c.capturedStep),
      ("created_at", .str c.createdAt.isoText), ("age", .str (ageText age)) ])

/-- The listing of checkpoints. -/
def listAll (now : Timestamp) : List Checkpoint → Except Failure (List Value)
  | []      => .ok []
  | c :: cs => do
    let v ← listed now c
    let vs ← listAll now cs
    pure (v :: vs)

/-- The listing of an execution's checkpoints. -/
def listing (e : Execution) : Draft (List Value) := do
  let cs ← load e
  let now ← Draft.now
  Draft.ofExcept (listAll now cs)

/-- What speaks against restoring a checkpoint. -/
def restorationIssues (settings : RecoverySettings) (now : Timestamp)
    (c : Checkpoint) : Except Failure (List String) := do
  let limit ← (spanMicros 86400 (.real settings.checkpointMaxAgeDays)).mapError
    spanFailure
  let age ← elapsedMicros now c.createdAt
  let days := settings.checkpointMaxAgeDays.displayText
  pure (
    (if age > limit then [s!"Checkpoint is older than {days} days"] else []) ++
    (if c.capturedContext.isNone then ["Checkpoint has no context data"] else []))

end Checkpoint

namespace Engine

/-- The mutation that stores a checkpoint of the present state. -/
def checkpointMutation (g : Engine) (label : Value) : Mutation String :=
  fun current => do
    let c ← Checkpoint.capture current label
    let m ← Draft.ofExcept current.entries
    let context ← Draft.ofExcept
      (Checkpoint.store current c g.settings.recovery.maxCheckpoints m)
    pure (some { current with context := .dict context }, c.id)

/-- Stores a checkpoint of an execution; answers with its id.  A label that
    counts as false stands for the ordinary one. -/
def createCheckpoint (g : Engine) (t : Target) (label : Value) :
    Client String := do
  let now ← Client.now
  let label := if label.truthy then label
    else .str s!"Checkpoint {now.compactText}"
  let (_, id) ← g.mutate t.executionId (g.checkpointMutation label) "checkpoint"
  pure id

/-- Outcome of a recovery or a restoration. -/
structure RecoveryResult where
  strategy       : String
  targetStep     : Option String := none
  checkpointId   : Option String := none
  backupId       : Option String := none
  retryAction    : Option String := none
  retryAvailable : Option Bool := none
  instructions   : List String := []
  plan           : Option Value := none
  execution      : Execution

/-- The mutation that puts a checkpoint's state in place, with a backup of
    the present one; the live list of checkpoints is kept. -/
def restoreMutation (g : Engine) (checkpointId : String) (force : Bool) :
    Mutation String := fun current => do
  let c ← Checkpoint.find current checkpointId
  let now ← Draft.now
  let issues ← if force then pure []
    else Draft.ofExcept (Checkpoint.restorationIssues g.settings.recovery now c)
  if !issues.isEmpty then
    let listed := ", ".intercalate issues
    Draft.fail (.about .recovery s!"Checkpoint validation failed: {listed}" current
      (textDetail "checkpoint_id" checkpointId :: textsDetail "issues" issues))
  let backup ← Checkpoint.capture current
    (.str s!"Before restore from {checkpointId}")
  let context ← Draft.ofExcept (Checkpoint.store current backup
    g.settings.recovery.maxCheckpoints (c.capturedContext.getD []))
  pure (some { current with
    currentStep := .str c.capturedStep
    status      := c.capturedStatus
    context     := .dict context
    history     := c.capturedHistory }, backup.id)

/-- A commit that failed during a restoration is a failed recovery. -/
def restoreFailure (checkpointId : String) (f : Failure) : Failure :=
  match f with
  | .workflow e =>
    if e.kind.isExecution then
      .workflow
        { kind      := .recovery
          message   := s!"Failed to restore from checkpoint: {e.message}"
          execution := e.execution
          details   := .record [("checkpoint_id", .str checkpointId)]
          cause     := some f.cause }
    else f
  | f => f

/-- Restores an execution from one of its checkpoints. -/
def restore (g : Engine) (t : Target) (checkpointId : String) (force : Bool) :
    Client RecoveryResult := do
  let (saved, backupId) ← (g.mutate t.executionId
      (g.restoreMutation checkpointId force) "checkpoint restore").recover
    fun f => .fail (restoreFailure checkpointId f)
  pure
    { strategy     := "restore"
      targetStep   := saved.currentStep.toText?
      checkpointId := some checkpointId
      backupId     := some backupId
      execution    := saved }

end Engine

end Workflow
