import Workflow.Execution

/-! # Failure — everything that an operation can fail with

    The workflow's own errors form a taxonomy of sixteen kinds that fixes
    severity and whether a retry may help.  Failures from outside (a store,
    a resolver, a value that does not fit) are kept apart from them. -/

namespace Workflow

/-- The kinds of workflow errors. -/
inductive ErrorKind where
  | workflow
  | definition
  | invalidStep
  | invalidAction
  | transition
  | conditionNotMet
  | invalidTransition
  | context
  | invalidContext
  | permission
  | recovery
  | checkpointNotFound
  | stateCorruption
  | execution
  | concurrentModification
  | configuration
deriving DecidableEq, Inhabited

/-- How grave an error is. -/
inductive Severity where
  | critical
  | high
  | medium
  | low
deriving DecidableEq

/-- The word for a severity. -/
def Severity.text : Severity → String
  | .critical => "critical"
  | .high     => "high"
  | .medium   => "medium"
  | .low      => "low"

namespace ErrorKind

/-- The class name of a kind. -/
def className : ErrorKind → String
  | .workflow               => "WorkflowError"
  | .definition             => "WorkflowDefinitionError"
  | .invalidStep            => "InvalidStepError"
  | .invalidAction          => "InvalidActionError"
  | .transition             => "TransitionError"
  | .conditionNotMet        => "ConditionNotMetError"
  | .invalidTransition      => "InvalidTransitionError"
  | .context                => "ContextError"
  | .invalidContext         => "InvalidContextError"
  | .permission             => "WorkflowPermissionError"
  | .recovery               => "RecoveryError"
  | .checkpointNotFound     => "CheckpointNotFoundError"
  | .stateCorruption        => "StateCorruptionError"
  | .execution              => "WorkflowExecutionError"
  | .concurrentModification => "ConcurrentModificationError"
  | .configuration          => "ConfigurationError"

/-- Every kind. -/
def all : List ErrorKind :=
  [.workflow, .definition, .invalidStep, .invalidAction, .transition,
   .conditionNotMet, .invalidTransition, .context, .invalidContext,
   .permission, .recovery, .checkpointNotFound, .stateCorruption, .execution,
   .concurrentModification, .configuration]

/-- The kind with a given class name. -/
def ofClassName? (s : String) : Option ErrorKind :=
  all.find? (fun k => k.className == s)

/-- A malformed definition, or a name that it does not hold. -/
def isDefinition : ErrorKind → Bool
  | .definition | .invalidStep | .invalidAction => true
  | _ => false

/-- A recovery that could not be carried out. -/
def isRecovery : ErrorKind → Bool
  | .recovery | .checkpointNotFound | .stateCorruption => true
  | _ => false

/-- A mutation that failed to commit. -/
def isExecution : ErrorKind → Bool
  | .execution | .concurrentModification => true
  | _ => false

/-- May the failure go away on retry? -/
def retryable (k : ErrorKind) : Bool := !(k.isDefinition || k == .permission)

/-- Broken definitions and recoveries are critical, refused actions and
    data high, lost commits medium. -/
def severity (k : ErrorKind) : Severity :=
  if k.isDefinition || k.isRecovery then .critical
  else match k with
    | .transition | .conditionNotMet | .invalidTransition => .high
    | .context | .invalidContext => .high
    | .execution | .concurrentModification => .medium
    | _ => .low

end ErrorKind

/-- What an error was raised from: a class name, and the invalid fields when
    it was data that did not fit. -/
structure Cause where
  className : String
  fields    : Option (List String) := none
deriving DecidableEq

/-- An error of the workflow itself.  What it carries as context and details
    is a map, but any value can be given. -/
structure WorkflowError where
  kind      : ErrorKind
  message   : String
  execution : Option Execution := none
  context   : Value := .dict []
  details   : Value := .dict []
  cause     : Option Cause := none

/-- A failed operation. -/
inductive Failure where
  | workflow (e : WorkflowError)
  | invalid (fields : List String)
  | missingKey (key : String)
  | badReference (shown : String)
  | refused (message : String)
  | other (className text : String)

namespace Failure

/-- The class name of a failure. -/
def className : Failure → String
  | .workflow e     => e.kind.className
  | .invalid _      => "ValidationError"
  | .missingKey _   => "KeyError"
  | .badReference _ => "TypeError"
  | .refused _      => "ValueError"
  | .other c _      => c

/-- The text of a failure. -/
def text : Failure → String
  | .workflow e     => e.message
  | .invalid fs     => ", ".intercalate fs
  | .missingKey k   => quotedText k
  | .badReference s => s!"Cannot build a subject reference from {s}"
  | .refused m      => m
  | .other _ t      => t

/-- The text of a failure behind a message; invalid fields are left to the
    cause. -/
def afterMessage : Failure → String
  | .invalid _ => ""
  | f          => ": " ++ f.text

/-- The failure as the cause of another. -/
def cause : Failure → Cause
  | .invalid fs => ⟨"ValidationError", some fs⟩
  | f           => ⟨f.className, none⟩

/-- The execution that a failure carries. -/
def execution? : Failure → Option Execution
  | .workflow e => e.execution
  | _           => none

/-- A value of a kind that an operation cannot take. -/
def wrongType (text : String) : Failure := .other "TypeError" text

/-- A value that cannot be looked up, as it has no hash. -/
def unhashable (v : Value) : Failure :=
  wrongType s!"unhashable type: {quotedText (v.unhashableType?.getD v.typeName)}"

/-- A value out of an operation's range. -/
def wrongValue (text : String) : Failure := .other "ValueError" text

/-- A number beyond its range. -/
def overflow (text : String) : Failure := .other "OverflowError" text

/-- The lack of entries in a value that should be a map. -/
def noEntries (v : Value) : Failure :=
  .other "AttributeError" s!"a value of type {v.typeName} has no entries"

/-- The lack of a type in a value that should be a reference. -/
def noType (v : Value) : Failure :=
  .other "AttributeError" s!"a value of type {v.typeName} has no type of a subject"

/-- A walk through a value that leads back to itself. -/
def endless : Failure := .other "RecursionError" "maximum recursion depth exceeded"

/-- A text that is no status. -/
def unknownStatus (text : String) : Failure :=
  wrongValue s!"{quotedText text} is not a valid ExecutionStatus"

/-- The failure of writing a value that has no JSON text. -/
def unwritable (r : JsonRefusal) : Failure :=
  match r with
  | .circular    => wrongValue r.message
  | .longInteger => wrongValue r.message
  | r            => wrongType r.message

/-- An error of a given kind about an execution. -/
def about (kind : ErrorKind) (message : String) (e : Execution)
    (details : Mapping := []) : Failure :=
  .workflow { kind, message, execution := some e, details := .dict details }

/-- An error of a given kind about no execution. -/
def plain (kind : ErrorKind) (message : String) (details : Mapping := []) :
    Failure :=
  .workflow { kind, message, details := .dict details }

end Failure

/-- A detail whose value is a list of texts. -/
def textsDetail (key : String) (texts : List String) : Mapping :=
  [(.str key, .texts texts)]

/-- A detail whose value is a text. -/
def textDetail (key text : String) : Value × Value := (.str key, .str text)

/-! ## Errors as data -/

namespace Scalar

/-- A scalar in the form that error reports use: a number, a text or null as it is, a
    reference as a map, anything else as its text. -/
def reported : Scalar → Value
  | .time t   => .str t.isoText
  | .status s => .str s.text
  | .bytes b  => .str (quotedBytes b)
  | .ref r    => .record [("type", .str r.type), ("id", .str r.id)]
  | s         => .scalar s

end Scalar

namespace Value

/-- A key in plain form, if it can be shown. -/
def keyDisplay (k : Value) : Except JsonRefusal String :=
  if k.holdsLong then .error .longInteger else .ok k.display

mutual

/-- A value in the form that error reports use: keys and opaque values as plain texts,
    sequences and sets as lists, references as maps.  A later key with the same text
    overwrites. -/
def reported : Value → Except JsonRefusal Value
  | .scalar s   => .ok s.reported
  | .thing c id => .ok (.str (Value.thing c id).display)
  | .list xs    => (reportedItems xs).map .list
  | .tuple xs   => (reportedItems xs).map .list
  | .set xs     => (reportedItems xs).map .list
  | .dict es    => (reportedEntries es).map fun fs => .dict (Mapping.ofEntries fs)
  | .up n       => .ok (.up n)

/-- Each item as reported. -/
def reportedItems : List Value → Except JsonRefusal (List Value)
  | []      => .ok []
  | x :: xs => do
    let y ← reported x
    let ys ← reportedItems xs
    pure (y :: ys)

/-- Each entry as reported. -/
def reportedEntries :
    List (Value × Value) → Except JsonRefusal (List (Value × Value))
  | []           => .ok []
  | (k, v) :: es => do
    let key ← keyDisplay k
    let w ← reported v
    let fs ← reportedEntries es
    pure ((.str key, w) :: fs)

end

mutual

/-- Does the value refer back to an enclosing container? -/
def isCyclic : Value → Bool
  | .list xs  => anyCyclic xs
  | .tuple xs => anyCyclic xs
  | .set xs   => anyCyclic xs
  | .dict es  => anyCyclicEntry es
  | .up _     => true
  | _         => false

/-- Is one of the items cyclic? -/
def anyCyclic : List Value → Bool
  | []      => false
  | x :: xs => isCyclic x || anyCyclic xs

/-- Is the value of one of the entries cyclic? -/
def anyCyclicEntry : List (Value × Value) → Bool
  | []           => false
  | (_, v) :: es => isCyclic v || anyCyclicEntry es

end

end Value

namespace WorkflowError

/-- Does the error carry the execution with this one's id? -/
def belongsTo (e : WorkflowError) (x : Execution) : Bool :=
  match e.execution with
  | some y => y.id == x.id
  | none   => false

/-- An error with any values as context and details; what counts as false is
    no entries. -/
def carrying (e : WorkflowError) (context details : Value) : WorkflowError :=
  let given (v : Value) : Value := if v.truthy then v else .dict []
  { e with context := given context, details := given details }

/-- Does the error carry a value that leads back to itself? -/
def isCyclic (e : WorkflowError) : Bool := e.context.isCyclic || e.details.isCyclic

/-- The error as a map of plain data; what it carries must not be cyclic. -/
def toMapping (now : Timestamp) (e : WorkflowError) : Except JsonRefusal Mapping := do
  let of (f : Execution → Value) := (e.execution.map f).getD .null
  let context ← e.context.reported
  let details ← e.details.reported
  pure
    [ (.str "error_class", .str e.kind.className),
      (.str "message", .str e.message),
      (.str "timestamp", .str now.isoText),
      (.str "execution_id", of fun x => .str x.id),
      (.str "current_step", of Execution.currentStep),
      (.str "workflow_name", of Execution.workflowName),
      (.str "severity", .str e.kind.severity.text),
      (.str "retryable", .bool e.kind.retryable),
      (.str "context", context),
      (.str "details", details) ]

/-- The error as a JSON text. -/
def toJson (now : Timestamp) (e : WorkflowError) : Except JsonRefusal String := do
  Json.write (.dict (← e.toMapping now))

end WorkflowError

end Workflow
