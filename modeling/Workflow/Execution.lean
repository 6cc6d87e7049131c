import Workflow.Mapping
import Workflow.Json.Writer

/-! # Execution — the snapshot of one workflow instance

    An execution is a value: an operation that moves it produces a new
    snapshot, and the store decides whether that one becomes current.  The
    context also carries two reserved entries for bookkeeping.  Changes may
    be made without a check, so the names and the context are any values, and
    what is no id or no version is kept aside: a sound execution has texts as
    names, a map as context and nothing aside. -/

namespace Workflow

/-- The reserved entry that holds the stored checkpoints. -/
def checkpointsKey : String := "_checkpoints"

/-- The reserved entry that tells why an execution failed. -/
def lastErrorKey : String := "_last_error"

/-- Is the text a reserved key? -/
def isReservedName (s : String) : Bool :=
  s == checkpointsKey || s == lastErrorKey

/-- Is the key reserved? -/
def isReserved (key : Value) : Bool :=
  match key.toText? with
  | some s => isReservedName s
  | none   => false

/-- One committed transition. -/
structure TransitionRecord where
  fromStep  : String
  toStep    : String
  action    : String
  actor     : Option EntityRef
  timestamp : Timestamp
deriving DecidableEq, Inhabited

/-- Snapshot of one workflow instance bound to a subject. -/
structure Execution where
  id            : String
  workflowName  : Value
  subject       : EntityRef
  currentStep   : Value
  status        : Status
  context       : Value
  history       : List TransitionRecord
  assignedActor : Option EntityRef
  version       : Int
  createdAt     : Timestamp
  updatedAt     : Timestamp
  aside         : Mapping := []
deriving Inhabited

namespace TransitionRecord

/-- Equality by value; moments compare as instants. -/
def equal (r s : TransitionRecord) : Bool :=
  r.fromStep == s.fromStep && r.toStep == s.toStep && r.action == s.action &&
    r.actor == s.actor && r.timestamp.sameMoment s.timestamp

end TransitionRecord

namespace Execution

/-- The execution under another id, which nothing has checked. -/
def withId (e : Execution) (v : Value) : Execution :=
  let aside := e.aside.erase "id"
  match v.toText? with
  | some id => { e with id, aside }
  | none    => { e with aside := aside.set "id" v }

/-- The execution with another version, which nothing has checked. -/
def withVersion (e : Execution) (v : Value) : Execution :=
  let aside := e.aside.erase "version"
  match v with
  | .scalar (.int version) => { e with version, aside }
  | v                      => { e with aside := aside.set "version" v }

/-- The id, or what stands in its place. -/
def idValue (e : Execution) : Value := (e.aside.field? "id").getD (.str e.id)

/-- The version, or what stands in its place. -/
def versionValue (e : Execution) : Value :=
  (e.aside.field? "version").getD (.int e.version)

/-- The last committed transition. -/
def lastTransition? (e : Execution) : Option TransitionRecord :=
  e.history.getLast?

/-- Size in bytes of the context's lenient JSON text, or -1 without one.
    The text is ASCII, so bytes are characters. -/
def contextSize (e : Execution) : Int :=
  match Json.encode true e.context with
  | .ok cs   => cs.length
  | .error _ => -1

/-- Equality by value of two history lists. -/
def sameHistory : List TransitionRecord → List TransitionRecord → Bool
  | [],      []      => true
  | r :: rs, s :: ss => r.equal s && sameHistory rs ss
  | _,       _       => false

/-- Equality by value. -/
def equal (e f : Execution) : Bool :=
  e.id == f.id && e.workflowName.equal f.workflowName && e.subject == f.subject &&
    e.currentStep.equal f.currentStep && e.status == f.status &&
    e.context.equal f.context &&
    sameHistory e.history f.history && e.assignedActor == f.assignedActor &&
    e.version == f.version && e.createdAt.sameMoment f.createdAt &&
    e.updatedAt.sameMoment f.updatedAt

end Execution

/-! ## Checks of context data -/

/-- The problem with one key, if any: a key must be a text, and a reserved
    one only where allowed. -/
def keyProblem? (allowReserved : Bool) (key : Value) : Option String :=
  match key.toText? with
  | none      => some s!"Context key {key.shown} is not a string"
  | some name =>
    if !allowReserved && isReservedName name then
      some s!"Context key '{name}' is reserved"
    else none

/-- The problem with the data as a whole, if it has no JSON text. -/
def dataProblem? (m : Mapping) : Option String :=
  match Json.encode false (.dict m) with
  | .ok _    => none
  | .error r =>
    some s!"Context data is corrupted or not serializable: {r.message}"

/-- Every problem of a map as context data. -/
def contextProblems (allowReserved : Bool) (m : Mapping) : List String :=
  m.filterMap (fun e => keyProblem? allowReserved e.1) ++
    (dataProblem? m).toList

/-- Every problem of a value as context data: it must be a map. -/
def valueProblems (allowReserved : Bool) (v : Value) : List String :=
  match v with
  | .dict m => contextProblems allowReserved m
  | v       => [s!"Context must be a mapping, got {v.typeName}"]

end Workflow
