import Workflow.ActionResult
import Workflow.Backoff
import Workflow.Client
import Workflow.Context
import Workflow.Reference
import Workflow.Registry
import Workflow.Settings

/-! # Engine — moving executions through their definitions

    Every write re-reads the execution, applies a pure mutation to the fresh
    snapshot and commits the proposal by compare-and-swap.  A writer that
    loses re-reads and decides anew rather than pushing its old decision
    through. -/

namespace Workflow

/-- Loads the entity behind a reference; null, or a failure, tells that the
    reference is broken. -/
abbrev Resolver := EntityRef → Except Failure Value

/-- What operations run against. -/
structure Engine where
  registry : Registry := {}
  settings : Settings := {}
  resolver : Option Resolver := none

/-- The execution an operation is about: an id, or a snapshot of it. -/
inductive Target where
  | id (id : Value)
  | snapshot (e : Execution)

namespace Target

/-- The id of the execution. -/
def executionId : Target → Value
  | .id v       => v
  | .snapshot e => e.idValue

/-- The snapshot, if one was given. -/
def snapshot? : Target → Option Execution
  | .id _       => none
  | .snapshot e => some e

end Target

/-- A mutation: from the fresh snapshot, what to write, if anything, and a
    payload for the caller. -/
abbrev Mutation (α : Type) := Execution → Draft (Option Execution × α)

/-! ## Loose arguments -/

/-- The parts of a value that can be gone through. -/
def iterate? : Value → Option (List Value)
  | .list xs  => some (Value.detachedItems xs)
  | .tuple xs => some (Value.detachedComponents xs)
  | .set xs   => some xs
  | .dict es  => some (es.map Prod.fst)
  | .scalar (.bytes b) => some (b.map fun x => .int x.toNat)
  | .scalar (.ref r)   =>
    some [.tuple [.str "type", .str r.type], .tuple [.str "id", .str r.id]]
  | .scalar s => s.toText?.map fun t => t.toList.map fun c => .str (String.singleton c)
  | _         => none

/-- Entries from pairs. -/
def entriesOfPairs : List Value → Except Failure (List (Value × Value))
  | []      => .ok []
  | p :: ps =>
    match iterate? p with
    | none        => .error (.wrongType "cannot convert to a sequence")
    | some [k, v] =>
      if k.isHashable then do
        let es ← entriesOfPairs ps
        pure ((k, v) :: es)
      else .error (.unhashable k)
    | some _      => .error (.wrongValue "2 is required")

/-- A map given loosely: nothing counts as no entries, a sequence of pairs
    as their entries. -/
def looseMapping (v : Value) : Except Failure Mapping :=
  if !v.truthy then .ok []
  else match v with
    | .dict m => .ok (Mapping.copy m)
    | v       =>
      match iterate? v with
      | some ps => (entriesOfPairs ps).map Mapping.ofEntries
      | none    => .error (.wrongType "object is not iterable")

/-! ## An execution under its definition -/

/-- An action of the current step, with whether it is open. -/
structure ActionDetail where
  name         : String
  target       : String
  description  : Option String
  confirmation : Bool
  available    : Bool

namespace Execution

/-- The current step, as the definition declares it. -/
def stepIn? (e : Execution) (d : Option Definition) : Option StepDefinition :=
  d.bind fun d => d.named? e.currentStep

/-- The actions of the current step that are open, in declaration order. -/
def openActions (e : Execution) (d : Option Definition) : List String :=
  match e.stepIn? d with
  | none   => []
  | some s => StepDefinition.openActions s.actions e.context

/-- All actions of the current step. -/
def detailsIn (e : Execution) (d : Option Definition) : List ActionDetail :=
  match e.stepIn? d with
  | none   => []
  | some s =>
    let names := e.openActions d
    s.actions.map fun a =>
      ⟨a.name, a.target, a.description, a.confirmation, names.contains a.name⟩

/-- Does an open action of the current step lead to the step? -/
def leadsTo (e : Execution) (d : Option Definition) (target : Value) : Bool :=
  match e.stepIn? d with
  | none   => false
  | some s =>
    let names := e.openActions d
    s.actions.any fun a => target.equal (.str a.target) && names.contains a.name

end Execution

namespace Engine

/-- The definition of an execution's workflow: only a text names one, and a
    name that cannot be looked up is refused. -/
def definitionFor (g : Engine) (e : Execution) : Except Failure (Option Definition) :=
  if e.workflowName.isHashable then
    .ok (e.workflowName.toText?.bind g.registry.get?)
  else .error (.unhashable e.workflowName)

/-- The entity behind a reference; without a resolver, the reference. -/
def resolveSubject (g : Engine) (r : EntityRef) : Except Failure Value :=
  match g.resolver with
  | none   => .ok (.ref r)
  | some f => f r

/-! ## Queries on a snapshot -/

/-- The actions of the current step that are open, in declaration order. -/
def availableActions (g : Engine) (e : Execution) : Except Failure (List String) :=
  (g.definitionFor e).map e.openActions

/-- All actions of the current step. -/
def actionDetails (g : Engine) (e : Execution) :
    Except Failure (List ActionDetail) :=
  (g.definitionFor e).map e.detailsIn

/-- Does an open action lead to the step? -/
def canTransitionTo (g : Engine) (e : Execution) (target : Value) :
    Except Failure Bool :=
  (g.definitionFor e).map fun d => e.leadsTo d target

/-! ## Reading -/

/-- The latest committed snapshot of an execution. -/
def refresh (id : Value) : Client Execution := do
  match ← Client.load id with
  | some e => pure e
  | none   => .fail (.plain .execution s!"Execution {id.display} not found")

/-- The executions of a subject given loosely. -/
def executionsForSubject (subject : Value) : Client (List Execution) := do
  let r ← Client.ofExcept (EntityRef.toSubject subject)
  Client.findForSubject (.ref r)

/-! ## Creation -/

/-- The error of unfit context data. -/
def invalidContext (problems : List String) (e : Option Execution) : Failure :=
  .workflow
    { kind      := .invalidContext
      message   := "; ".intercalate problems
      execution := e
      details   := .dict (textsDetail "issues" problems) }

/-- The new execution of a workflow at its initial step. -/
def newExecution (workflow initial : String) (subject : EntityRef)
    (actor : Option EntityRef) (context : Mapping) : Draft Execution := do
  let id ← Draft.executionId
  let now ← Draft.now
  pure
    { id, workflowName := .str workflow, subject, currentStep := .str initial
      status := .active, context := .dict context, history := [], assignedActor := actor
      version := 0, createdAt := now, updatedAt := now }

/-- Creates an execution of a registered workflow for a subject. -/
def create (g : Engine) (workflow : String) (subject actor context : Value) :
    Client Execution := do
  match g.registry.get? workflow with
  | none   => .fail (.plain .definition s!"Workflow '{workflow}' is not registered")
  | some d =>
    match d.initialStep? with
    | none         => .fail (.plain .definition s!"Workflow '{workflow}' has no steps")
    | some initial =>
      let context ← Client.ofExcept (looseMapping context)
      let problems := contextProblems false context
      if !problems.isEmpty then .fail (invalidContext problems none)
      else
        let subject ← Client.ofExcept (EntityRef.toSubject subject)
        let actor ← if actor.truthy then
            Client.ofExcept ((EntityRef.toActor actor).map some)
          else pure none
        let e ← Client.draft (newExecution d.name initial subject actor context)
        Client.insert e

/-! ## Atomic mutation -/

/-- The context of an execution that failed, with the reason. -/
def failedContext (current : Execution) (operation : String) (f : Failure)
    (now : Timestamp) : Except Failure Value :=
  current.context.withEntry lastErrorKey (.record
    [ ("operation", .str operation), ("error_class", .str f.className),
      ("message", .str f.text), ("step", current.currentStep),
      ("timestamp", .str now.isoText) ])

/-- Marks an execution as failed as far as the store lets it; answers with
    what is committed then. -/
def markFailed (current : Execution) (operation : String) (f : Failure) :
    Client Execution := do
  let now ← Client.now
  let context ← Client.ofExcept (failedContext current operation f now)
  match ← Client.trySave { current with status := .failed, context } current.version with
  | .ok saved => pure saved
  | .error _  => pure current

/-- The error of giving up after conflicts. -/
def conflictFailure (current : Execution) (operation : String) (attempts : Nat)
    (f : Failure) : Failure :=
  .workflow
    { kind      := .execution
      message   := s!"Could not commit {operation} on execution {current.id}: {attempts} concurrent modification conflicts"
      execution := some (f.execution?.getD current)
      details   := .record
        [("operation", .str operation), ("attempts", .nat attempts)]
      cause     := some f.cause }

/-- The error of an execution that is gone. -/
def disappearedFailure (current : Execution) (operation : String) (f : Failure) :
    Failure :=
  .workflow
    { kind      := .execution
      message   := s!"Execution {current.id} disappeared during {operation}"
      execution := some current
      details   := .record [("operation", .str operation)]
      cause     := some f.cause }

/-- The error of a store that failed. -/
def commitFailure (current committed : Execution) (operation : String)
    (f : Failure) : Failure :=
  .workflow
    { kind      := .execution
      message   := s!"Failed to commit {operation} on execution {current.id}{f.afterMessage}"
      execution := some committed
      details   := .record
        [("operation", .str operation), ("original_error", .str f.className)]
      cause     := some f.cause }

/-- Did the save lose against another writer? -/
def isConflict : Failure → Bool
  | .workflow e => e.kind == .concurrentModification
  | _           => false

/-- Waits before the retry that follows an attempt. -/
def waitForRetry (settings : EngineSettings) (attempt : Nat) : Client Unit := do
  let u ← Client.draw
  match backoffDelay (.whole attempt) (.real settings.retryBackoffInitial) defaultFactor
      (.real settings.retryBackoffJitter) u with
  | .ok delay => Client.sleep delay
  | .error _  => .fail (.overflow "Numerical result out of range")

/-- Ends an attempt whose save failed for a reason other than a conflict. -/
def abandon {α : Type} (current : Execution) (operation : String)
    (failOnError : Bool) (f : Failure) : Client α := do
  match f with
  | .missingKey _ => .fail (disappearedFailure current operation f)
  | .workflow _   => .fail f
  | f =>
    let committed ← if failOnError then markFailed current operation f
      else pure current
    .fail (commitFailure current committed operation f)

/-- Has the monotonic clock reached the deadline? -/
def isPast (clock deadline : Binary64) : Bool :=
  match clock.compare? deadline with
  | some .lt => false
  | some _   => true
  | none     => false

/-- What one attempt to commit came to. -/
inductive Attempt (α : Type) where
  | settled (e : Execution) (payload : α)
  | conflicted (current : Execution) (f : Failure)

/-- One attempt to commit a mutation: a fresh read, an evaluation and, when
    something is proposed, a save.  Only a conflict leaves room for
    another. -/
def attemptOnce {α : Type} (id : Value) (fn : Mutation α) (operation : String)
    (failOnError : Bool) : Client (Attempt α) := do
  let current ← refresh id
  let (proposed, payload) ← Client.draft (fn current)
  match proposed with
  | none          => pure (.settled current payload)
  | some proposal =>
    match ← Client.trySave proposal current.version with
    | .ok saved => pure (.settled saved payload)
    | .error f  =>
      if isConflict f then pure (.conflicted current f)
      else abandon current operation failOnError f

/-- Attempts to commit a mutation until one save succeeds.  After the
    attempt with the given number, `retries` more may follow. -/
def attemptCommit {α : Type} (g : Engine) (id : Value) (fn : Mutation α)
    (operation : String) (failOnError : Bool) (deadline : Binary64)
    (attempt : Nat) : Nat → Client (Execution × α)
  | 0 => do
    match ← attemptOnce id fn operation failOnError with
    | .settled e payload    => pure (e, payload)
    | .conflicted current f => .fail (conflictFailure current operation attempt f)
  | retries + 1 => do
    match ← attemptOnce id fn operation failOnError with
    | .settled e payload    => pure (e, payload)
    | .conflicted current f =>
      let clock ← Client.elapsed
      if isPast clock deadline then
        .fail (conflictFailure current operation attempt f)
      else
        waitForRetry g.settings.engine attempt
        attemptCommit g id fn operation failOnError deadline (attempt + 1) retries

/-- Reads, applies the mutation and commits, retrying after conflicts as
    often and as long as the settings allow. -/
def mutate {α : Type} (g : Engine) (id : Value) (fn : Mutation α)
    (operation : String := "mutation") (failOnError : Bool := false) :
    Client (Execution × α) := do
  let start ← Client.elapsed
  attemptCommit g id fn operation failOnError
    (start.add g.settings.engine.conflictTimeout) 1
    (g.settings.engine.maxConflictRetries - 1).toNat

/-! ## Actions -/

/-- Why an action is refused: its errors decide between a closed action and
    unmet conditions by the words that name the action. -/
def rejectionReason (e : Execution) (action : Value) (errors : List String) :
    Rejection :=
  if e.status ≠ .active then .notActive
  else if errors.any fun t =>
      Value.occursIn s!"Action '{action.display}'".toList t.toList then
    .actionUnavailable
  else .conditionsUnmet

/-- The snapshot after an action of a step, with the context it has then. -/
def advance (d : Definition) (current : Execution) (s : StepDefinition)
    (a : ActionDefinition) (actor : Option EntityRef) (context : Value)
    (now : Timestamp) : Execution :=
  { current with
    currentStep   := .str a.target
    context       := context
    history       := current.history ++ [⟨s.name, a.target, a.name, actor, now⟩]
    status        := if d.isFinalStep a.target then .completed else current.status
    assignedActor := actor.or current.assignedActor }

/-- The mutation of an action: a refusal, or the snapshot after it. -/
def performMutation (g : Engine) (action : Value) (actor : Option EntityRef)
    (additional : Mapping) : Mutation (Option (List String × Rejection)) :=
  fun current => do
    match ← Draft.ofExcept (g.definitionFor current) with
    | none   =>
      pure (none, some ([s!"Workflow definition '{current.workflowName.display}' not found"],
        .definitionMissing))
    | some d =>
      let isOpen := action.toText?.any (current.openActions d).contains
      let errors := transitionIssues d current action isOpen
      if !errors.isEmpty then
        pure (none, some (errors, rejectionReason current action errors))
      else
        let step ← Draft.ofExcept (d.requireStep current.currentStep)
        let a ← Draft.ofExcept (step.requireAction action)
        let context ← Draft.ofExcept (current.context.updated additional)
        let now ← Draft.now
        pure (some (advance d current step a actor context now), none)

/-- Performs an action: validates it against the fresh snapshot and commits
    it as a whole.  Problems come back as a refusal; a store that fails
    leaves the execution marked as failed. -/
def perform (g : Engine) (target : Target) (action actor additional : Value) :
    Client ActionResult := do
  let additional ← Client.ofExcept (looseMapping additional)
  let problems := contextProblems false additional
  if !problems.isEmpty then
    pure (.rejected problems .invalidContext target.snapshot?)
  else
    let actor ← match actor with
      | .scalar .null => pure none
      | v             => Client.ofExcept ((EntityRef.toActor v).map some)
    let (result, rejection) ← g.mutate target.executionId
      (g.performMutation action actor additional) s!"action {action.display}" true
    match rejection with
    | some (errors, reason) => pure (.rejected errors reason (some result))
    | none                  => pure (.done result)

/-! ## Context and status -/

/-- The mutation that merges values into the context. -/
def mergeMutation (values : Mapping) : Mutation Unit := fun current => do
  let context ← Draft.ofExcept (current.context.updated values)
  pure (some { current with context }, ())

/-- Merges values into the context of an execution. -/
def mergeContext (g : Engine) (target : Target) (values : Value) :
    Client Execution := do
  let problems := valueProblems false values
  if !problems.isEmpty then .fail (invalidContext problems target.snapshot?)
  else
    let values ← Client.ofExcept (looseMapping values)
    let (updated, _) ← g.mutate target.executionId (mergeMutation values) "context merge"
    pure updated

/-- The mutation that moves the status, refused from any other status. -/
def statusMutation (expected target : Status) : Mutation (List String) :=
  fun current =>
    if current.status = expected then
      pure (some { current with status := target }, [])
    else pure (none,
      [s!"Cannot move execution from {current.status.text} to {target.text}"])

/-- Moves the status of an execution. -/
def setStatus (g : Engine) (t : Target) (expected target : Status) :
    Client ActionResult := do
  let (result, errors) ← g.mutate t.executionId (statusMutation expected target)
    s!"status change to {target.text}"
  if errors.isEmpty then pure (.done result)
  else pure (.rejected errors .invalidStatus (some result))

/-- Suspends an active execution. -/
def pause (g : Engine) (t : Target) : Client ActionResult :=
  g.setStatus t .active .paused

/-- Takes a suspended execution up again. -/
def resume (g : Engine) (t : Target) : Client ActionResult :=
  g.setStatus t .paused .active

end Engine

end Workflow
