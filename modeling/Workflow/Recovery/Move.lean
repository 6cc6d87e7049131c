import Workflow.Recovery.Checkpoint
import Workflow.Recovery.Repair

/-! # Move — bringing an execution back to a usable step

    A move retries the last action of a caller, rolls back to a safe step,
    or resets to a chosen one.  It is planned against the fresh snapshot,
    with a checkpoint of that snapshot in the same commit, and recorded so
    that the history keeps chaining. -/

namespace Workflow

/-- How to recover. -/
inductive Strategy where
  | auto
  | rollback
  | reset
  | retryLast
  | manual
deriving DecidableEq

namespace Strategy

/-- The word for a strategy. -/
def text : Strategy → String
  | .auto      => "auto"
  | .rollback  => "rollback"
  | .reset     => "reset"
  | .retryLast => "retry_last"
  | .manual    => "manual"

/-- The strategy that a word denotes. -/
def ofText? (s : String) : Option Strategy :=
  [auto, rollback, reset, retryLast, manual].find? fun t => t.text == s

end Strategy

/-- What the actions of the system itself begin with. -/
def systemPrefixes : List String := ["recovery:", "auto_repair:"]

/-- Is the action one of the system itself? -/
def isSystemAction (action : String) : Bool :=
  systemPrefixes.any fun p => p.toList.isPrefixOf action.toList

/-- A safe step that the execution has been at. -/
structure RollbackPoint where
  step        : String
  timestamp   : Option Timestamp
  stepsBack   : Nat
  description : String
deriving DecidableEq

/-- A rollback point as data. -/
def RollbackPoint.toValue (p : RollbackPoint) : Value :=
  .record
    [ ("step", .str p.step),
      ("timestamp", .optionalText (p.timestamp.map (·.isoText))),
      ("steps_back", .nat p.stepsBack), ("description", .str p.description) ]

/-- The last transition made by a caller rather than by the system. -/
def Execution.retryCandidate? (e : Execution) : Option TransitionRecord :=
  e.history.reverse.find? fun r => !isSystemAction r.action

/-- The steps an execution has been at, with the time it got there. -/
def Execution.visited (e : Execution) : List (String × Option Timestamp) :=
  match e.history with
  | []     => []
  | r :: _ => (r.fromStep, none) ::
      e.history.map fun r => (r.toStep, some r.timestamp)

namespace Definition

/-- The description of a safe step; its name where there is none. -/
def pointDescription (d : Definition) (step : String) : String :=
  match (d.findStep? step).bind (·.description) with
  | none    => s!"Step: {step}"
  | some "" => s!"Step: {step}"
  | some t  => t

/-- The safe steps among visited ones, given the nearest first; a step that
    was seen before is passed over. -/
def rollbackPoints (d : Definition) (seen : List String) (stepsBack : Nat) :
    List (String × Option Timestamp) → List RollbackPoint
  | []           => []
  | (s, t) :: vs =>
    if seen.contains s || !d.safeSteps.contains s then
      rollbackPoints d seen (stepsBack + 1) vs
    else ⟨s, t, stepsBack, d.pointDescription s⟩ ::
      rollbackPoints d (s :: seen) (stepsBack + 1) vs

end Definition

namespace Engine

/-- The safe steps visited before the current one, the nearest first; with a
    history, a step that cannot be looked up is refused. -/
def rollbackPoints (g : Engine) (e : Execution) :
    Except Failure (List RollbackPoint) := do
  match ← g.definitionFor e, e.history with
  | none,   _  => pure []
  | some _, [] => pure []
  | some d, _  =>
    if e.currentStep.isHashable then
      pure (d.rollbackPoints e.currentStep.toText?.toList 0 e.visited.reverse)
    else .error (.unhashable e.currentStep)

/-- Would the action to retry be open on the present context? -/
def retryGuardHolds (d : Definition) (e : Execution) : Bool :=
  match e.retryCandidate? with
  | none   => false
  | some r =>
    match (d.findStep? r.fromStep).bind (·.findAction? r.action) with
    | some a => a.isAvailable e.context
    | none   => false

/-! ## Blockers -/

/-- Reasons against recovery that the snapshot itself shows. -/
def staticBlockers (g : Engine) (e : Execution) : Except Failure (List String) := do
  let d ← g.definitionFor e
  pure ((if e.status = .completed then ["Workflow is already completed"] else []) ++
  (if (valueProblems true e.context).isEmpty then []
    else ["Context data appears corrupted"]) ++
  (if d.isSome then []
    else [s!"Workflow definition '{e.workflowName.display}' is missing"]))

/-- Every reason against recovery. -/
def recoveryBlockers (g : Engine) (e : Execution) : Except Failure (List String) := do
  let blockers ← g.staticBlockers e
  pure (blockers ++
    if (g.subjectIssues e).isEmpty then []
    else ["Subject reference cannot be resolved"])

/-- Can the execution be recovered? -/
def canRecover (g : Engine) (e : Execution) : Except Failure Bool :=
  (g.recoveryBlockers e).map List.isEmpty

/-- The error that lists blockers. -/
def blockedFailure (blockers : List String) (e : Execution) : Failure :=
  let listed := ", ".intercalate blockers
  .about .recovery s!"Workflow cannot be recovered: {listed}" e
    (textsDetail "blockers" blockers)

/-! ## Moves -/

/-- A planned move: the strategy chosen and the step it leads to. -/
structure Move where
  strategy : Strategy
  target   : Option String

/-- The move of a rollback. -/
def planRollback (g : Engine) (e : Execution) : Except Failure Move := do
  match ← g.rollbackPoints e with
  | p :: _ => .ok ⟨.rollback, some p.step⟩
  | []     => .error (.about .recovery "No safe rollback point found" e)

/-- The move of a reset to a given step, which must be one that the
    definition knows. -/
def planReset (d : Definition) (e : Execution) (target : Value) :
    Except Failure Move :=
  if !target.truthy then .error (.about .recovery "Target step required for reset" e)
  else match d.named? target with
    | some s => .ok ⟨.reset, some s.name⟩
    | none   => .error (.about .recovery s!"Invalid target step: {target.display}" e)

/-- The move of a retry. -/
def planRetry (d : Definition) (e : Execution) (force : Bool) : Except Failure Move :=
  match e.retryCandidate? with
  | none   => .error (.about .recovery "No action history to retry" e)
  | some r =>
    if !force && !retryGuardHolds d e then
      .error (.about .recovery
        s!"Action '{r.action}' would not be available after re-entering '{r.fromStep}'"
        e [textDetail "action" r.action, textDetail "step" r.fromStep])
    else .ok ⟨.retryLast, some r.fromStep⟩

/-- The move back to a safe step, or to the start where there is none. -/
def planReturn (g : Engine) (d : Definition) (e : Execution) : Except Failure Move := do
  match ← g.rollbackPoints e with
  | p :: _ => pure ⟨.rollback, some p.step⟩
  | []     => pure ⟨.reset, d.initialStep?⟩

/-- The move chosen without a given strategy: a retry after a failure if
    there is one to make, else a rollback, else a reset to the start. -/
def planAuto (g : Engine) (d : Definition) (e : Execution) (force : Bool) :
    Except Failure Move :=
  match e.retryCandidate? with
  | some r =>
    if e.status = .failed ∧ (force || retryGuardHolds d e) then
      .ok ⟨.retryLast, some r.fromStep⟩
    else g.planReturn d e
  | none   => g.planReturn d e

/-- The move that a strategy comes to on a snapshot. -/
def planMove (g : Engine) (d : Definition) (e : Execution) (strategy : Strategy)
    (target : Value) (force : Bool) : Except Failure Move :=
  match strategy with
  | .auto     => g.planAuto d e force
  | .rollback => g.planRollback e
  | .reset    => planReset d e target
  | _         => planRetry d e force

/-- What a committed move came to. -/
structure Moved where
  move         : Move
  target       : String
  checkpointId : String
  retried      : Option TransitionRecord

/-- The mutation that moves an execution. -/
def moveMutation (g : Engine) (strategy : Strategy) (target : Value)
    (force : Bool) : Mutation (Option Moved) := fun fresh => do
  let blockers ← Draft.ofExcept (g.staticBlockers fresh)
  if !blockers.isEmpty then Draft.fail (blockedFailure blockers fresh)
  let d ← Draft.ofExcept (g.requireDefinition fresh)
  let move ← Draft.ofExcept (g.planMove d fresh strategy target force)
  let shown := move.target.getD "None"
  let c ← Checkpoint.capture fresh
    (.str s!"Before {move.strategy.text} to {shown}")
  let now ← Draft.now
  let record ← Draft.ofExcept (systemRecord (some c.capturedStep) move.target
    s!"recovery:{move.strategy.text}" now)
  let m ← Draft.ofExcept fresh.entries
  let context ← Draft.ofExcept (Checkpoint.store fresh c
    g.settings.recovery.maxCheckpoints m)
  let retried := if move.strategy = .retryLast then fresh.retryCandidate? else none
  pure (some { fresh with
    currentStep := .str record.toStep
    status      := .active
    context     := .dict context
    history     := fresh.history ++ [record] },
    some ⟨move, record.toStep, c.id, retried⟩)

/-- Commits a move; without one to commit nothing is reported. -/
def commitMove (g : Engine) (current : Execution) (strategy : Strategy)
    (target : Value) (force : Bool) : Client RecoveryResult := do
  let (saved, moved) ← g.mutate (.str current.id)
    (g.moveMutation strategy target force)
    s!"recovery {strategy.text}"
  match moved with
  | none   => pure { strategy := strategy.text, execution := saved }
  | some m =>
    let names ← Client.ofExcept (g.availableActions saved)
    pure
      { strategy       := m.move.strategy.text
        targetStep     := some m.target
        checkpointId   := some m.checkpointId
        retryAction    := m.retried.map (·.action)
        retryAvailable := m.retried.map fun r => names.contains r.action
        execution      := saved }

end Engine

end Workflow
