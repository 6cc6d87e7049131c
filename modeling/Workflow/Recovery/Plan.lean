import Workflow.Recovery.Move

/-! # Plan — what recovery could do

    The plan offers the strategies that fit the snapshot, recommends one,
    and adds what an operator should know before choosing. -/

namespace Workflow

/-- A strategy on offer. -/
structure RecoveryOption where
  strategy    : Strategy
  description : String
  risk        : String
  points      : List RollbackPoint := []

/-- An offer as data; rollback points are listed where there are any. -/
def RecoveryOption.toValue (o : RecoveryOption) : Value :=
  .record ([ ("strategy", .str o.strategy.text),
      ("description", .str o.description), ("risk", .str o.risk) ] ++
    if o.points.isEmpty then []
    else [("options", .list (o.points.map (·.toValue)))])

/-- A plan: the offers and the recommended one. -/
structure RecoveryPlan where
  options     : List RecoveryOption
  recommended : Strategy
  points      : List RollbackPoint

namespace Engine

/-- Did an action fail that could be retried? -/
def canRetryLast (e : Execution) : Bool :=
  decide (e.status = .failed) && e.retryCandidate?.isSome

/-- The plan for an execution that nothing blocks, with its rollback
    points. -/
def planOffers (e : Execution) (points : List RollbackPoint) : RecoveryPlan :=
  { options :=
      (if canRetryLast e then
        [⟨.retryLast, "Retry the last failed action", "low", []⟩] else []) ++
      (if points.isEmpty then []
        else [⟨.rollback, "Rollback to a safe step", "medium", points⟩]) ++
      [⟨.reset, "Reset to a specific step", "high", []⟩]
    recommended :=
      if canRetryLast e then .retryLast
      else if points.isEmpty then .manual else .rollback
    points := points }

/-- Where the execution stands. -/
def recoveryState (e : Execution) : Value :=
  .record
    [ ("step", e.currentStep), ("status", .str e.status.text),
      ("last_updated", .str e.updatedAt.isoText),
      ("context_size", .int e.contextSize),
      ("history_entries", .nat e.history.length) ]

/-- What may make recovery slow or hard. -/
def recoveryRisks (g : Engine) (e : Execution) : List String :=
  let settings := g.settings.recovery
  (if e.contextSize > settings.largeContextBytes then
    ["Large context data may slow recovery"] else []) ++
  (if (e.history.length : Int) > settings.longHistoryEntries then
    ["Long execution history may complicate rollback"] else [])

/-- A score out of a hundred, less for each problem. -/
def integrityScore (g : Engine) (e : Execution) : Except Failure Int := do
  let issues ← g.integrityIssues e
  pure (max (100 - issues.length * g.settings.recovery.integrityDeductionPerIssue) 0)

/-- The soundness of the parts of an execution. -/
def dataIntegrity (g : Engine) (e : Execution) : Except Failure Value := do
  let score ← g.integrityScore e
  let d ← g.definitionFor e
  pure (.record
    [ ("context_valid", .bool (valueProblems true e.context).isEmpty),
      ("history_consistent", .bool (historyIssues d e).isEmpty),
      ("references_valid", .bool (g.subjectIssues e).isEmpty),
      ("overall_score", .int score) ])

/-- The plan as data, or the reasons why there is none. -/
def recoveryPlan (g : Engine) (e : Execution) : Except Failure Value := do
  let blockers ← g.recoveryBlockers e
  if !blockers.isEmpty then
    pure (.record
      [("error", .str "Cannot generate recovery plan"), ("blockers", .texts blockers)])
  else
    let plan := planOffers e (← g.rollbackPoints e)
    let integrity ← g.dataIntegrity e
    pure (.record
      [ ("current_state", recoveryState e),
        ("recovery_options", .list (plan.options.map (·.toValue))),
        ("recommended_action", .str plan.recommended.text),
        ("rollback_points", .list (plan.points.map (·.toValue))),
        ("data_integrity", integrity),
        ("risks", .texts (g.recoveryRisks e)) ])

/-! ## Recovery -/

/-- What an operator has to do by hand. -/
def manualInstructions (target : Value) : List String :=
  let fourth := if target.truthy then s!"4. Consider resetting to step: {target.display}"
    else "4. Choose an appropriate recovery step"
  [ "1. Review the current workflow state and context data",
    "2. Identify the root cause of the failure",
    "3. Make necessary corrections to the context or external systems",
    fourth,
    "5. Create a checkpoint before making changes",
    "6. Test the recovery in a non-production environment if possible" ]

/-- Prepares a recovery by hand: a checkpoint, instructions and the plan.  The
    step that is named must be a text, though none is gone to. -/
def prepareManual (g : Engine) (current : Execution) (target : Value) :
    Client RecoveryResult := do
  let id ← g.createCheckpoint (.snapshot current) (.str "Before manual recovery")
  let saved ← refresh (.str current.id)
  let plan ← Client.ofExcept (g.recoveryPlan saved)
  let targetStep ← Client.ofExcept (Lax.optionalText "target_step" target).toExcept
  pure
    { strategy     := Strategy.manual.text
      targetStep   := targetStep
      checkpointId := some id
      instructions := manualInstructions target
      plan         := some plan
      execution    := saved }

/-- Moves a stuck or failed execution back to a usable step. -/
def recover (g : Engine) (t : Target) (strategy : String) (target : Value)
    (force : Bool) : Client RecoveryResult := do
  let current ← refresh t.executionId
  match Strategy.ofText? strategy with
  | none   => .fail (.about .recovery s!"Unknown recovery strategy: {strategy}" current)
  | some s =>
    let blockers ← Client.ofExcept (g.recoveryBlockers current)
    if !blockers.isEmpty then .fail (blockedFailure blockers current)
    else if s = .manual then g.prepareManual current target
    else g.commitMove current s target force

end Engine

end Workflow
