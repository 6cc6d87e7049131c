import Workflow.Recovery.Integrity

/-! # Repair — safe fixes of a damaged execution

    Missing required keys are filled with their declared defaults, and an
    unknown current step is reset to the initial one.  With nothing to
    repair nothing is written. -/

namespace Workflow

/-- What a repair did and what remains. -/
structure RepairReport where
  repairs   : List String
  remaining : List String
  execution : Execution

namespace Engine

/-- The definition of an execution's workflow, or an error. -/
def requireDefinition (g : Engine) (e : Execution) : Except Failure Definition := do
  match ← g.definitionFor e with
  | some d => .ok d
  | none   => .error (.about .recovery
      s!"Workflow definition '{e.workflowName.display}' not found" e)

/-- A context with every missing required key filled in, and the keys that
    were missing. -/
def fillMissing (d : Definition) : List String → Mapping → Mapping × List String
  | [],      context => (context, [])
  | k :: ks, context =>
    if context.contains k then fillMissing d ks context
    else
      let (filled, missing) := fillMissing d ks (context.set k (d.defaultFor k))
      (filled, k :: missing)

/-- A context with every missing required key filled in, and the keys that
    were missing; only a map can be filled. -/
def fillContext (d : Definition) (context : Value) :
    Except Failure (Value × List String) := do
  match context with
  | .dict m =>
    let (filled, missing) := fillMissing d d.requiredKeys m
    pure (.dict filled, missing)
  | v       =>
    match ← v.lacking d.requiredKeys with
    | []     => pure (v, [])
    | k :: _ => pure (← v.withEntry k (d.defaultFor k), [k])

/-- The record of a move that the system makes to a step.  A definition
    without steps has none to move to. -/
def systemRecord (fromStep toStep : Option String) (action : String)
    (now : Timestamp) : Except Failure TransitionRecord :=
  match fromStep, toStep with
  | some a, some b => .ok ⟨a, b, action, some .systemRecovery, now⟩
  | none,   some _ => .error (.invalid ["from_step"])
  | some _, none   => .error (.invalid ["to_step"])
  | none,   none   => .error (.invalid ["from_step", "to_step"])

/-- The action under which an unknown step is reset. -/
def resetAction : String := "auto_repair:reset_step"

/-- Resets an unknown current step to the initial one. -/
def resetStep (d : Definition) (current : Execution) :
    Draft (Execution × List String) := do
  let initial := d.initialStep?
  let source := match current.lastTransition? with
    | some r => some r.toStep
    | none   => initial
  let now ← Draft.now
  let record ← Draft.ofExcept (systemRecord source initial resetAction now)
  let reopened := decide (current.status = .completed)
  pure ({ current with
      currentStep := .str record.toStep
      history     := current.history ++ [record]
      status      := if reopened then .active else current.status },
    s!"Reset invalid current step '{current.currentStep.display}' to initial step '{record.toStep}'" ::
      if reopened then ["Reopened completed execution at initial step"] else [])

/-- The mutation that repairs an execution. -/
def repairMutation (g : Engine) : Mutation (List String) := fun current => do
  let d ← Draft.ofExcept (g.requireDefinition current)
  let (context, missing) ← Draft.ofExcept (fillContext d current.context)
  let filled := missing.map fun k => s!"Added missing context field: {k}"
  let (repaired, resets) ←
    if (d.named? current.currentStep).isSome then pure (current, [])
    else resetStep d current
  let repairs := filled ++ resets
  if repairs.isEmpty then pure (none, [])
  else pure (some { repaired with context }, repairs)

/-- Repairs an execution and reports what is still wrong. -/
def autoRepair (g : Engine) (t : Target) : Client RepairReport := do
  let (saved, repairs) ← g.mutate t.executionId g.repairMutation "auto repair"
  let remaining ← Client.ofExcept (g.integrityIssues saved)
  pure ⟨repairs, remaining, saved⟩

end Engine

end Workflow
