import Workflow.Engine

/-! # Analysis — the step graph seen from an execution -/

namespace Workflow

/-- What the step graph of a definition looks like from one of its steps. -/
structure GraphAnalysis where
  reachable   : List String
  unreachable : List String
  cycles      : List (List String)
  deadEnds    : List String
  finalStates : List String

namespace Definition

/-- The declared steps from which no final step can be reached. -/
def deadEnds (d : Definition) : List String :=
  d.stepNames.filter fun n =>
    !d.finalSteps.contains n &&
      !(d.graph.reachable n).any fun m => d.finalSteps.contains m

/-- The step graph as seen from a step; without one nothing is reachable. -/
def analyzeFrom (d : Definition) (step : Option String) : GraphAnalysis :=
  let seen := (step.map d.graph.reachable).getD []
  { reachable   := d.stepNames.filter fun n => seen.contains n
    unreachable := d.stepNames.filter fun n => !seen.contains n
    cycles      := d.graph.cycles
    deadEnds    := d.deadEnds
    finalStates := d.finalSteps }

end Definition

/-- An analysis as data. -/
def GraphAnalysis.toValue (a : GraphAnalysis) : Value :=
  .record
    [ ("reachable_steps", .texts a.reachable),
      ("unreachable_steps", .texts a.unreachable),
      ("cycles", .list (a.cycles.map .texts)), ("dead_ends", .texts a.deadEnds),
      ("final_states", .texts a.finalStates) ]

/-- The step graph of an execution's workflow as seen from its step, which
    is refused when it cannot be looked up. -/
def Engine.analyzeGraph (g : Engine) (e : Execution) : Except Failure Value := do
  match ← g.definitionFor e with
  | none   => pure (.record
      [("error", .str s!"Workflow definition '{e.workflowName.display}' not found")])
  | some d =>
    if e.currentStep.isHashable then
      pure (d.analyzeFrom e.currentStep.toText?).toValue
    else .error (.unhashable e.currentStep)

end Workflow
