import Workflow.Json.Plain
import Workflow.Recovery.Plan

/-! # Diagnostics — all that an operator needs to analyse an execution

    The parts are collected in a fixed order, the first that fails fails
    the whole, and the names are brought into plain form, as they may be
    any values. -/

namespace Workflow

namespace Engine

/-- The diagnostics as data. -/
def diagnosticsData (g : Engine) (e : Execution) : Draft Value := do
  let blockers ← Draft.ofExcept (g.recoveryBlockers e)
  let integrity ← Draft.ofExcept (g.integrity e)
  let plan ← Draft.ofExcept (g.recoveryPlan e)
  let checkpoints ← Checkpoint.listing e
  let now ← Draft.now
  let report ← Draft.ofExcept (g.debugReport now e)
  pure (.record
    [ ("execution", .record
        [ ("id", e.idValue), ("workflow_name", e.workflowName),
          ("current_step", e.currentStep), ("status", .str e.status.text),
          ("context_size", .int e.contextSize) ]),
      ("recovery_analysis", .record
        [ ("can_recover", .bool blockers.isEmpty), ("blockers", .texts blockers),
          ("recovery_plan", plan) ]),
      ("integrity_check", integrity.toValue),
      ("available_checkpoints", .list checkpoints),
      ("debug_info", report),
      ("exported_at", .str now.isoText) ])

/-- The diagnostics in a format: a mapping, its JSON text with every part on
    a line of its own, or a mapping that is meant to be laid out as YAML. -/
def diagnostics (g : Engine) (e : Execution) (format : String) : Draft Value := do
  let collected ← g.diagnosticsData e
  let data ← Draft.ofExcept ((Json.plain collected).mapError Failure.unwritable)
  if format = "json" then pure (.str (Json.pretty 0 data))
  else if format = "dict" ∨ format = "yaml" then pure data
  else Draft.fail (.refused s!"Unsupported diagnostics format: {format}")

end Engine

end Workflow
