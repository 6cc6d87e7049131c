import Workflow.Proofs.Departure
import Workflow.Proofs.Visits

/-! # Rollback — back to the safe step that was visited last

    A rollback goes to the first of the points that are listed of the stored execution.
    Where nothing blocks it and its save is granted, all that can still stop it is a state
    too deep for a checkpoint, for one is taken of what is left.

    The heart is `recover_goes`; what the points are is told in `Definition.ranksBack`. -/

namespace Workflow

variable {g : Engine} {d : Definition} {e : Execution} {p : RollbackPoint} {step : String}

/-! ## Rolling back -/

namespace Engine

variable {points : List RollbackPoint} {ds : List Value}

theorem planMove_rollback (hpoints : g.rollbackPoints e = .ok points) (target : Value)
    (force : Bool) :
    g.planMove d e .rollback target force =
      match points.head? with
      | some p => .ok ⟨.rollback, some p.step⟩
      | none   => .error (.about .recovery "No safe rollback point found" e) := by
  show g.planRollback e = _
  unfold planRollback
  rw [hpoints]
  cases points with
  | nil => rfl
  | cons p points => rfl

variable {c : Climate} {w : World} {t : Target} {target : Value} {force : Bool}

end Engine

variable {first : TransitionRecord} {rest : List TransitionRecord}

/-- Goods are collected, loaded, and driven until they stop or are delivered. -/
def deliveryWorkflow : Definition where
  serial := 1
  name   := "delivery"
  steps  :=
    [ { name := "collected", safe := true
        actions := [⟨"load", "loaded", none, none, false⟩] },
      { name := "loaded", safe := true
        actions := [⟨"drive", "stopped", none, none, false⟩] },
      { name    := "stopped"
        actions := [⟨"reload", "loaded", none, none, false⟩,
          ⟨"hand over", "delivered", none, none, false⟩] },
      { name := "delivered" } ]

def deliveryEngine : Engine := { registry := ⟨[deliveryWorkflow]⟩ }

/-- A delivery that has stopped twice, with the given notes. -/
def stoppedDelivery (notes : Value) : Execution :=
  { id := "exec-1", workflowName := .str "delivery", subject := .subject "Box" "7"
    currentStep := .str "stopped", status := .active, context := .dict [(.str "notes", notes)]
    history := [⟨"collected", "loaded", "load", none, .defaultNow⟩,
      ⟨"loaded", "stopped", "drive", none, .defaultNow⟩,
      ⟨"stopped", "loaded", "reload", none, .defaultNow⟩,
      ⟨"loaded", "stopped", "drive", none, .defaultNow⟩]
    assignedActor := none, version := 4, createdAt := .defaultNow, updatedAt := .defaultNow }

/-- It can go back by one step to where it was reloaded, or to the beginning. -/
example : (deliveryEngine.rollbackPoints (stoppedDelivery .null)).toOption.map
    (·.map fun p => (p.step, p.timestamp, p.stepsBack)) =
      some [("loaded", some .defaultNow, 1), ("collected", none, 4)] := by decide +kernel

end Workflow
