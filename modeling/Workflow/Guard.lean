import Workflow.Mapping

/-! # Guard — predicates over a context

    A guard may raise, which counts as false, and may leave the context it
    was given changed; the changed copy is what later guards of the same
    enquiry see.  An entry condition only reads.  Both take any value, for a
    context that was changed without a check need not be a map. -/

namespace Workflow

/-- A guard: its truth value, `none` when it raises, and the context as it
    leaves it. -/
abbrev Guard := Value → Option Bool × Value

/-- An entry condition: its truth value, `none` when it raises. -/
abbrev Condition := Value → Option Bool

/-- Evaluates a guard; raising counts as false. -/
def Guard.holds (g : Guard) (context : Value) : Bool := ((g context).1).getD false

/-- Evaluates a condition; raising counts as false. -/
def Condition.holds (c : Condition) (context : Value) : Bool :=
  (c context).getD false

/-- A guard that only reads. -/
def Condition.toGuard (c : Condition) : Guard := fun context => (c context, context)

/-- A guard as an entry condition: what it does to its copy is lost. -/
def Guard.toCondition (g : Guard) : Condition := fun context => (g context).1

end Workflow
