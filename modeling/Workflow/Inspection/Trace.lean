import Workflow.Engine
import Workflow.Value.Measure

/-! # Trace — the history of an execution, analysed

    Counts over the history and the list of its transitions with the time
    that each one took. -/

namespace Workflow

/-- The refusal of arithmetic on times of which only one has a zone. -/
def mixedZones : Failure :=
  .wrongType "can't subtract offset-naive and offset-aware datetimes"

/-- Elapsed microseconds between two times. -/
def elapsedMicros (later earlier : Timestamp) : Except Failure Int :=
  match later.since? earlier with
  | some d => .ok d
  | none   => .error mixedZones

/-- The failure of a span that cannot be computed. -/
def spanFailure : NumericError → Failure
  | .overflow   => .overflow "days out of range"
  | .notANumber => .wrongValue "cannot convert float NaN to integer"
  | .wrongKind  => .wrongType "unsupported operand type"
  | .notReal    => .wrongType "unsupported operand type"
  | .tooLong    => .wrongValue "Exceeds the limit for integer string conversion"
  | .noRoom     => .other "MemoryError" ""

namespace History

/-- Number of records that lead to a step that an earlier one led to. -/
def backtracking (seen : List String) : List TransitionRecord → Nat
  | []      => 0
  | r :: rs =>
    (if seen.contains r.toStep then 1 else 0) + backtracking (r.toStep :: seen) rs

/-- Number of distinct actors. -/
def uniqueActors (rs : List TransitionRecord) : Nat :=
  ((rs.filterMap fun r => r.actor.map fun a => (a.type, a.id)).eraseDups).length

/-- The counts over a history. -/
def analysis (rs : List TransitionRecord) : Value :=
  .record
    [ ("total_transitions", .nat rs.length),
      ("unique_actors", .nat (uniqueActors rs)),
      ("step_frequency", tallyValue (rs.map (·.toStep))),
      ("action_frequency", tallyValue (rs.map (·.action))),
      ("backtracking_instances", .nat (backtracking [] rs)) ]

/-- The entry of one transition, which began at `previous`. -/
def traceEntry (number : Nat) (previous : Timestamp) (r : TransitionRecord) :
    Except Failure Value := do
  let micros ← elapsedMicros r.timestamp previous
  pure (.record
    [ ("step_number", .nat number), ("from_step", .str r.fromStep),
      ("to_step", .str r.toStep), ("action", .str r.action),
      ("actor", .optionalText (r.actor.map (·.label))),
      ("timestamp", .str r.timestamp.isoText),
      ("duration", .str (durationText micros)) ])

/-- The entries of transitions numbered from `number`. -/
def traceFrom (number : Nat) (previous : Timestamp) :
    List TransitionRecord → Except Failure (List Value)
  | []      => .ok []
  | r :: rs => do
    let v ← traceEntry number previous r
    let vs ← traceFrom (number + 1) r.timestamp rs
    pure (v :: vs)

end History

/-- The transitions of an execution, each with the time since the one
    before, the first since the creation. -/
def Execution.trace (e : Execution) : Except Failure (List Value) :=
  History.traceFrom 1 e.createdAt e.history

end Workflow
