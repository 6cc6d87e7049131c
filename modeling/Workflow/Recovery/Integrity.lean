import Workflow.Engine
import Workflow.Inspection.Report
import Workflow.Text.Lowercase

/-! # Integrity — is the state of an execution sound?

    The report collects problems of the context, the history, the current
    step and the subject, grades them by their words and their number, and
    recommends what to do. -/

namespace Workflow

/-- How grave the problems of an execution are. -/
inductive IntegritySeverity where
  | none
  | low
  | medium
  | high
  | critical
deriving DecidableEq

/-- The word for a severity. -/
def IntegritySeverity.text : IntegritySeverity → String
  | .none     => "none"
  | .low      => "low"
  | .medium   => "medium"
  | .high     => "high"
  | .critical => "critical"

/-- The findings on an execution. -/
structure IntegrityReport where
  issues          : List String
  severity        : IntegritySeverity
  recommendations : List String

namespace IntegrityReport

/-- Words that make a problem critical. -/
def criticalWords : List String :=
  ["corrupt", "missing", "broken", "invalid", "not defined", "not found"]

/-- Does a text in lower case hold a word? -/
def mentions (lowered : List Char) (word : String) : Bool :=
  Value.occursIn word.toList lowered

/-- The grade of a list of problems. -/
def severityOf (issues : List String) : IntegritySeverity :=
  if issues.isEmpty then .none
  else if issues.any fun i => criticalWords.any (mentions (lowerChars i)) then .critical
  else if issues.length > 5 then .high
  else if issues.length > 2 then .medium
  else .low

/-- What to do about a list of problems. -/
def recommendationsFor (issues : List String) : List String :=
  let lowered := lowerChars (" ".intercalate issues)
  let when (word advice : String) : List String :=
    if mentions lowered word then [advice] else []
  when "context"
    "Reset context data to a known good state or run auto_repair to fill required fields" ++
  when "history"
    "Review the step history and restore from a checkpoint if needed" ++
  when "subject" "Verify and repair the subject reference" ++
  when "not defined" "Run auto_repair to reset the current step to the initial step"

/-- The report on a list of problems. -/
def ofIssues (issues : List String) : IntegrityReport :=
  ⟨issues, severityOf issues, recommendationsFor issues⟩

/-- Is nothing wrong? -/
def isValid (r : IntegrityReport) : Bool := r.issues.isEmpty

/-- The report as data. -/
def toValue (r : IntegrityReport) : Value :=
  .record
    [ ("is_valid", .bool r.isValid), ("issues", .texts r.issues),
      ("severity", .str r.severity.text),
      ("recommendations", .texts r.recommendations) ]

end IntegrityReport

namespace Engine

/-- Problems of the context: unfit data, or else missing required keys. -/
def contextIssues (d : Option Definition) (e : Execution) : List String :=
  let problems := valueProblems true e.context
  if !problems.isEmpty then problems
  else ((missingKeys d e.context).toOption.getD []).map fun k =>
    s!"Missing required context field: {k}"

/-- Gaps between consecutive records. -/
def historyGaps : List TransitionRecord → List String
  | r :: s :: rs =>
    let rest := historyGaps (s :: rs)
    if r.toStep = s.fromStep then rest
    else s!"History gap between steps {r.toStep} and {s.fromStep}" :: rest
  | _ => []

/-- Problems of the history: a wrong start, and gaps. -/
def historyIssues (d : Option Definition) (e : Execution) : List String :=
  let start := match d, e.history.head? with
    | some d, some r =>
      if d.initialStep? = some r.fromStep then []
      else ["History doesn't start from initial step"]
    | _, _ => []
  start ++ historyGaps e.history

/-- Problems of the current step. -/
def stepIssues (d : Option Definition) (e : Execution) : List String :=
  match d with
  | none   => [s!"Workflow definition '{e.workflowName.display}' not found"]
  | some d =>
    if (d.named? e.currentStep).isSome then []
    else [s!"Current step '{e.currentStep.display}' is not defined in workflow"]

/-- Problems of the subject: a blank reference, or one that does not
    resolve. -/
def subjectIssues (g : Engine) (e : Execution) : List String :=
  if e.subject.type = "" ∨ e.subject.id = "" then ["Missing subject reference"]
  else match g.resolveSubject e.subject with
    | .error f => [s!"Error loading subject: {f.text}"]
    | .ok v    => if v.isNull then ["Subject reference is broken"] else []

/-- All problems of an execution. -/
def integrityIssues (g : Engine) (e : Execution) : Except Failure (List String) := do
  let d ← g.definitionFor e
  pure (contextIssues d e ++ historyIssues d e ++ stepIssues d e ++ g.subjectIssues e)

/-- The findings on an execution. -/
def integrity (g : Engine) (e : Execution) : Except Failure IntegrityReport :=
  (g.integrityIssues e).map .ofIssues

end Engine

end Workflow
