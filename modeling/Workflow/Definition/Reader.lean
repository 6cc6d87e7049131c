import Workflow.Definition.Builder
import Workflow.Execution.Reader
import Workflow.Guard.Formula

/-! # Reader — definitions given as data

    A map with a name, required keys and steps is carried out as a script of
    declarations, with formulas as guards.  Data that does not fit an action
    or a required key is refused where it is declared, data that does not
    fit a step or the workflow when the whole is put together.  A name that
    is not a text is such data too: until it is refused it takes part in the
    script, where it is told from the other names by its value. -/

namespace Workflow

namespace Definition

/-- A declaration with a refusal in front of it and the fields of it that do
    not fit. -/
structure Entry where
  declaration : Declaration
  refusal     : Except Failure Unit := .ok ()
  faults      : List String := []

/-- The field of a map, if it is there and not null. -/
def present? (m : Mapping) (key : String) : Option Value :=
  match m.field? key with
  | some (.scalar .null) => none
  | v                    => v

/-- The items of a list field. -/
def itemsAt (m : Mapping) (key : String) : List Value :=
  Tagged.itemsOf ((m.field? key).getD .null)

/-- The field as a value, null when it is missing. -/
def valueAt (m : Mapping) (key : String) : Value := (m.field? key).getD .null

/-- The map that a value is; no entries otherwise. -/
def asMapping : Value → Mapping
  | .dict m => m
  | _       => []

/-- A predicate given as a formula. -/
def supplied (v : Value) : Supplied Guard :=
  if Tagged.textOf (asMapping v) "p" = "notcallable" then .notCallable
  else .callable (Formula.ofValue v).eval

/-- A predicate given as a formula, as an entry condition. -/
def suppliedCondition (v : Value) : Supplied Condition :=
  match supplied v with
  | .callable g  => .callable g.toCondition
  | .notCallable => .notCallable

/-- The text of an optional field, or its fault. -/
def optionalTextAt (m : Mapping) (key : String) : Checked (Option String) :=
  Checked.field m "" key (some none) Lax.optionalText

/-- The field of a map that must be there. -/
def required (m : Mapping) (key : String) : Except Failure Value :=
  match m.field? key with
  | some v => .ok v
  | none   => .error (.missingKey key)

/-- Refuses data with faults. -/
def refuse (faults : List String) : Except Failure Unit :=
  if faults.isEmpty then .ok ()
  else .error (.invalid (Checked.sortedFaults faults))

/-- Refuses a name that cannot be told from others by its value. -/
def refuseUnhashable (name : Value) : Except Failure Unit :=
  if name.isHashable then .ok () else .error (.unhashable name)

/-- Refuses an action that lacks its name or its target, or whose name is
    not a text, as it repeats no other: a name of no use first, then its
    guard, then its faults. -/
def refuseNameless (step : String) (m : Mapping) (guard : Option (Supplied Guard))
    (faults : List String) : Except Failure Unit := do
  let name ← required m "name"
  let _ ← required m "to"
  if name.isText then pure ()
  else
    refuseUnhashable name
    let _ ← StepDefinition.addAction { name := step } name.display "" guard none false
    refuse faults

/-- The declaration of an action. -/
def actionEntry (step : String) (v : Value) : Entry :=
  let m := asMapping v
  let name := valueAt m "name"
  let guard := (present? m "guard").map supplied
  let description := optionalTextAt m "description"
  let confirm := Checked.field m "" "confirm" (some false) Lax.bool
  let faults := (Lax.text "name" name).faults ++ description.faults ++
    (confirm.faults.map fun _ => "confirmation_required")
  { declaration := .onStep step (.action name.display
      (Tagged.read (valueAt m "to")).display guard
      (match description with | .ok d => d | .bad _ => none)
      (match confirm with | .ok b => b | .bad _ => false))
    refusal := refuseNameless step m guard faults
    faults }

/-- The declarations of a step. -/
def stepEntries (v : Value) : List Entry :=
  let m := asMapping v
  let name := (valueAt m "name").display
  { declaration := .step name ((present? m "description").map Value.display)
      ((m.field? "safe").getD (.bool false)).truthy [] } ::
    ((itemsAt m "requirements").map fun r =>
      { declaration := .onStep name (.requirement r.display) }) ++
    ((itemsAt m "conditions").map fun c =>
      { declaration := .onStep name (.condition (suppliedCondition c)) }) ++
    (itemsAt m "actions").map (actionEntry name)

/-- The declaration of a required key. -/
def requirementEntry : Value → Entry
  | .list (k :: vs) =>
    { declaration := .requireContext k.display (Tagged.read (vs.head?.getD .null))
      faults := (Lax.text "key" k).faults }
  | v => { declaration := .requireContext v.display .null, faults := ["key"] }

/-- The faults of a step as a whole. -/
def stepFaults (v : Value) : List String :=
  let m := asMapping v
  (Lax.text "name" (valueAt m "name")).faults ++ (optionalTextAt m "description").faults ++
    (Checked.items "requirements" Lax.text 0 (itemsAt m "requirements")).faults

/-- Carries out the declarations, each refused with its faults. -/
def declareEntries (d : Definition) : List Entry → Except Failure Definition
  | []      => .ok d
  | e :: es => do
    e.refusal
    let d ← d.declare e.declaration
    refuse e.faults
    d.declareEntries es

/-- Carries out the declarations of the steps.  A step whose name is not a
    text is declared apart, for the refusals that it meets; `others` are
    the names of such steps so far. -/
def declareSteps (d : Definition) (others : List Value) :
    List Value → Except Failure Definition
  | []      => .ok d
  | v :: vs => do
    let name ← required (asMapping v) "name"
    refuseUnhashable name
    if name.isText then
      let d ← d.declareEntries (stepEntries v)
      d.declareSteps others vs
    else if others.any name.equal then
      StepDefinition.malformed s!"Step '{name.display}' is already defined"
    else
      let _ ← declareEntries { d with steps := [] } (stepEntries v)
      d.declareSteps (name :: others) vs

/-- The definition that a map denotes.  With `raw` it is its name alone. -/
def ofValue (serial : Nat) (v : Value) : Except Failure Definition := do
  let m := asMapping v
  let name ← required m "name"
  if (valueAt m "raw").truthy then
    refuse (Lax.text "name" name).faults
    pure { serial, name := name.display }
  else if !name.truthy then
    StepDefinition.malformed "Workflow name must be a non-empty string"
  else
    let steps := itemsAt m "steps"
    let d : Definition :=
      { serial, name := name.display
        description := (present? m "description").map Value.display }
    let d ← d.declareEntries ((itemsAt m "require").map requirementEntry)
    let d ← d.declareSteps [] steps
    match steps.map stepFaults |>.find? (fun fs => !fs.isEmpty) with
    | some fs => refuse fs
    | none    =>
      refuse ((Lax.text "name" name).faults ++ (optionalTextAt m "description").faults)
    pure d

end Definition

end Workflow
