import Workflow.Definition

/-! # Builder — definitions from a script of declarations

    A script declares steps, actions, conditions and required keys in any
    order.  A name is declared once: repeating a step, or an action within a
    step, is an error, as is a guard or condition that cannot be called.
    A repeated required key keeps its place and takes the new default. -/

namespace Workflow

/-- What is handed in where a predicate belongs. -/
inductive Supplied (α : Type) where
  | callable (a : α)
  | notCallable

/-- A declaration inside one step. -/
inductive StepDeclaration where
  | describe (text : String)
  | requirement (text : String)
  | condition (c : Supplied Condition)
  | markSafe
  | action (name target : String) (guard : Option (Supplied Guard))
      (description : Option String) (confirmation : Bool)

/-- A declaration of a workflow: a required key, a new step with its block,
    or a further declaration on a step that is declared already. -/
inductive Declaration where
  | requireContext (key : String) (default : Value)
  | step (name : String) (description : Option String) (safe : Bool)
      (block : List StepDeclaration)
  | onStep (name : String) (declaration : StepDeclaration)

namespace StepDefinition

/-- The error of a malformed declaration. -/
def malformed {α : Type} (message : String) : Except Failure α :=
  .error (.plain .definition message)

/-- Adds an action to a step; its name must be new and its guard
    callable. -/
def addAction (s : StepDefinition) (name target : String)
    (guard : Option (Supplied Guard)) (description : Option String)
    (confirmation : Bool) : Except Failure StepDefinition :=
  if s.actionNames.contains name then
    malformed s!"Action '{name}' is already defined for step '{s.name}'"
  else
    let add (g : Option Guard) : Except Failure StepDefinition :=
      .ok { s with actions :=
        s.actions ++ [⟨name, target, g, description, confirmation⟩] }
    match guard with
    | none               => add none
    | some (.callable g) => add (some g)
    | some .notCallable  => malformed
        s!"Guard for action '{name}' on step '{s.name}' must be callable"

/-- Carries out a declaration inside a step. -/
def declare (s : StepDefinition) : StepDeclaration → Except Failure StepDefinition
  | .describe text    => .ok { s with description := some text }
  | .requirement text => .ok { s with requirements := s.requirements ++ [text] }
  | .condition (.callable c) => .ok { s with conditions := s.conditions ++ [c] }
  | .condition .notCallable =>
    malformed s!"Condition for step '{s.name}' must be callable"
  | .markSafe => .ok { s with safe := true }
  | .action name target guard description confirmation =>
    s.addAction name target guard description confirmation

/-- Carries out declarations in turn. -/
def declareAll (s : StepDefinition) :
    List StepDeclaration → Except Failure StepDefinition
  | []      => .ok s
  | c :: cs => do
    let s ← s.declare c
    s.declareAll cs

end StepDefinition

namespace Definition

/-- Declares a required key; a repeated one keeps its place. -/
def requireKey (key : String) (default : Value) :
    List ContextRequirement → List ContextRequirement
  | []      => [⟨key, default⟩]
  | r :: rs =>
    if r.key = key then ⟨key, default⟩ :: rs else r :: requireKey key default rs

/-- Carries out a declaration on the steps with a given name. -/
def onStep (name : String) (c : StepDeclaration) :
    List StepDefinition → Except Failure (List StepDefinition)
  | []      => .ok []
  | s :: ss =>
    if s.name = name then do
      let s ← s.declare c
      pure (s :: ss)
    else do
      let ss ← onStep name c ss
      pure (s :: ss)

/-- Carries out a declaration. -/
def declare (d : Definition) : Declaration → Except Failure Definition
  | .requireContext key default =>
    .ok { d with requirements := requireKey key default d.requirements }
  | .step name description safe block =>
    if d.stepNames.contains name then
      StepDefinition.malformed s!"Step '{name}' is already defined"
    else do
      let s ← StepDefinition.declareAll { name, description, safe } block
      pure { d with steps := d.steps ++ [s] }
  | .onStep name c => do
    let steps ← onStep name c d.steps
    pure { d with steps }

/-- Carries out declarations in turn. -/
def declareAll (d : Definition) : List Declaration → Except Failure Definition
  | []      => .ok d
  | c :: cs => do
    let d ← d.declare c
    d.declareAll cs

/-- A definition without steps. -/
def bare (serial : Nat) (name : String) (description : Option String) :
    Except Failure Definition :=
  if name = "" then
    StepDefinition.malformed "Workflow name must be a non-empty string"
  else .ok { serial, name, description }

/-- The definition that a script declares. -/
def define (serial : Nat) (name : String) (description : Option String)
    (script : List Declaration) : Except Failure Definition := do
  let d ← bare serial name description
  d.declareAll script

end Definition

end Workflow
