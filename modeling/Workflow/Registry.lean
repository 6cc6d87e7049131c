import Workflow.Definition

/-! # Registry — definitions by name

    Definitions are checked when they are registered, so a broken step graph
    fails at once rather than with the first execution.  Registering the
    same definition again changes nothing; another one of the same name is
    refused unless it is to replace the old one, whose place it takes. -/

namespace Workflow

/-- The registered definitions, by first registration of their names. -/
structure Registry where
  definitions : List Definition := []

namespace Registry

/-- The definition of a name. -/
def get? (r : Registry) (name : String) : Option Definition :=
  r.definitions.find? fun d => d.name == name

/-- Stores a definition under its name, in the old one's place. -/
def put (d : Definition) : List Definition → List Definition
  | []      => [d]
  | e :: ds => if e.name = d.name then d :: ds else e :: put d ds

/-- Stores a definition without any check. -/
def plant (r : Registry) (d : Definition) : Registry := ⟨put d r.definitions⟩

/-- Registers a definition. -/
def register (r : Registry) (d : Definition) (replace : Bool := false) :
    Except Failure Registry :=
  if !d.issues.isEmpty then
    let listed := "; ".intercalate d.issues
    .error (.plain .definition s!"Workflow '{d.name}' is invalid: {listed}"
      (textsDetail "issues" d.issues))
  else match r.get? d.name with
    | some e =>
      if e.serial ≠ d.serial ∧ !replace then
        .error (.plain .definition s!"Workflow '{d.name}' is already registered")
      else .ok (r.plant d)
    | none => .ok (r.plant d)

/-- The definition of a name, or an error. -/
def require (r : Registry) (name : String) : Except Failure Definition :=
  match r.get? name with
  | some d => .ok d
  | none   => .error (.plain .definition s!"Workflow '{name}' not found")

/-- Is the name registered? -/
def exists? (r : Registry) (name : String) : Bool := (r.get? name).isSome

/-- The names, by first registration. -/
def names (r : Registry) : List String := r.definitions.map (·.name)

/-- Overviews of all definitions. -/
def summaries (r : Registry) : List DefinitionSummary :=
  r.definitions.map (·.summary)

/-- Number of definitions. -/
def size (r : Registry) : Nat := r.definitions.length

/-- The registry without definitions. -/
def clear : Registry := ⟨[]⟩

end Registry

end Workflow
