import Workflow.Definition.Reader
import Workflow.Registry

/-! # Catalogue — modules that declare definitions

    A module has variables in a fixed order, some of which are definitions.
    It is loaded once: loading it again yields the very same definitions,
    so that the registry does not take them for others.  A module that
    fails to load is not kept. -/

namespace Workflow

/-- The modules at hand, those loaded before, and the next serial of a
    definition. -/
structure Catalogue where
  sources : List (String × List Value) := []
  loaded  : List (String × List Definition) := []
  serial  : Nat := 0

/-- Why a module could not be loaded: there is none, or loading it failed. -/
inductive ImportFailure where
  | missing (reason : String)
  | broken (f : Failure)

namespace Catalogue

/-- Does the value declare a definition?  Every map does. -/
def declares : Value → Bool
  | .dict _ => true
  | _       => false

/-- Declares the definitions among the variables of a module, numbered from
    `serial`. -/
def declare (serial : Nat) : List Value → Except Failure (List Definition)
  | []      => .ok []
  | v :: vs =>
    if declares v then do
      let d ← Definition.ofValue serial v
      let ds ← declare (serial + 1) vs
      pure (d :: ds)
    else declare (serial + 1) vs

/-- The definitions of the module of a name without dots, in order. -/
def loadOne (c : Catalogue) (name : String) :
    Except ImportFailure (List Definition) × Catalogue :=
  match c.loaded.find? fun m => m.1 == name with
  | some m => (.ok m.2, c)
  | none   =>
    match c.sources.find? fun m => m.1 == name with
    | none   => (.error (.missing s!"No module named {quotedText name}"), c)
    | some m =>
      let next := { c with serial := c.serial + m.2.length }
      match declare c.serial m.2 with
      | .ok ds   => (.ok ds, { next with loaded := next.loaded ++ [(name, ds)] })
      | .error f => (.error (.broken f), next)

/-- A name up to its first dot, and the names behind it. -/
def parts (name : String) : String × List String :=
  match name.splitOn "." with
  | []      => (name, [])
  | n :: ns => (n, ns)

/-- The definitions of a module, in order.  A name with dots names a part of
    another module, which is loaded before; no module has parts. -/
def load (c : Catalogue) (name : String) :
    Except ImportFailure (List Definition) × Catalogue :=
  if name = "" then (.error (.broken (.wrongValue "Empty module name")), c)
  else
    match parts name with
    | ("",    _)      =>
      (.error (.broken (.wrongType "a relative name needs a module that it is relative to")), c)
    | (whole, [])     => c.loadOne whole
    | (whole, n :: _) =>
      match c.loadOne whole with
      | (.ok _, c) =>
        let part := quotedText s!"{whole}.{n}"
        (.error (.missing
          s!"No module named {part}; {quotedText whole} is not a package"), c)
      | r          => r

end Catalogue

end Workflow
