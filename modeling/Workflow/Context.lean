import Workflow.Failure
import Workflow.Value.Place

/-! # Context — the data that an execution carries

    The context of a sound execution is a map.  One that was put in place
    without a check may be any value: asking it for entries fails, while a
    few questions have an answer for other containers too. -/

namespace Workflow

namespace Value

/-- A context with entries merged in; a set takes their keys. -/
def updated (context : Value) (additions : Mapping) : Except Failure Value :=
  match context with
  | .dict m => .ok (.dict (Mapping.merge m additions))
  | .set xs => .ok (.set (additions.foldl (fun xs e =>
      if xs.any (e.1.equal ·) then xs else xs ++ [e.1]) xs))
  | v       => .error (.noEntries v)

/-- A context with a value stored under a key, for which it must be a map. -/
def withEntry (context : Value) (key : String) (v : Value) : Except Failure Value :=
  match context with
  | .dict m => .ok (.dict (Mapping.set m key v))
  | w       => .error (.wrongType s!"a value of type {w.typeName} takes no entries")

/-- Those of some keys that a context lacks. -/
def lacking (context : Value) (keys : List String) : Except Failure (List String) :=
  match context with
  | .dict m => .ok (keys.filter fun k => !Mapping.contains m k)
  | v       =>
    match keys.filterM fun k => (v.holds? (.str k)).map (! ·) with
    | some ks => .ok ks
    | none    => .error (.wrongType s!"a value of type {v.typeName} holds no keys")

end Value

namespace Execution

/-- The entries of the context. -/
def entries (e : Execution) : Except Failure Mapping :=
  match e.context with
  | .dict m => .ok m
  | v       => .error (.noEntries v)

/-- The value under a context key, or a default; a value that cannot be a key
    is refused. -/
def contextValue (e : Execution) (key default : Value) : Except Failure Value := do
  let m ← e.entries
  if key.isHashable then pure ((m.lookup? key).getD default)
  else .error (.unhashable key)

/-- The context without the reserved entries. -/
def publicContext (e : Execution) : Except Failure Mapping :=
  e.entries.map fun m => m.copyTop fun k => !isReserved k

end Execution

end Workflow
