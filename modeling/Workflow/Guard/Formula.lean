import Workflow.Guard
import Workflow.Value.Measure
import Workflow.Value.Place
import Workflow.Value.Tagged

/-! # Formula — guards given as data

    A formula asks about one key of the context or combines other formulas.
    Connectives stop at the first part that decides them; a part that raises
    makes the whole raise. -/

namespace Workflow

/-- A comparison of two values. -/
inductive Comparison where
  | eq
  | ne
  | lt
  | le
  | gt
  | ge
deriving DecidableEq

namespace Comparison

/-- The comparison that a sign denotes. -/
def ofSign? (s : String) : Option Comparison :=
  if s = "==" then some .eq
  else if s = "!=" then some .ne
  else if s = "<" then some .lt
  else if s = "<=" then some .le
  else if s = ">" then some .gt
  else if s = ">=" then some .ge
  else none

/-- Equality answers unless it would never be found; an order raises across
    kinds. -/
def decide? (c : Comparison) (v w : Value) : Option Bool :=
  let p : Place := { value := v }
  let q : Place := { value := w }
  match c with
  | .eq => p.same? q
  | .ne => (p.same? q).map (! ·)
  | .lt => (p.order? q).map (· == some .lt)
  | .le => (p.order? q).map fun o => o == some .lt || o == some .eq
  | .gt => (p.order? q).map (· == some .gt)
  | .ge => (p.order? q).map fun o => o == some .gt || o == some .eq

end Comparison

/-- A predicate over a context, as data. -/
inductive Formula where
  | const (v : Value)
  | raise
  | get (key default : Value)
  | item (key : Value)
  | has (key : Value)
  | compare (key : Value) (comparison : Comparison) (value : Value) (default : Option Value)
  | length (key least : Value) (default : Option Value)
  | holds (key item : Value) (default : Option Value)
  | pop (key : Value)
  | not (f : Formula)
  | and (fs : List Formula)
  | or (fs : List Formula)

namespace Formula

/-- The value a formula asks about.  Without a default it is what the context
    holds under the key, and raises where there is none; with one only a map
    can be asked, and a value that cannot be a key raises. -/
def operand (context key : Value) (default : Option Value) : Option Value :=
  match default with
  | none   => context.part? key
  | some d => do
    let m ← context.entries?
    if key.isHashable then some ((m.lookup? key).getD d) else none

/-- The value that is taken out of a map, true where it has none; what
    referred to the map refers to what is left of it.  An empty map does not
    look at the key. -/
def taken (context key : Value) : Option Value := do
  let m ← context.entries?
  if m.isEmpty then pure (.bool true)
  else if key.isHashable then
    let rest := Value.dict (m.remove key)
    pure (((m.find? key).map fun v => v.replaceRoot (fun _ => rest) 1).getD (.bool true))
  else none

mutual

/-- Evaluates a formula. -/
def eval : Formula → Guard
  | .const v, context => (some v.truthy, context)
  | .raise, context => (none, context)
  | .get key d, context => ((operand context key (some d)).map Value.truthy, context)
  | .item key, context => ((operand context key none).map Value.truthy, context)
  | .has key, context => (context.holds? key, context)
  | .compare key c v d, context =>
    ((operand context key d).bind fun w => c.decide? w v, context)
  | .length key least d, context =>
    ((operand context key d).bind fun w =>
      w.size?.bind fun n => Comparison.ge.decide? (.nat n) least, context)
  | .holds key v d, context =>
    ((operand context key d).bind fun w => w.holds? v, context)
  | .pop key, context =>
    ((taken context key).map Value.truthy, context.without key)
  | .not f, context =>
    let r := eval f context
    (r.1.map (! ·), r.2)
  | .and fs, context => evalAll fs context
  | .or fs, context => evalAny fs context

/-- Do all hold?  Stops at the first that does not. -/
def evalAll : List Formula → Guard
  | [], context => (some true, context)
  | f :: fs, context =>
    match eval f context with
    | (some true, context) => evalAll fs context
    | r                    => r

/-- Does one hold?  Stops at the first that does. -/
def evalAny : List Formula → Guard
  | [], context => (some false, context)
  | f :: fs, context =>
    match eval f context with
    | (some false, context) => evalAny fs context
    | r                     => r

end

/-- Reads a formula from a map; what is no formula raises. -/
def read : Nat → Value → Formula
  | 0,        _       => .raise
  | fuel + 1, .dict m =>
    let key := (Mapping.field? m "key").getD .null
    let value := Tagged.read ((Mapping.field? m "value").getD .null)
    let default := (Mapping.field? m "default").map Tagged.read
    let parts := (Tagged.itemsOf ((Mapping.field? m "of").getD .null)).map (read fuel)
    match Tagged.textOf m "p" with
    | "const" => .const value
    | "get"   => .get key (default.getD .null)
    | "item"  => .item key
    | "has"   => .has key
    | "cmp"   =>
      match Comparison.ofSign? (Tagged.textOf m "cmp") with
      | some c => .compare key c value default
      | none   => .raise
    | "len"   => .length key value default
    | "in"    => .holds key value default
    | "pop"   => .pop key
    | "not"   => .not (parts.headD .raise)
    | "and"   => .and parts
    | "or"    => .or parts
    | _       => .raise
  | _, _ => .raise

/-- The formula that a map denotes. -/
def ofValue (v : Value) : Formula := read (v.nestingDepth + 1) v

end Formula

end Workflow
