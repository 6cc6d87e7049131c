import Workflow.Timestamp

/-! # Scalar — the values without parts

    Status, entity references and the scalar values that contexts are made
    of.  A status is a kind of text, a Boolean is a kind of integer, and
    numbers are compared by value across kinds. -/

namespace Workflow

/-- Where an execution stands in its life. -/
inductive Status where
  | active
  | completed
  | failed
  | paused
deriving DecidableEq, Inhabited

namespace Status

/-- The stored text of a status. -/
def text : Status → String
  | .active    => "active"
  | .completed => "completed"
  | .failed    => "failed"
  | .paused    => "paused"

/-- The member name of a status. -/
def memberName : Status → String
  | .active    => "ACTIVE"
  | .completed => "COMPLETED"
  | .failed    => "FAILED"
  | .paused    => "PAUSED"

/-- Every status. -/
def all : List Status := [.active, .completed, .failed, .paused]

/-- The status with a given stored text. -/
def ofText? (s : String) : Option Status := all.find? (fun t => t.text == s)

/-- The display form `ExecutionStatus.FAILED`. -/
def displayName (s : Status) : String := "ExecutionStatus." ++ s.memberName

end Status

/-- Who or what a reference points at: the subject of a workflow, or an
    actor who performs or owns an action. -/
inductive EntityKind where
  | subject
  | actor
deriving DecidableEq, Inhabited

/-- An unresolved reference to an entity of the surrounding domain. -/
structure EntityRef where
  kind : EntityKind
  type : String
  id   : String
deriving DecidableEq, Inhabited

namespace EntityRef

/-- The class name shown for a kind of reference. -/
def className (r : EntityRef) : String :=
  match r.kind with
  | .subject => "SubjectRef"
  | .actor   => "ActorRef"

/-- The short form `Document#7`. -/
def label (r : EntityRef) : String := r.type ++ "#" ++ r.id

/-- A reference to a subject. -/
def subject (type id : String) : EntityRef := ⟨.subject, type, id⟩

/-- A reference to an actor. -/
def actor (type id : String) : EntityRef := ⟨.actor, type, id⟩

/-- The actor that recovery acts as. -/
def systemRecovery : EntityRef := .actor "system" "recovery"

end EntityRef

/-- A value without parts. -/
inductive Scalar where
  | null
  | bool (b : Bool)
  | int (i : Int)
  | float (x : Binary64)
  | str (s : String)
  | bytes (b : List UInt8)
  | time (t : Timestamp)
  | status (s : Status)
  | ref (r : EntityRef)
deriving DecidableEq, Inhabited

namespace Scalar

/-- The name of a scalar's type. -/
def typeName : Scalar → String
  | .null     => "NoneType"
  | .bool _   => "bool"
  | .int _    => "int"
  | .float _  => "float"
  | .str _    => "str"
  | .bytes _  => "bytes"
  | .time _   => "datetime"
  | .status _ => "ExecutionStatus"
  | .ref r    => r.className

/-- The integer that a Boolean or an integer is. -/
def toInt? : Scalar → Option Int
  | .bool b => some (if b then 1 else 0)
  | .int i  => some i
  | _       => none

/-- The text that a string or a status is. -/
def toText? : Scalar → Option String
  | .str s    => some s
  | .status s => some s.text
  | _         => none

/-- The exact order of two numbers: `none` if one is no number, otherwise
    their order, which is itself undefined for an undefined number. -/
def numericOrder? : Scalar → Scalar → Option (Option Ordering)
  | .float x, .float y => some (x.compare? y)
  | .float x, b => b.toInt?.map fun j => x.compareInt? j
  | a, .float y => a.toInt?.map fun i => (y.compareInt? i).map Ordering.swap
  | a, b => do pure (some (compare (← a.toInt?) (← b.toInt?)))

/-- Equality by value: numbers and texts across their kinds, times by
    moment.  An undefined number equals nothing. -/
def equal (a b : Scalar) : Bool :=
  match numericOrder? a b with
  | some o => o == some .eq
  | none =>
    match a.toText?, b.toText? with
    | some s, some t => s == t
    | none, none =>
      match a, b with
      | .null, .null       => true
      | .bytes x, .bytes y => x == y
      | .time t, .time u   => t.sameMoment u
      | .ref r, .ref s     => r == s
      | _, _               => false
    | _, _ => false

/-- Order of texts by code point. -/
def textOrder (s t : String) : Ordering :=
  if s = t then .eq else if s < t then .lt else .gt

/-- Lexicographic order of byte strings. -/
def bytesOrder : List UInt8 → List UInt8 → Ordering
  | [], []     => .eq
  | [], _      => .lt
  | _, []      => .gt
  | x :: xs, y :: ys => if x < y then .lt else if y < x then .gt
    else bytesOrder xs ys

/-- Order by value: `none` where two scalars have no order at all. -/
def order? (a b : Scalar) : Option (Option Ordering) :=
  match numericOrder? a b with
  | some o => some o
  | none =>
    match a.toText?, b.toText? with
    | some s, some t => some (some (textOrder s t))
    | none, none =>
      match a, b with
      | .bytes x, .bytes y => some (some (bytesOrder x y))
      | .time t, .time u   => (t.since? u).map fun d => some (compare d 0)
      | _, _               => none
    | _, _ => none

/-- Does a scalar count as true?  Zeros, empty texts and null do not. -/
def truthy : Scalar → Bool
  | .null    => false
  | .bool b  => b
  | .int i   => i != 0
  | .float x => !x.isZero
  | .str s   => s != ""
  | .bytes b => !b.isEmpty
  | _        => true

end Scalar

end Workflow
