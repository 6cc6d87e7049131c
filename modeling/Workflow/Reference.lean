import Workflow.Failure
import Workflow.Value.Measure

/-! # Reference — references from loose values

    A subject may be given as a reference, a map with type and id, or a
    thing with an id; an actor also as a mere name, which makes a user. -/

namespace Workflow

namespace EntityRef

/-- A reference of a kind from a map with type and id. -/
def ofMapping (kind : EntityKind) (m : Mapping) : Except Failure EntityRef :=
  match m.get? "type", m.get? "id" with
  | some type, some id => .ok ⟨kind, type.display, id.display⟩
  | none,      _       => .error (.missingKey "type")
  | _,         none    => .error (.missingKey "id")

/-- A reference of a kind from a value that is no reference. -/
def ofLoose (kind : EntityKind) (v : Value) : Except Failure EntityRef :=
  match v with
  | .dict m           => ofMapping kind m
  | .thing c (some id) =>
    if id.isNull then .error (.badReference v.shown)
    else .ok ⟨kind, c, id.display⟩
  | v                 => .error (.badReference v.shown)

/-- A subject from a value; any reference is taken as it is. -/
def toSubject : Value → Except Failure EntityRef
  | .scalar (.ref r) => .ok r
  | v                => ofLoose .subject v

/-- An actor from a value; a text is the id of a user. -/
def toActor : Value → Except Failure EntityRef
  | .scalar (.str s)    => .ok (.actor "user" s)
  | .scalar (.status s) => .ok (.actor "user" s.text)
  | .scalar (.ref r)    => .ok (.actor r.type r.id)
  | v                   => ofLoose .actor v

end EntityRef

end Workflow
