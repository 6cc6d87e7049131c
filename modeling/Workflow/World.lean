import Workflow.Backoff
import Workflow.Client
import Workflow.Store

/-! # World — what answers the requests of operations

    A world holds a store, the clocks, the supply of ids and a queue of
    disturbances.  Each save meets the next disturbance of the queue: the
    store may fail, another writer may commit first, or the execution may
    vanish. -/

namespace Workflow

/-- What may happen to a save before it reaches the store. -/
inductive Disturbance where
  | fail (f : Failure)
  | conflict (change : Timestamp → Execution → Except Failure Execution)
  | vanish
  | pass

/-- The surroundings of running operations. -/
structure World where
  store        : Store := .memory {}
  now          : Timestamp := .defaultNow
  elapsed      : Binary64 := .zero
  draw         : Number := .whole 0
  serials      : Serials := {}
  disturbances : List Disturbance := []
  sleeps       : List Number := []

namespace World

/-- Saves in the store as it is. -/
def commit (w : World) (e : Execution) (expected : Int) :
    Except Failure Execution × World :=
  match w.store.save w.now e expected with
  | .ok (saved, store) => (.ok saved, { w with store })
  | .error f           => (.error f, w)

/-- Commits a change of a stored execution on behalf of another writer, who
    fails where there is none. -/
def interfere (w : World) (id : String)
    (change : Timestamp → Execution → Except Failure Execution) :
    Except Failure World := do
  match ← w.store.get? w.now id with
  | none         =>
    throw (.other "AttributeError" "'NoneType' object has no attribute 'evolve'")
  | some current =>
    let changed ← change w.now current
    let (_, store) ← w.store.save w.now changed current.version
    pure { w with store }

/-- Answers a save: the next disturbance comes first. -/
def save (w : World) (e : Execution) (expected : Int) :
    Except Failure Execution × World :=
  match w.disturbances with
  | []      => w.commit e expected
  | d :: ds =>
    let w := { w with disturbances := ds }
    match d with
    | .pass            => w.commit e expected
    | .fail f          => (.error f, w)
    | .vanish          => { w with store := w.store.delete e.id }.commit e expected
    | .conflict change =>
      match w.interfere e.id change with
      | .ok w    => w.commit e expected
      | .error f => (.error f, w)

/-- Answers an insertion. -/
def insert (w : World) (e : Execution) : Except Failure Execution × World :=
  match w.store.create e with
  | .ok (stored, store) => (.ok stored, { w with store })
  | .error f            => (.error f, w)

/-- Waits: the monotonic clock moves, the calendar does not. -/
def sleep (w : World) (delay : Number) : World :=
  let seconds := match delay.toBinary64 with
    | .ok x    => x
    | .error _ => .infinite false
  { w with elapsed := w.elapsed.add seconds, sleeps := w.sleeps ++ [delay] }

/-- Answers a request. -/
def answer (w : World) : (q : Request) → q.Answer × World
  | .load id           => (w.store.find? w.now id, w)
  | .insert e          => w.insert e
  | .save e expected   => w.save e expected
  | .list f            => (w.store.list w.now f, w)
  | .findForSubject s  => (w.store.findForSubject w.now s, w)
  | .moment use        =>
    ((w.now, w.serials), { w with serials := use w.now w.serials })
  | .elapsed           => (w.elapsed, w)
  | .draw              => (w.draw, w)
  | .sleep delay       => ((), w.sleep delay)

end World

/-- Runs an operation to its end, with no one else at work. -/
def Client.run {α : Type} : Client α → World → Except Failure α × World
  | .done a,     w => (.ok a, w)
  | .fail f,     w => (.error f, w)
  | .ask q next, w => (next (w.answer q).1).run (w.answer q).2

end Workflow
