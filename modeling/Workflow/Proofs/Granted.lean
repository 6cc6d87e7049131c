import Workflow.Proofs.Alone

/-! # Granted — operations all of whose saves go through

    Where no save of an operation is refused, be it for a conflict or for a failure of the
    store, a mutation comes to what it decides on the stored snapshot, at its first
    attempt; and where it decides on nothing but a failure, it ends with that and asks for
    no save.

    The heart is `run_mutate_granted`. -/

namespace Workflow

variable {α β : Type} {w w' : World} {e p cur : Execution}

/-- Is the answer to the request no refusal of a save? -/
def Request.granted : (q : Request) → q.Answer → Bool
  | .save _ _, a => Except.isOk a
  | _,         _ => true

namespace Client

/-- Is no save refused that the operation asks for when it runs in a world? -/
def granted : Client α → World → Bool
  | .done _,     _ => true
  | .fail _,     _ => true
  | .ask q next, w => q.granted (w.answer q).1 && (next (w.answer q).1).granted (w.answer q).2

variable {c : Client α} {k : α → Client β} {a : α} {f : Failure}

theorem granted_of_bind (h : (c >>= k).granted w = true) : c.granted w = true := by
  induction c generalizing w with
  | done b => rfl
  | fail f => rfl
  | ask q next ih =>
      obtain ⟨hq, hnext⟩ := Bool.and_eq_true_iff.mp h
      exact Bool.and_eq_true_iff.mpr ⟨hq, ih _ hnext⟩

/-- What goes on after a part is granted as well. -/
theorem granted_rest (hrun : c.run w = (.ok a, w')) (h : (c >>= k).granted w = true) :
    (k a).granted w' = true := by
  induction c generalizing w with
  | done b =>
      obtain ⟨hb, rfl⟩ := Prod.mk.inj hrun
      rw [← Except.ok.inj hb]
      exact h
  | fail f => exact nomatch (Prod.mk.inj hrun).1
  | ask q next ih => exact ih _ hrun (Bool.and_eq_true_iff.mp h).2

/-- A save that is granted is answered with what is stored. -/
theorem save_of_granted {v : Int} {k : Except Failure Execution → Client β}
    (h : (trySave p v >>= k).granted w = true) : ∃ e w', w.save p v = (.ok e, w') := by
  obtain ⟨hsave, _⟩ := Bool.and_eq_true_iff.mp (granted_of_bind h)
  have hsave : Except.isOk (w.save p v).1 = true := hsave
  cases hs : w.save p v with
  | mk r w' =>
      rw [hs] at hsave
      cases r with
      | ok e => exact ⟨e, w', rfl⟩
      | error f => exact nomatch hsave

/-- A sequence ends with the failure of its first part. -/
theorem run_bind_error (h : c.run w = (.error f, w')) : (c >>= k).run w = (.error f, w') := by
  induction c generalizing w with
  | done b => exact nomatch (Prod.mk.inj h).1
  | fail f' =>
      obtain ⟨hf, rfl⟩ := Prod.mk.inj h
      rw [← Except.error.inj hf]
      rfl
  | ask q next ih => exact ih _ h

theorem run_draft_error {d : Draft α} {s : Serials}
    (h : d.runAt w.now w.serials = (.error f, s)) :
    (draft d).run w = (.error f, { w with serials := s }) := by
  show (ofExcept (d.runAt w.now w.serials).1).run
    { w with serials := (d.runAt w.now w.serials).2 } = _
  rw [h]
  rfl

end Client

namespace Engine

open Client

variable {g : Engine} {fn : Mutation α} {id : Value} {a : α} {s : Serials} {f : Failure}
  {operation : String} {failOnError : Bool}

/-- A mutation whose saves are granted comes to what it decides on the stored snapshot,
    and that has been saved. -/
theorem run_mutate_granted (hcur : w.store.find? w.now id = .ok (some cur))
    (hdecides : (fn cur).runAt w.now w.serials = (.ok (some p, a), s))
    (h : (g.mutate id fn operation failOnError).granted w = true) :
    ∃ e w', { w with serials := s }.save p cur.version = (.ok e, w') ∧
      (g.mutate id fn operation failOnError).run w = (.ok (e, a), w') := by
  have hclock : elapsed.run w = (.ok w.elapsed, w) := rfl
  have hread := run_refresh hcur
  have hdraft := run_draft hdecides
  have hfirst := granted_rest hclock h
  have hattempt : (attemptOnce id fn operation failOnError).granted w = true := by
    cases hr : (g.settings.engine.maxConflictRetries - 1).toNat with
    | zero =>
        rw [hr] at hfirst
        exact granted_of_bind hfirst
    | succ retries =>
        rw [hr] at hfirst
        exact granted_of_bind hfirst
  have hdecided := granted_rest hread hattempt
  have hoffered := granted_rest hdraft hdecided
  obtain ⟨e, w', hsave⟩ := save_of_granted hoffered
  have hasked : (trySave p cur.version).run { w with serials := s } = (.ok (.ok e), w') := by
    show (Except.ok ({ w with serials := s }.save p cur.version).1,
      ({ w with serials := s }.save p cur.version).2) = _
    rw [hsave]
  have hattempted : (attemptOnce id fn operation failOnError).run w =
      (.ok (.settled e a), w') := by
    refine (run_bind_ok hread).trans ?_
    refine (run_bind_ok hdraft).trans ?_
    exact run_bind_ok hasked
  refine ⟨e, w', hsave, (run_bind_ok hclock).trans ?_⟩
  cases (g.settings.engine.maxConflictRetries - 1).toNat with
  | zero => exact run_bind_ok hattempted
  | succ retries => exact run_bind_ok hattempted

/-- One that decides on a failure ends with it, and has written nothing. -/
theorem run_mutate_failed (hcur : w.store.find? w.now id = .ok (some cur))
    (hdecides : (fn cur).runAt w.now w.serials = (.error f, s)) :
    (g.mutate id fn operation failOnError).run w = (.error f, { w with serials := s }) := by
  have hattempted : (attemptOnce id fn operation failOnError).run w =
      (.error f, { w with serials := s }) := by
    refine (run_bind_ok (run_refresh hcur)).trans ?_
    exact run_bind_error (run_draft_error hdecides)
  refine (run_bind_ok (show elapsed.run w = (.ok w.elapsed, w) from rfl)).trans ?_
  cases (g.settings.engine.maxConflictRetries - 1).toNat with
  | zero => exact run_bind_error hattempted
  | succ retries => exact run_bind_error hattempted

end Engine

end Workflow
