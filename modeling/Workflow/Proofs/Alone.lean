import Workflow.Proofs.Mutation
import Workflow.Proofs.System

/-! # Alone — operations with no one else at work

    Where nobody else writes and no save meets trouble, a mutation comes to what it
    decides on the stored snapshot, at its first attempt. -/

namespace Workflow

variable {α β : Type} {w w' : World} {e p : Execution}

namespace Client

/-- A sequence goes on where its first part left off. -/
theorem run_bind_ok {c : Client α} {k : α → Client β} {a : α} (h : c.run w = (.ok a, w')) :
    (c >>= k).run w = (k a).run w' := by
  induction c generalizing w with
  | done b =>
      obtain ⟨hb, rfl⟩ := Prod.mk.inj h
      rw [← Except.ok.inj hb]
      rfl
  | fail f => exact nomatch (Prod.mk.inj h).1
  | ask q next ih => exact ih _ h

theorem run_draft {d : Draft α} {a : α} {s : Serials}
    (h : d.runAt w.now w.serials = (.ok a, s)) :
    (draft d).run w = (.ok a, { w with serials := s }) := by
  show (ofExcept (d.runAt w.now w.serials).1).run
    { w with serials := (d.runAt w.now w.serials).2 } = _
  rw [h]
  rfl

/-- A sequence that comes to a result does so part by part. -/
theorem run_bind_inv {c : Client α} {k : α → Client β} {b : β}
    (h : (c >>= k).run w = (.ok b, w')) :
    ∃ a w₁, c.run w = (.ok a, w₁) ∧ (k a).run w₁ = (.ok b, w') := by
  induction c generalizing w with
  | done a => exact ⟨a, w, rfl, h⟩
  | fail f => exact nomatch (Prod.mk.inj h).1
  | ask q next ih => exact ih _ h

/-- A result is none of a failure that only becomes another one. -/
theorem run_recover_inv {c : Client α} {k : Failure → Failure} {a : α}
    (h : (c.recover fun f => .fail (k f)).run w = (.ok a, w')) : c.run w = (.ok a, w') := by
  induction c generalizing w with
  | done b => exact h
  | fail f => exact nomatch (Prod.mk.inj h).1
  | ask q next ih => exact ih _ h

theorem run_ofExcept_inv {r : Except Failure α} {a : α} (h : (ofExcept r).run w = (.ok a, w')) :
    r = .ok a ∧ w' = w := by
  cases r with
  | ok b =>
      obtain ⟨hb, hw⟩ := Prod.mk.inj h
      exact ⟨congrArg _ (Except.ok.inj hb), hw.symm⟩
  | error f => exact nomatch (Prod.mk.inj h).1

/-- The calendar stands still while a client is at work. -/
theorem run_now (c : Client α) (w : World) : (c.run w).2.now = w.now := by
  induction c generalizing w with
  | done a => rfl
  | fail f => rfl
  | ask q next ih => exact (ih _ _).trans (w.answer_now q)

/-- What every request that is within the terms preserves holds at the end, and so does
    what the terms say of it. -/
theorem run_of_keeps {c : Client α} {may : Terms} {done : Trail → α → Prop}
    {fail : Trail → Failure → Prop} {I : Trail → World → Prop} {t : Trail} {a : α}
    (hstep : ∀ t w q, may t q → I t w → I (t.after q (w.answer q).1) (w.answer q).2)
    (hk : c.Keeps may done fail t) (hI : I t w) (h : c.run w = (.ok a, w')) :
    ∃ t', done t' a ∧ I t' w' := by
  induction c generalizing w t with
  | done b =>
      obtain ⟨hb, rfl⟩ := Prod.mk.inj h
      exact ⟨t, Except.ok.inj hb ▸ hk, hI⟩
  | fail f => exact nomatch (Prod.mk.inj h).1
  | ask q next ih => exact ih _ (hk.2 _) (hstep t w q hk.1 hI) h

end Client

namespace Engine

open Client

variable {g : Engine} {fn : Mutation α} {id : Value} {cur : Execution} {a : α} {s : Serials}
  {st : Store}

theorem run_refresh (he : w.store.find? w.now id = .ok (some e)) :
    (refresh id).run w = (.ok e, w) := by
  have hload : (load id).run w = (.ok (some e), w) := by
    show (ofExcept (w.store.find? w.now id)).run w = _
    rw [he]
    rfl
  exact run_bind_ok hload

theorem run_refresh_inv (h : (refresh id).run w = (.ok e, w')) :
    w.store.find? w.now id = .ok (some e) ∧ w' = w := by
  obtain ⟨o, w₁, hload, h⟩ := run_bind_inv h
  obtain ⟨hfind, rfl⟩ := run_ofExcept_inv
    (show (ofExcept (w.store.find? w.now id)).run w = (.ok o, w₁) from hload)
  cases o with
  | none => exact nomatch (Prod.mk.inj h).1
  | some x =>
      obtain ⟨hx, hw⟩ := Prod.mk.inj h
      rw [hfind, Except.ok.inj hx]
      exact ⟨rfl, hw.symm⟩

/-- A save without trouble is what the store makes of it. -/
theorem run_trySave {v : Int} (hsave : w.store.save w.now p v = .ok (e, st))
    (hcalm : w.disturbances = []) :
    (trySave p v).run w = (.ok (.ok e), { w with store := st }) := by
  have hcommit : w.save p v = w.commit p v := by
    unfold World.save
    rw [hcalm]
  show (Except.ok (w.save p v).1, (w.save p v).2) = _
  rw [hcommit]
  unfold World.commit
  rw [hsave]

/-- A mutation alone comes to what it decides on the stored snapshot. -/
theorem run_mutate (operation : String) (failOnError : Bool)
    (hcur : w.store.find? w.now id = .ok (some cur))
    (hdecides : (fn cur).runAt w.now w.serials = (.ok (some p, a), s))
    (hsave : w.store.save w.now p cur.version = .ok (e, st)) (hcalm : w.disturbances = []) :
    (g.mutate id fn operation failOnError).run w =
      (.ok (e, a), { w with serials := s, store := st }) := by
  have hattempt : (attemptOnce id fn operation failOnError).run w =
      (.ok (.settled e a), { w with serials := s, store := st }) := by
    refine (run_bind_ok (run_refresh hcur)).trans ?_
    refine (run_bind_ok (run_draft hdecides)).trans ?_
    exact run_bind_ok (run_trySave (w := { w with serials := s }) hsave hcalm)
  refine (run_bind_ok (show elapsed.run w = (.ok w.elapsed, w) from rfl)).trans ?_
  cases (g.settings.engine.maxConflictRetries - 1).toNat with
  | zero => exact run_bind_ok hattempt
  | succ retries => exact run_bind_ok hattempt

/-- One that proposes nothing comes to what is stored, whoever else is at work. -/
theorem run_mutate_unchanged (operation : String) (failOnError : Bool)
    (hcur : w.store.find? w.now id = .ok (some cur))
    (hdecides : (fn cur).runAt w.now w.serials = (.ok (none, a), s)) :
    (g.mutate id fn operation failOnError).run w = (.ok (cur, a), { w with serials := s }) := by
  have hattempt : (attemptOnce id fn operation failOnError).run w =
      (.ok (.settled cur a), { w with serials := s }) := by
    refine (run_bind_ok (run_refresh hcur)).trans ?_
    exact run_bind_ok (run_draft hdecides)
  refine (run_bind_ok (show elapsed.run w = (.ok w.elapsed, w) from rfl)).trans ?_
  cases (g.settings.engine.maxConflictRetries - 1).toNat with
  | zero => exact run_bind_ok hattempt
  | succ retries => exact run_bind_ok hattempt

/-- How a mutation and its world stand that runs alone, since it began in a world: while
    nothing is written the store is what it was. -/
structure Solo (w₀ : World) (id : Value) (t : Trail) (w : World) : Prop where
  calm    : w.disturbances = []
  now     : w.now = w₀.now
  counts  : w₀.serials.checkpoints ≤ w.serials.checkpoints
  fresh   : t.writes = [] → w.store = w₀.store
  read    : ∀ base, t.read = some base → w₀.store.find? w₀.now id = .ok (some base)
  moment  : ∀ m, t.moment = some m → m.time = w₀.now ∧
    w₀.serials.checkpoints ≤ m.before.checkpoints ∧ m.after.checkpoints ≤ w.serials.checkpoints
  written : ∀ x, t.writes = [x] →
    w₀.store.save w₀.now x.offered x.expected = .ok (x.stored, w.store)

namespace Solo

variable {w₀ : World} {t : Trail} {q : Request} {operation : String} {failOnError : Bool}

theorem start (hcalm : w.disturbances = []) : Solo w id {} w := by
  refine ⟨hcalm, rfl, Nat.le_refl _, fun _ => rfl, ?_, ?_, ?_⟩
  · intro _ h
    exact nomatch h
  · intro _ h
    exact nomatch h
  · intro _ h
    exact nomatch h

theorem step (hcounts : ∀ base, (fn base).Counts) (hq : fn.terms id operation failOnError [] t q)
    (h : Solo w₀ id t w) : Solo w₀ id (t.after q (w.answer q).1) (w.answer q).2 := by
  obtain ⟨hwrites, hq⟩ := hq
  have hstore := h.fresh hwrites
  cases q with
  | load v =>
      obtain rfl : v = id := hq
      have hanswer : (w.answer (.load v)).1 = w₀.store.find? w₀.now v := by
        rw [← hstore, ← h.now]
        rfl
      rw [hanswer]
      show Solo w₀ v _ w
      cases hf : w₀.store.find? w₀.now v with
      | error f => exact h
      | ok o =>
          cases o with
          | none => exact h
          | some e =>
              refine ⟨h.calm, h.now, h.counts, h.fresh, ?_, ?_, h.written⟩
              · intro base hbase
                rw [← Option.some.inj hbase]
                exact hf
              · intro m hm
                exact nomatch hm
  | save p v =>
      have hsave : w.save p v = w.commit p v := by
        unfold World.save
        rw [h.calm]
      show Solo w₀ id (t.after (.save p v) (w.save p v).1) (w.save p v).2
      rw [hsave]
      unfold World.commit
      cases hs : w.store.save w.now p v with
      | error f => exact ⟨h.calm, h.now, h.counts, h.fresh, h.read, h.moment, h.written⟩
      | ok r =>
          obtain ⟨e, st⟩ := r
          have hwritten : (t.after (.save p v) (.ok e)).writes = [⟨p, v, e⟩] := by
            show t.writes ++ [(⟨p, v, e⟩ : Write)] = _
            rw [hwrites, List.nil_append]
          refine ⟨h.calm, h.now, h.counts, ?_, h.read, h.moment, ?_⟩
          · intro hnil
            exact absurd hnil (hwritten ▸ List.cons_ne_nil _ _)
          · intro x hx
            rw [← (List.cons.inj (hwritten.symm.trans hx)).1, ← hstore, ← h.now]
            exact hs
  | moment use =>
      have huse : w.serials.checkpoints ≤ (use w.now w.serials).checkpoints := by
        rcases hq with ⟨base, rfl⟩ | rfl
        · exact hcounts base w.now w.serials
        · exact Nat.le_refl _
      refine ⟨h.calm, h.now, Nat.le_trans h.counts huse, h.fresh, h.read, ?_, h.written⟩
      intro m hm
      rw [← Option.some.inj hm]
      exact ⟨h.now, h.counts, Nat.le_refl _⟩
  | elapsed => exact h
  | draw => exact h
  | sleep delay => exact ⟨h.calm, h.now, h.counts, h.fresh, h.read, h.moment, h.written⟩
  | _ => exact hq.elim

end Solo

/-- A mutation alone that comes to a result has decided it on the stored snapshot, and has
    saved what it proposes. -/
theorem run_mutate_inv {operation : String} {failOnError : Bool}
    (hcounts : ∀ base, (fn base).Counts) (hcalm : w.disturbances = [])
    (h : (g.mutate id fn operation failOnError).run w = (.ok (e, a), w')) :
    ∃ cur m o, w.store.find? w.now id = .ok (some cur) ∧ m.time = w.now ∧
      w.serials.checkpoints ≤ m.before.checkpoints ∧
      m.after.checkpoints ≤ w'.serials.checkpoints ∧ fn.Decides cur m o a ∧
      ∀ p, o = some p → w.store.save w.now p cur.version = .ok (e, w'.store) := by
  obtain ⟨t, hsettled, hsolo⟩ := run_of_keeps (I := Solo w id)
    (fun _ _ _ hq => Solo.step hcounts hq) (keeps_mutate g id fn operation failOnError {})
    (.start hcalm) h
  cases hsettled with
  | @written base p e m a hread hm hd hw =>
      obtain ⟨htime, hbefore, hafter⟩ := hsolo.moment m hm
      refine ⟨base, m, some p, hsolo.read base hread, htime, hbefore, hafter, hd, ?_⟩
      intro p' hp'
      rw [← Option.some.inj hp']
      exact hsolo.written _ hw
  | @unchanged base m a hread hm hd _ =>
      obtain ⟨htime, hbefore, hafter⟩ := hsolo.moment m hm
      exact ⟨_, m, none, hsolo.read _ hread, htime, hbefore, hafter, hd, fun _ hp => nomatch hp⟩

end Engine

end Workflow
