import Workflow.Proofs.Operation
import Workflow.Proofs.Slot

/-! # Commit — what the commits of operations put in the place of what

    Whatever other clients do between the reading and the writing of an operation, a save
    of it that goes through replaces exactly the snapshot on which the operation decided,
    by a change of that snapshot.  `Operation.commit_of_run` says so of every state that a
    run can come to; what commits may do is told by cases of `Change` from there. -/

namespace Workflow

variable {g : Engine} {base p e : Execution} {m : Moment} {op : Operation} {t : Trail}

namespace Operation

/-- How an action goes on whose save went through: to its result, when it has moved the
    execution, or to a failure, when it has left its mark. -/
def Concludes (g : Engine) (base p e : Execution) : (op : Operation) → Client op.Result → Prop
  | .perform _ action _ _, client => base.status = .active ∧
      ((client = .done (.done e) ∧ ∃ d step a ref context now, g.Open action base d step a ∧
          p = Engine.advance d base step a ref context now) ∨
        ((∃ f, client = .fail f) ∧ ∃ context, p = { base with status := .failed, context }))
  | _,                     _      => True

/-- An action asks for nothing once it has written, so its one write tells its end. -/
theorem concludes {client : Client op.Result} (hchange : Change g base m op p)
    (hwrites : op.IsPerform → t.writes = []) (hread : t.read = some base)
    (hk : client.Keeps (op.onceTerms g []) (op.Ends g []) (op.Fails [])
      (t.after (.save p base.version) (.ok e))) : op.Concludes g base p e client := by
  cases op with
  | perform target action actor additional =>
      have hwrites : t.writes = [] := hwrites trivial
      have hwritten : (t.after (.save p base.version) (.ok e)).writes =
          [⟨p, base.version, e⟩] := by
        show t.writes ++ [(⟨p, base.version, e⟩ : Write)] = _
        rw [hwrites, List.nil_append]
      have hread : (t.after (.save p base.version) (.ok e)).read = some base := hread
      have hactive : base.status = .active := by
        cases hchange with
        | advanced hopen _ _ _ => exact hopen.active
        | marked hactive _ => exact hactive
      refine ⟨hactive, ?_⟩
      generalize t.after (.save p base.version) (.ok e) = t' at hk hread hwritten
      cases client with
      | ask q next => exact absurd (hk.1.2 trivial) (hwritten ▸ List.cons_ne_nil _ _)
      | done r =>
          cases (show g.Acted action actor additional [] t' r from hk) with
          | refused hw => exact absurd hw (hwritten ▸ List.cons_ne_nil _ _)
          | @advanced base' e' d step a values ref context m' hread' hopen _ _ _ _ hw =>
              obtain rfl := Option.some.inj (hread'.symm.trans hread)
              rw [hwritten] at hw
              obtain ⟨rfl, _, rfl⟩ := Write.mk.inj (List.cons.inj hw).1
              exact .inl ⟨rfl, d, step, a, ref, context, m'.time, hopen, rfl⟩
      | fail f =>
          cases (show Mutation.Failed s!"action {action.display}" true [] t' f from hk) with
          | clean hw => exact absurd hw (hwritten ▸ List.cons_ne_nil _ _)
          | marked _ hmark hw =>
              obtain ⟨_, _, context, hread', _, _, _, _, rfl⟩ := hmark
              obtain rfl := Option.some.inj (hread'.symm.trans hread)
              rw [hwritten] at hw
              obtain ⟨rfl, _, _⟩ := Write.mk.inj (List.cons.inj hw).1
              exact .inr ⟨⟨_, rfl⟩, context, rfl⟩
  | _ => exact trivial

variable {ι : Type} [DecidableEq ι] {ops : ι → Operation} {c : Climate} {w : World}
  {es : List (Event ι)} {s : System ι fun i => (ops i).Result}

/-- In a run of operations their clients are kept track of, and keep to their terms. -/
theorem tracked_of_run (hc : c.Contests) (hw : w.store.Keyed)
    (hrun : System.Run c ⟨w, fun i => (ops i).client g⟩ es s) :
    Tracked s.world es ∧ c.Allows s.world ∧ ∀ i, (s.clients i).Keeps
      ((ops i).onceTerms g []) ((ops i).Ends g []) ((ops i).Fails []) (Trail.of es i) := by
  refine hrun.invariant _ _ _ Tracked (fun i => keeps_once g (ops i) {}) (.start hw)
    (fun _ _ _ _ _ _ h => ⟨h.keyed, h.reads⟩) fun w es i q h hallows hq => ?_
  exact h.step hc hallows
    (terms_ownsId hq.1 fun base hread => (h.reads i base hread).1) i

/-- A save that goes through replaces the snapshot that its operation decided on by a
    change of it, stamped with the next version. -/
theorem commit_at_of_run (hc : c.Contests) (hw : w.store.Keyed)
    (hrun : System.Run c ⟨w, fun i => (ops i).client g⟩ es s) {i : ι} {v : Int}
    {next : Except Failure Execution → Client (ops i).Result}
    (hask : s.clients i = .ask (.save p v) next)
    (hsaved : (s.world.answer (.save p v)).1 = .ok e) :
    ∃ base m, (Trail.of es i).moment = some m ∧ Change g base m (ops i) p ∧
      e = p.committed base.version s.world.now ∧
      s.world.store.Replaces (s.world.answer (.save p v)).2.store base e ∧
      (ops i).Concludes g base p e (next (.ok e)) := by
  obtain ⟨htracked, hallows, hkeeps⟩ := tracked_of_run hc hw hrun
  have hk := hkeeps i
  rw [hask] at hk
  obtain ⟨⟨⟨base, m, hread, hm, hchange, rfl⟩, hwrites⟩, hnext⟩ := hk
  have howns : base.OwnsId := (htracked.reads i base hread).1
  obtain ⟨he, hreplaces⟩ :=
    htracked.replaces hc hallows hread (hchange.ownsId howns) hchange.id_eq.1 hsaved
  exact ⟨base, m, hm, hchange, he, hreplaces, concludes hchange hwrites hread (hnext (.ok e))⟩

/-- So it does at some moment. -/
theorem commit_of_run (hc : c.Contests) (hw : w.store.Keyed)
    (hrun : System.Run c ⟨w, fun i => (ops i).client g⟩ es s) {i : ι} {v : Int}
    {next : Except Failure Execution → Client (ops i).Result}
    (hask : s.clients i = .ask (.save p v) next)
    (hsaved : (s.world.answer (.save p v)).1 = .ok e) :
    ∃ base m, Change g base m (ops i) p ∧ e = p.committed base.version s.world.now ∧
      s.world.store.Replaces (s.world.answer (.save p v)).2.store base e ∧
      (ops i).Concludes g base p e (next (.ok e)) := by
  obtain ⟨base, m, _, hcommit⟩ := commit_at_of_run hc hw hrun hask hsaved
  exact ⟨base, m, hcommit⟩

end Operation

end Workflow
