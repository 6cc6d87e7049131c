import Workflow.Proofs.Commit

/-! # Status — the edges along which statuses move

    An execution is completed by an action into a terminal step, fails by the mark of an
    action, is paused and resumed, and comes back to work by a recovery, or by a repair
    when the step that it stands on is unknown.  Nothing else moves its status, except a
    restoration, which puts back the status that its checkpoint holds.

    Each of these is decided on a snapshot.  What a commit replaces is exactly that
    snapshot, so no stale decision moves the status of what another client has left behind:
    the heart is `Change.status_edge`, and `statuses_follow_edges` says it of every commit
    of a run. -/

namespace Workflow

variable {g : Engine} {base p e : Execution} {m : Moment} {op : Operation}

namespace Operation

/-- Is what was committed over a snapshot along an edge of the operation, which goes on
    like this? -/
def Edge (g : Engine) (base e : Execution) : (op : Operation) → Client op.Result → Prop
  | .perform .., client => base.status = .active ∧
      ((e.status = .completed ∧ client = .done (.done e) ∧ ∃ d step,
          g.definitionFor base = .ok (some d) ∧ e.currentStep = .str step ∧
          d.isFinalStep step = true) ∨
        (e.status = .failed ∧ (∃ f, client = .fail f) ∧ e.currentStep = base.currentStep ∧
          e.history = base.history))
  | .pause _, _ => base.status = .active ∧ e.status = .paused
  | .resume _, _ => base.status = .paused ∧ e.status = .active
  | .recover _ word _ _, _ => Strategy.ofText? word ≠ some .manual ∧
      (base.status = .paused ∨ base.status = .failed) ∧ e.status = .active
  | .autoRepair _, _ => base.status = .completed ∧ e.status = .active ∧
      ∃ d, g.definitionFor base = .ok (some d) ∧ d.named? base.currentStep = none
  | _, _ => False

/-- If the operation restores, has it put back the status that was captured in the
    checkpoint that it finds in the snapshot? -/
def PutsBack (base e : Execution) : Operation → Prop
  | .restore _ id _ => ∃ now s c s',
      (Checkpoint.find base id).runAt now s = (.ok c, s') ∧ e.status = c.capturedStatus
  | _               => True

/-- Does the operation repair a snapshot whose step its workflow does not know? -/
def ResetsUnknown (g : Engine) (base : Execution) : Operation → Prop
  | .autoRepair _ => ∃ d, g.definitionFor base = .ok (some d) ∧ d.named? base.currentStep = none
  | _             => False

/-- Does the operation recover or restore? -/
def Reopens : Operation → Prop
  | .recover _ word _ _ => Strategy.ofText? word ≠ some .manual
  | .restore ..         => True
  | _                   => False

end Operation

/-- An action completes its execution at a terminal step, or leaves its mark. -/
theorem Operation.Concludes.edge {t : Target} {action actor additional : Value}
    {client : Client ActionResult} {v : Int} {now : Timestamp}
    (h : Concludes g base p (p.committed v now) (.perform t action actor additional) client)
    (hne : p.status ≠ base.status) :
    Edge g base (p.committed v now) (.perform t action actor additional) client := by
  obtain ⟨hactive, ⟨hclient, d, step, a, ref, context, time, hopen, rfl⟩ |
    ⟨hclient, context, rfl⟩⟩ := h
  · refine ⟨hactive, .inl ?_⟩
    have hfinal : d.isFinalStep a.target = true := by
      by_contra hfinal
      exact hne (if_neg hfinal)
    exact ⟨if_pos hfinal, hclient, d, a.target, hopen.definitionFor, rfl, hfinal⟩
  · exact ⟨hactive, .inr ⟨rfl, hclient, rfl, rfl⟩⟩

open Operation in
/-- A change puts back the status that was captured, if it restores, and else leaves the
    status alone or moves it along an edge. -/
theorem Change.status_edge {client : Client op.Result} {v : Int} {now : Timestamp}
    (h : Change g base m op p) (hconcludes : op.Concludes g base p (p.committed v now) client) :
    op.PutsBack base (p.committed v now) ∧
      (¬op.IsRestore → p.status ≠ base.status →
        op.Edge g base (p.committed v now) client) := by
  cases h with
  | advanced _ _ _ _ => exact ⟨trivial, fun _ => hconcludes.edge⟩
  | marked _ _ => exact ⟨trivial, fun _ => hconcludes.edge⟩
  | paused hactive => exact ⟨trivial, fun _ _ => ⟨hactive, rfl⟩⟩
  | resumed hpaused => exact ⟨trivial, fun _ _ => ⟨hpaused, rfl⟩⟩
  | restored hc _ => exact ⟨⟨m.time, m.before, _, _, hc, rfl⟩, fun h => absurd trivial h⟩
  | @reset _ d _ _ _ hdef _ hstep _ =>
      -- Only what was completed is given another status.
      refine ⟨trivial, fun _ hne => ?_⟩
      by_cases hcompleted : base.status = .completed
      · exact ⟨hcompleted, if_pos hcompleted, d, hdef, hstep⟩
      · exact absurd (if_neg hcompleted) hne
  | @moved _ word _ _ _ _ _ _ _ _ _ hword hmanual hopen _ _ _ _ _ =>
      refine ⟨trivial, fun _ hne => ⟨?_, ?_, rfl⟩⟩
      · rw [hword]
        exact fun h => hmanual (Option.some.inj h)
      · have hne : Status.active ≠ base.status := hne
        show base.status = .paused ∨ base.status = .failed
        cases hstatus : base.status with
        | active => exact absurd hstatus.symm hne
        | completed => exact absurd hstatus hopen
        | failed => exact .inr rfl
        | paused => exact .inl rfl
  | _ => exact ⟨trivial, fun _ hne => absurd rfl hne⟩

namespace Operation

variable {client : Client op.Result}

/-- Only a repair leads away from completion. -/
theorem Edge.completed (h : op.Edge g base e client) (hbase : base.status = .completed) :
    op.ResetsUnknown g base := by
  cases op with
  | perform _ _ _ _ => exact nomatch hbase.symm.trans h.1
  | pause _ => exact nomatch hbase.symm.trans h.1
  | resume _ => exact nomatch hbase.symm.trans h.1
  | recover _ _ _ _ =>
      rcases h.2.1 with h | h
      · exact nomatch hbase.symm.trans h
      · exact nomatch hbase.symm.trans h
  | autoRepair _ => exact h.2.2
  | _ => exact h.elim

/-- Only a recovery leads away from failure. -/
theorem Edge.failed (h : op.Edge g base e client) (hbase : base.status = .failed) :
    op.Reopens := by
  cases op with
  | perform _ _ _ _ => exact nomatch hbase.symm.trans h.1
  | pause _ => exact nomatch hbase.symm.trans h.1
  | resume _ => exact nomatch hbase.symm.trans h.1
  | recover _ _ _ _ => exact h.1
  | autoRepair _ => exact nomatch hbase.symm.trans h.1
  | _ => exact h.elim

theorem IsRestore.reopens (h : op.IsRestore) : op.Reopens := by
  cases op with
  | restore _ _ _ => trivial
  | _ => exact h.elim

end Operation

/-- Whatever a run has come to, a save that goes through puts back a captured status, if it
    restores, and else leaves the status of what it replaces alone or moves it along an
    edge of its operation.  So nothing but a restoration, and the repair of an unknown
    step, leads away from completion, and nothing but a restoration or a recovery from
    failure. -/
theorem statuses_follow_edges {ι : Type} [DecidableEq ι] {ops : ι → Operation} {c : Climate}
    {w : World} {es : List (Event ι)} {s : System ι fun i => (ops i).Result}
    (hc : c.Contests) (hw : w.store.Keyed)
    (hrun : System.Run c ⟨w, fun i => (ops i).client g⟩ es s) {i : ι} {v : Int}
    {next : Except Failure Execution → Client (ops i).Result}
    (hask : s.clients i = .ask (.save p v) next)
    (hsaved : (s.world.answer (.save p v)).1 = .ok e) :
    ∃ base, s.world.store.Replaces (s.world.answer (.save p v)).2.store base e ∧
      (ops i).PutsBack base e ∧
      (¬(ops i).IsRestore → e.status ≠ base.status → (ops i).Edge g base e (next (.ok e))) ∧
      (base.status = .completed → e.status ≠ .completed →
        (ops i).IsRestore ∨ (ops i).ResetsUnknown g base) ∧
      (base.status = .failed → e.status ≠ .failed → (ops i).Reopens) := by
  obtain ⟨base, m, hchange, rfl, hreplaces, hconcludes⟩ :=
    Operation.commit_of_run hc hw hrun hask hsaved
  obtain ⟨hrestores, hedge⟩ := hchange.status_edge hconcludes
  refine ⟨base, hreplaces, hrestores, hedge, fun hbase hne => ?_, fun hbase hne => ?_⟩
  · by_cases hop : (ops i).IsRestore
    · exact .inl hop
    · exact .inr ((hedge hop (hbase ▸ hne)).completed hbase)
  · by_cases hop : (ops i).IsRestore
    · exact hop.reopens
    · exact (hedge hop (hbase ▸ hne)).failed hbase

/-- Operations on one review: it is opened, suspended, and brought back to its draft. -/
def suspensions : Nat → Operation
  | 0 => .create "review" (.ref (.subject "Document" "7")) .null (.dict [])
  | 1 => .pause (.id (.str "exec-1"))
  | _ => .recover (.id (.str "exec-1")) "reset" (.str "draft") false

/-- Clients at these operations. -/
def suspensionDesk : System Nat fun i => (suspensions i).Result :=
  ⟨{}, fun i => (suspensions i).client reviewEngine⟩


/-- The recovery of a suspended review commits an edge from there back to work. -/
theorem suspensionDesk_reactivates :
    let r := suspensionDesk.follow [0, 0, 1, 1, 1, 1, 2, 2, 2, 2]
    (r.2.world.store.get? r.2.world.now "exec-1").toOption.join.map (·.status) =
      some .paused ∧
    ∃ p v next e base, r.2.clients 2 = .ask (.save p v) next ∧
      (r.2.world.answer (.save p v)).1 = .ok e ∧ e.status = .active ∧
      r.2.world.store.Replaces (r.2.world.answer (.save p v)).2.store base e ∧
      (e.status ≠ base.status →
        (suspensions 2).Edge reviewEngine base e (next (.ok e))) := by
  intro r
  have hcalm : Climate.calm.Allows suspensionDesk.world :=
    ⟨trivial, fun d h => absurd h List.not_mem_nil⟩
  have hkeyed : suspensionDesk.world.store.Keyed := fun e he => absurd he List.not_mem_nil
  have hrun : System.Run .calm suspensionDesk r.1 r.2 := .of_schedule hcalm _
  refine ⟨by decide +kernel, ?_⟩
  have hsaved : ((r.2.clients 2).saved? r.2.world).map (·.status) = some .active := by
    decide +kernel
  obtain ⟨e, he, hactive⟩ := Option.map_eq_some_iff.mp hsaved
  obtain ⟨p, v, next, hclient, hsaved⟩ := Client.saved?_some he
  obtain ⟨base, hreplaces, _, hedge, _⟩ := statuses_follow_edges (w := suspensionDesk.world)
    Climate.calm_spares.contests hkeyed hrun hclient hsaved
  exact ⟨p, v, next, e, base, hclient, hsaved, hactive, hreplaces, hedge id⟩

end Workflow
