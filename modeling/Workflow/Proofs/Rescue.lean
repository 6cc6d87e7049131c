import Workflow.Proofs.Departure
import Workflow.Proofs.Rollback

/-! # Rescue — what is without blockers is recovered, if a checkpoint of it can be stored

    For an execution that nothing blocks there is always a move to make: a retry of the
    action that failed, a rollback to a safe step, or a reset to the first one.  The
    blockers do not look at what the checkpoint of the move needs, so it is there that an
    automatic recovery of what is not blocked can fail, and nowhere else.

    The heart is `planAuto_ok`; `auto_recovers_iff` is assembled from it and what is known
    of planned moves. -/

namespace Workflow

variable {g : Engine} {d : Definition} {e : Execution}

/-! ## There is a move to make -/

theorem Value.isHashable_of_textOf? {v : Value} {step : String} (h : Lax.textOf? v = some step) :
    v.isHashable = true := by
  cases v with
  | scalar s => rfl
  | thing c id => rfl
  | _ => exact nomatch h

theorem Definition.initialStep?_of_issues (h : d.issues = []) :
    ∃ initial, d.initialStep? = some initial := by
  cases hsteps : d.steps with
  | nil =>
      unfold issues at h
      rw [hsteps] at h
      exact nomatch h
  | cons s steps =>
      refine ⟨s.name, ?_⟩
      unfold initialStep?
      rw [hsteps]
      rfl

namespace Engine

theorem rollbackPoints_ok (hdef : g.definitionFor e = .ok (some d))
    (hstep : e.currentStep.isHashable = true) : ∃ points, g.rollbackPoints e = .ok points := by
  unfold rollbackPoints
  rw [hdef]
  cases e.history with
  | nil => exact ⟨[], rfl⟩
  | cons r rs => exact ⟨_, if_pos hstep⟩

theorem planReturn_ok (hdef : g.definitionFor e = .ok (some d))
    (hstep : e.currentStep.isHashable = true) (hsteps : ∃ initial, d.initialStep? = some initial) :
    ∃ move dest, g.planReturn d e = .ok move ∧ move.target = some dest := by
  obtain ⟨points, hpoints⟩ := rollbackPoints_ok hdef hstep
  obtain ⟨initial, hinitial⟩ := hsteps
  unfold planReturn
  rw [hpoints]
  cases points with
  | nil => exact ⟨_, initial, rfl, hinitial⟩
  | cons p points => exact ⟨_, p.step, rfl, rfl⟩

/-- Whatever the status and the history, there is a step to go to. -/
theorem planAuto_ok (hdef : g.definitionFor e = .ok (some d))
    (hstep : e.currentStep.isHashable = true) (hsteps : ∃ initial, d.initialStep? = some initial)
    (target : Value) (force : Bool) :
    ∃ move dest, g.planMove d e .auto target force = .ok move ∧ move.target = some dest := by
  show ∃ move dest, g.planAuto d e force = .ok move ∧ _
  have hreturn := planReturn_ok hdef hstep hsteps
  unfold planAuto
  cases e.retryCandidate? with
  | none => exact hreturn
  | some r =>
      dsimp only
      split
      · exact ⟨_, r.fromStep, rfl, rfl⟩
      · exact hreturn

end Engine

/-! ## Recovery without a given strategy -/

namespace Engine

variable {w : World} {t : Target} {target : Value} {force : Bool}

/-- Where the checkpoint can be stored, an automatic recovery makes its move. -/
theorem auto_departs (hregistered : ∀ name d, g.registry.get? name = some d → d.issues = [])
    (hfind : w.store.find? w.now t.executionId = .ok (some e))
    (hblockers : g.recoveryBlockers e = .ok [])
    (hgranted : (g.recover t "auto" target force).granted w = true)
    (hcapturable : e.Capturable) :
    ∃ r w' dest, (g.recover t "auto" target force).run w = (.ok r, w') ∧
      r.targetStep = some dest ∧ r.execution.status = .active ∧
      r.execution.currentStep = .str dest := by
  obtain ⟨d, hdef⟩ :=
    (movable_of_staticBlockers (staticBlockers_of_recoveryBlockers hblockers)).defined
  obtain ⟨name, _, hname⟩ := definitionFor_some hdef
  have hsteps := Definition.initialStep?_of_issues (hregistered name d hname)
  obtain ⟨step, hstep⟩ := hcapturable.atText
  obtain ⟨move, dest, hplan, hdest⟩ := planAuto_ok hdef (Value.isHashable_of_textOf? hstep) hsteps
    target force
  obtain ⟨r, w', context, hrun, _, htarget, _, hsaved⟩ := recover_departs hfind hblockers
    (by decide) (by decide) hdef hplan hdest hcapturable hstep hgranted
  refine ⟨r, w', dest, hrun, htarget, ?_⟩
  rw [hsaved]
  exact ⟨rfl, rfl⟩

/-- Where it cannot, the recovery fails and writes nothing. -/
theorem auto_stops (hfind : w.store.find? w.now t.executionId = .ok (some e))
    (hkeys : e.KeysOnce) (hblockers : g.recoveryBlockers e = .ok [])
    (hcapturable : ¬e.Capturable) (target : Value) (force : Bool) :
    ∃ f s, (g.recover t "auto" target force).run w = (.error f, { w with serials := s }) := by
  cases hd : (g.moveMutation .auto target force e).runAt w.now w.serials with
  | mk decided s =>
      cases decided with
      | error f => exact ⟨f, s, recover_stops hfind hblockers (by decide) (by decide) hd⟩
      | ok r =>
          have hmoved := capturable_of_moves (m := ⟨w.now, w.serials, s⟩) hd hkeys
          exact absurd hmoved hcapturable

end Engine

variable {w : World} {t : Target} {target : Value} {force : Bool}

open Engine in
/-- Whatever is stored: where nothing blocks the recovery and no save is refused, an
    automatic recovery succeeds just when a checkpoint of the execution can be stored.
    It makes the execution active at the step that it reports; a failure has written
    nothing. -/
theorem auto_recovers_iff
    (hregistered : ∀ name d, g.registry.get? name = some d → d.issues = [])
    (hfind : w.store.find? w.now t.executionId = .ok (some e)) (hkeys : e.KeysOnce)
    (hblockers : g.recoveryBlockers e = .ok [])
    (hgranted : (g.recover t "auto" target force).granted w = true) :
    ((∃ r w', (g.recover t "auto" target force).run w = (.ok r, w')) ↔ e.Capturable) ∧
    (∀ r w', (g.recover t "auto" target force).run w = (.ok r, w') →
      ∃ dest, r.targetStep = some dest ∧ r.execution.status = .active ∧
        r.execution.currentStep = .str dest) ∧
    ∀ f w', (g.recover t "auto" target force).run w = (.error f, w') → w'.store = w.store := by
  by_cases hcapturable : e.Capturable
  · obtain ⟨r, w', dest, hrun, hresult⟩ :=
      auto_departs hregistered hfind hblockers hgranted hcapturable
    refine ⟨iff_of_true ⟨r, w', hrun⟩ hcapturable, ?_, ?_⟩
    · intro r' w'' hrun'
      obtain rfl := Except.ok.inj (Prod.mk.inj (hrun.symm.trans hrun')).1
      exact ⟨dest, hresult⟩
    · intro f w'' hfailed
      exact nomatch (Prod.mk.inj (hrun.symm.trans hfailed)).1
  · obtain ⟨f, s, hrun⟩ := auto_stops hfind hkeys hblockers hcapturable target force
    refine ⟨iff_of_false ?_ hcapturable, ?_, ?_⟩
    · rintro ⟨r, w', hrun'⟩
      exact nomatch (Prod.mk.inj (hrun.symm.trans hrun')).1
    · intro r w' hrun'
      exact nomatch (Prod.mk.inj (hrun.symm.trans hrun')).1
    · intro f' w' hrun'
      rw [← (Prod.mk.inj (hrun.symm.trans hrun')).2]

/-! ## Deliveries that are not blocked -/

/-- A delivery that has stopped is taken up again. -/
theorem stoppedDelivery_recovered :
    let recover := deliveryEngine.recover (.id (.str "exec-1")) "auto" .null false
    ∃ r w', recover.run { store := .memory ⟨[stoppedDelivery .null]⟩ } = (.ok r, w') ∧
      ∃ dest, r.targetStep = some dest ∧ r.execution.status = .active ∧
        r.execution.currentStep = .str dest := by
  intro recover
  have hblockers : deliveryEngine.recoveryBlockers (stoppedDelivery .null) = .ok [] := by rfl
  have hregistered : ∀ name d, deliveryEngine.registry.get? name = some d → d.issues = [] := by
    intro name d hd
    rw [List.mem_singleton.mp (List.mem_of_find?_eq_some hd)]
    decide +kernel
  have hkeys : (stoppedDelivery .null).KeysOnce := by
    intro m hm
    rw [← Value.dict.inj hm]
    decide
  have hcapturable : (stoppedDelivery .null).Capturable :=
    ⟨⟨"stopped", rfl⟩, ⟨[], rfl⟩, by decide +kernel⟩
  have hgranted : recover.granted { store := .memory ⟨[stoppedDelivery .null]⟩ } = true := by
    decide +kernel
  obtain ⟨hsucceeds, hresult, _⟩ := auto_recovers_iff (t := .id (.str "exec-1")) hregistered rfl
    hkeys hblockers hgranted
  obtain ⟨r, w', hrun⟩ := hsucceeds.mpr hcapturable
  exact ⟨r, w', hrun, hresult r w' hrun⟩

/-- Each of these deliveries is without blockers and none of their saves is refused, but
    they are not recovered: what is stored as checkpoints of the first is no list, the
    notes of the second are too deep, and the third is at no step. -/
theorem deliveries_not_recovered :
    let lost := .dict [(.str checkpointsKey, .str "lost")]
    let recover := deliveryEngine.recover (.id (.str "exec-1")) "auto" .null false
    ∀ e ∈ [{ stoppedDelivery .null with context := lost }, stoppedDelivery (nestedList 255),
        { stoppedDelivery .null with currentStep := .null }],
      (deliveryEngine.recoveryBlockers e).toOption = some [] ∧
      recover.granted { store := .memory ⟨[e]⟩ } = true ∧
      (recover.run { store := .memory ⟨[e]⟩ }).1.toOption.isNone = true := by
  decide +kernel

end Workflow
