import Workflow.Proofs.Retry
import Workflow.Proofs.Rollback

/-! # Offer — what a recovery plan offers, and what comes of it

    A plan offers strategies by the status, the history and the steps of a snapshot; a
    recovery decides anew when it is asked for.  They decide alike on a rollback.  A retry
    is offered without a look at the guard of its action, which the recovery asks, and a
    reset without a look at the name of its step, which must not be empty.  Beyond that
    every offer works that has a state that can be captured.

    The heart is `planned_of_unhindered` and `planned_offer`: for which of the offers a move
    is planned, and which.  `recovers_iff` carries them to the whole recovery. -/

namespace Workflow

variable {g : Engine} {d : Definition} {e : Execution} {points : List RollbackPoint}
  {o : RecoveryOption} {target : Value}

/-- Can the target be given with the strategy?  A reset is to a declared step; the others do
    not look at it. -/
def Strategy.Suits (d : Definition) (strategy : Strategy) (target : Value) : Prop :=
  strategy = .reset → ∃ step, target = .str step ∧ d.hasStep step = true

namespace Engine

/-- Does the snapshot have what the plan does not look at: an action to retry that is open
    on re-entry, and for a reset a step with a name? -/
def Unhindered (d : Definition) (e : Execution) (strategy : Strategy) (target : Value) : Prop :=
  (strategy = .retryLast → retryGuardHolds d e = true) ∧ (strategy = .reset → target ≠ .str "")

/-! ## What is offered -/

/-- What a plan offers, and why. -/
theorem offers_cases (h : o ∈ (planOffers e points).options) :
    (o.strategy = .retryLast ∧ e.status = .failed ∧ ∃ x, e.retryCandidate? = some x) ∨
    (o.strategy = .rollback ∧ ∃ p rest, points = p :: rest) ∨ o.strategy = .reset := by
  rcases List.mem_append.mp h with h | h
  · rcases List.mem_append.mp h with h | h
    · split at h
      · rename_i hretry
        obtain rfl := List.mem_singleton.mp h
        obtain ⟨hfailed, hcandidate⟩ := Bool.and_eq_true_iff.mp hretry
        exact .inl ⟨rfl, of_decide_eq_true hfailed, Option.isSome_iff_exists.mp hcandidate⟩
      · exact absurd h List.not_mem_nil
    · cases points with
      | nil => exact absurd h List.not_mem_nil
      | cons p rest =>
          obtain rfl := List.mem_singleton.mp h
          exact .inr (.inl ⟨rfl, p, rest, rfl⟩)
  · obtain rfl := List.mem_singleton.mp h
    exact .inr (.inr rfl)

/-- A plan with offers is one of a snapshot that nothing blocks, and reports them. -/
theorem recoveryPlan_offers {report : Mapping} (h : g.recoveryPlan e = .ok (.dict report))
    (hoptions : (report.field? "recovery_options").isSome = true) :
    g.recoveryBlockers e = .ok [] ∧ ∃ points, g.rollbackPoints e = .ok points ∧
      report.field? "recovery_options" =
        some (.list ((planOffers e points).options.map (·.toValue))) ∧
      report.field? "recommended_action" = some (.str (planOffers e points).recommended.text) := by
  obtain ⟨blockers, hblockers, h⟩ := exceptBind_ok.mp h
  dsimp only at h
  split at h
  · rw [← Value.dict.inj (Except.ok.inj h)] at hoptions
    exact nomatch hoptions
  · rename_i hnone
    obtain ⟨points, hpoints, h⟩ := exceptBind_ok.mp h
    obtain ⟨integrity, -, h⟩ := exceptBind_ok.mp h
    obtain rfl : blockers = [] := by simpa using hnone
    refine ⟨hblockers, points, hpoints, ?_⟩
    rw [← Value.dict.inj (Except.ok.inj h)]
    exact ⟨rfl, rfl⟩

/-! ## What is planned for an offer -/

/-- A reset to a declared step is planned, unless the step has no name. -/
theorem planReset_declared {step : String} (hstep : d.hasStep step = true) :
    planReset d e (.str step) =
      if step = "" then .error (.about .recovery "Target step required for reset" e)
      else .ok ⟨.reset, some step⟩ := by
  obtain ⟨s, hs⟩ := Option.isSome_iff_exists.mp hstep
  have hnamed : d.named? (.str step) = some s := hs
  have htruthy : (!(Value.str step).truthy) = true ↔ step = "" := by
    show (!(step != "")) = true ↔ step = ""
    simp
  unfold planReset
  by_cases hempty : step = ""
  · rw [if_pos (htruthy.mpr hempty), if_pos hempty]
  · rw [if_neg (mt htruthy.mp hempty), if_neg hempty, hnamed]
    exact congrArg (fun name => Except.ok (Move.mk .reset (some name)))
      (Definition.findStep?_some hs).1

/-- For an unhindered offer a move is planned. -/
theorem planned_of_unhindered (hpoints : g.rollbackPoints e = .ok points)
    (ho : o ∈ (planOffers e points).options) (hsuits : o.strategy.Suits d target)
    (h : Unhindered d e o.strategy target) :
    ∃ move dest, g.planMove d e o.strategy target false = .ok move ∧
      move.target = some dest := by
  rcases offers_cases ho with ⟨hs, -, x, hx⟩ | ⟨hs, p, rest, rfl⟩ | hs
  · rw [hs] at h ⊢
    exact ⟨_, x.fromStep, planRetry_ok.mpr ⟨x, hx, .inr (h.1 rfl), rfl⟩, rfl⟩
  · rw [hs]
    exact ⟨_, p.step, planMove_rollback hpoints target false, rfl⟩
  · rw [hs] at h hsuits ⊢
    obtain ⟨step, rfl, hstep⟩ := hsuits rfl
    have hname : step ≠ "" := fun hempty => h.2 rfl (congrArg Value.str hempty)
    exact ⟨_, step, (planReset_declared hstep).trans (if_neg hname), rfl⟩

/-- A move that is planned for an offer is of its strategy, to the first of the rollback
    points if it is a rollback, and the offer is unhindered. -/
theorem planned_offer {move : Move} (hpoints : g.rollbackPoints e = .ok points)
    (ho : o ∈ (planOffers e points).options) (hsuits : o.strategy.Suits d target)
    (h : g.planMove d e o.strategy target false = .ok move) :
    Unhindered d e o.strategy target ∧ move.strategy = o.strategy ∧
      (o.strategy = .rollback →
        ∃ p rest, points = p :: rest ∧ move.target = some p.step) := by
  rcases offers_cases ho with ⟨hs, -⟩ | ⟨hs, p, rest, rfl⟩ | hs
  · rw [hs] at h ⊢
    obtain ⟨x, -, hopen, rfl⟩ := planRetry_ok.mp h
    exact ⟨⟨fun _ => hopen.resolve_left Bool.false_ne_true, fun hr => nomatch hr⟩, rfl,
      fun hr => nomatch hr⟩
  · rw [hs] at h ⊢
    obtain rfl := Except.ok.inj ((planMove_rollback hpoints target false).symm.trans h)
    exact ⟨⟨fun hr => (nomatch hr), fun hr => nomatch hr⟩, rfl, fun _ => ⟨p, rest, rfl, rfl⟩⟩
  · rw [hs] at h hsuits ⊢
    obtain ⟨step, rfl, hstep⟩ := hsuits rfl
    have hplan := (planReset_declared hstep).symm.trans (show planReset d e (.str step) = _ from h)
    split at hplan
    · exact nomatch hplan
    · rename_i hname
      obtain rfl := Except.ok.inj hplan
      exact ⟨⟨fun hr => (nomatch hr), fun _ hempty =>
        hname (Scalar.str.inj (Value.scalar.inj hempty))⟩, rfl,
        fun hr => nomatch hr⟩

/-- After a failure an automatic recovery retries when the action is open on re-entry. -/
theorem planAuto_retries (hfailed : e.status = .failed) {x : TransitionRecord}
    (hx : e.retryCandidate? = some x) (hopen : retryGuardHolds d e = true) (target : Value) :
    g.planMove d e .auto target false = .ok ⟨.retryLast, some x.fromStep⟩ := by
  show g.planAuto d e false = _
  unfold planAuto
  rw [hx]
  exact if_pos ⟨hfailed, hopen⟩

end Engine

/-! ## What comes of a plan -/

variable {w : World} {t : Target} {report : Mapping}

namespace Engine

/-- An offer is invoked by the word of its strategy. -/
theorem offer_word (ho : o ∈ (planOffers e points).options) :
    Strategy.ofText? o.strategy.text = some o.strategy ∧ o.strategy ≠ .manual := by
  rcases offers_cases ho with ⟨hs, -⟩ | ⟨hs, -⟩ | hs
  all_goals
    rw [hs]
    decide

/-- A retry is recommended after a failure with something to retry. -/
theorem recommended_retry (h : (planOffers e points).recommended = .retryLast) :
    e.status = .failed ∧ ∃ x, e.retryCandidate? = some x := by
  have hcan : canRetryLast e = true := by
    by_contra hcan
    unfold planOffers at h
    rw [if_neg hcan] at h
    split at h
    · exact nomatch h
    · exact nomatch h
  obtain ⟨hfailed, hcandidate⟩ := Bool.and_eq_true_iff.mp hcan
  exact ⟨of_decide_eq_true hfailed, Option.isSome_iff_exists.mp hcandidate⟩

/-- An offer that is taken up succeeds just when the state can be captured and the offer is
    unhindered, and then it is what it was offered as. -/
theorem offer_carried_out (hfind : w.store.find? w.now t.executionId = .ok (some e))
    (hkeys : e.KeysOnce) (hblockers : g.recoveryBlockers e = .ok [])
    (hdef : g.definitionFor e = .ok (some d)) (hpoints : g.rollbackPoints e = .ok points)
    (ho : o ∈ (planOffers e points).options) (hsuits : o.strategy.Suits d target)
    (hgranted : (g.recover t o.strategy.text target false).granted w = true) :
    ((∃ r w', (g.recover t o.strategy.text target false).run w = (.ok r, w')) ↔
      e.Capturable ∧ Unhindered d e o.strategy target) ∧
    ∀ r w', (g.recover t o.strategy.text target false).run w = (.ok r, w') →
      r.strategy = o.strategy.text ∧
      (o.strategy = .rollback → ∃ p rest, points = p :: rest ∧
        r.targetStep = some p.step ∧ r.execution.currentStep = .str p.step) := by
  obtain ⟨hword, hmanual⟩ := offer_word ho
  refine ⟨?_, fun r w' hrun => ?_⟩
  · rw [recovers_iff hfind hkeys hblockers hword hmanual hdef hgranted]
    refine and_congr_right fun _ => ⟨?_, planned_of_unhindered hpoints ho hsuits⟩
    rintro ⟨move, dest, hmove, -⟩
    exact (planned_offer hpoints ho hsuits hmove).1
  · obtain ⟨move, dest, -, hmove, hdest, hstrategy, htarget, hcurrent⟩ :=
      recover_makes hfind hkeys hblockers hword hmanual hdef hgranted hrun
    obtain ⟨-, hsame, hback⟩ := planned_offer hpoints ho hsuits hmove
    refine ⟨hstrategy.trans (congrArg Strategy.text hsame), fun hs => ?_⟩
    obtain ⟨p, rest, hp, hto⟩ := hback hs
    obtain rfl := Option.some.inj (hdest.symm.trans hto)
    exact ⟨p, rest, hp, htarget, hcurrent⟩

/-- After a failure an automatic recovery comes to a retry just when the state can be
    captured and the action is open on re-entry. -/
theorem auto_retries_iff (hfind : w.store.find? w.now t.executionId = .ok (some e))
    (hkeys : e.KeysOnce) (hblockers : g.recoveryBlockers e = .ok [])
    (hdef : g.definitionFor e = .ok (some d)) (hfailed : e.status = .failed)
    {x : TransitionRecord} (hx : e.retryCandidate? = some x)
    (hgranted : (g.recover t "auto" target false).granted w = true) :
    (∃ r w', (g.recover t "auto" target false).run w = (.ok r, w') ∧
      r.strategy = "retry_last") ↔ e.Capturable ∧ retryGuardHolds d e = true := by
  have hword : Strategy.ofText? "auto" = some .auto ∧ Strategy.auto ≠ .manual := by decide
  constructor
  · rintro ⟨r, w', hrun, hchosen⟩
    obtain ⟨move, dest, hcapturable, hmove, -, hstrategy, -⟩ :=
      recover_makes hfind hkeys hblockers hword.1 hword.2 hdef hgranted hrun
    have hmoved := Strategy.text_retryLast (hstrategy.symm.trans hchosen)
    rcases planMove_cases hdef hmove with ⟨_, -, hopen, -⟩ | ⟨hother, -⟩
    · exact ⟨hcapturable, hopen.resolve_left Bool.false_ne_true⟩
    · exact absurd hmoved hother
  · rintro ⟨hcapturable, hopen⟩
    obtain ⟨step, hstep⟩ := hcapturable.atText
    have hmove := planAuto_retries (g := g) hfailed hx hopen target
    obtain ⟨r, w', _, hrun, hstrategy, _⟩ := recover_departs hfind hblockers hword.1
      hword.2 hdef hmove rfl hcapturable hstep hgranted
    exact ⟨r, w', hrun, hstrategy⟩

end Engine

open Engine in
/-- Where a plan makes offers and saves are granted: an offer that is taken up, unforced and
    with a target that suits it, succeeds just when the state can be captured and nothing
    hinders it that the plan does not look at, and then it is what it was offered as, a
    rollback being to the first of the points that are listed.  Where the retry is
    recommended, an automatic recovery makes it just when the state can be captured and the
    action is open on re-entry. -/
theorem plan_carried_out (hfind : w.store.find? w.now t.executionId = .ok (some e))
    (hkeys : e.KeysOnce) (hplan : g.recoveryPlan e = .ok (.dict report))
    (hoptions : (report.field? "recovery_options").isSome = true) :
    ∃ d points, g.definitionFor e = .ok (some d) ∧ g.rollbackPoints e = .ok points ∧
      report.field? "recovery_options" =
        some (.list ((planOffers e points).options.map (·.toValue))) ∧
      report.field? "recommended_action" =
        some (.str (planOffers e points).recommended.text) ∧
      (∀ o ∈ (planOffers e points).options, ∀ target, o.strategy.Suits d target →
        (g.recover t o.strategy.text target false).granted w = true →
        ((∃ r w', (g.recover t o.strategy.text target false).run w = (.ok r, w')) ↔
          e.Capturable ∧ Unhindered d e o.strategy target) ∧
        ∀ r w', (g.recover t o.strategy.text target false).run w = (.ok r, w') →
          r.strategy = o.strategy.text ∧
          (o.strategy = .rollback → ∃ p rest, points = p :: rest ∧
            r.targetStep = some p.step ∧ r.execution.currentStep = .str p.step)) ∧
      ((planOffers e points).recommended = .retryLast → ∀ target,
        (g.recover t "auto" target false).granted w = true →
        ((∃ r w', (g.recover t "auto" target false).run w = (.ok r, w') ∧
            r.strategy = "retry_last") ↔ e.Capturable ∧ retryGuardHolds d e = true)) := by
  obtain ⟨hblockers, points, hpoints, hlisted, hrecommended⟩ := recoveryPlan_offers hplan hoptions
  obtain ⟨d, hdef⟩ :=
    (movable_of_staticBlockers (staticBlockers_of_recoveryBlockers hblockers)).defined
  refine ⟨d, points, hdef, hpoints, hlisted, hrecommended, ?_, ?_⟩
  · intro o ho target hsuits hgranted
    exact offer_carried_out hfind hkeys hblockers hdef hpoints ho hsuits hgranted
  · intro hretry target hgranted
    obtain ⟨hfailed, x, hx⟩ := recommended_retry hretry
    exact auto_retries_iff hfind hkeys hblockers hdef hfailed hx hgranted

/-! ## Letters that were lost -/

/-- A letter that was lost with its stamp on: the plan offers and recommends to send it
    again, and that works, by itself as well as automatically. -/
theorem lostLetter_offers :
    let recover := letterEngine.recover (.id (.str "exec-1"))
    let w : World := { store := .memory ⟨[lostLetter]⟩ }
    ∃ report : Mapping, letterEngine.recoveryPlan lostLetter = .ok (.dict report) ∧
      report.field? "recommended_action" = some (.str "retry_last") ∧
      (∃ r w', (recover "retry_last" .null false).run w = (.ok r, w')) ∧
      ∃ r w', (recover "auto" .null false).run w = (.ok r, w') ∧ r.strategy = "retry_last" := by
  intro recover w
  obtain ⟨report, hplan, hoptions⟩ : ∃ report : Mapping,
      letterEngine.recoveryPlan lostLetter = .ok (.dict report) ∧
        (report.field? "recovery_options").isSome = true := ⟨_, rfl, rfl⟩
  have hkeys : lostLetter.KeysOnce := by
    intro m hm
    rw [← Value.dict.inj hm]
    decide
  have hfind : w.store.find? w.now (Target.id (.str "exec-1")).executionId =
      .ok (some lostLetter) := rfl
  have hcapturable : lostLetter.Capturable := ⟨⟨"sent", rfl⟩, ⟨[], rfl⟩, by decide +kernel⟩
  obtain ⟨d, points, hdef, hpoints, -, hrecommended, htaken, hauto⟩ :=
    plan_carried_out hfind hkeys hplan hoptions
  obtain rfl : d = letterWorkflow := Option.some.inj (Except.ok.inj (hdef.symm.trans rfl))
  have hopen : Engine.retryGuardHolds letterWorkflow lostLetter = true := by decide +kernel
  refine ⟨report, hplan, hrecommended, ?_, ?_⟩
  · refine (htaken ⟨.retryLast, "Retry the last failed action", "low", []⟩
      List.mem_cons_self .null (fun h => nomatch h) (by decide +kernel)).1.mpr ⟨hcapturable, ?_⟩
    exact ⟨fun _ => hopen, fun h => nomatch h⟩
  · exact (hauto rfl .null (by decide +kernel)).mpr ⟨hcapturable, hopen⟩

/-- One whose stamp has come off as well: to send it again is offered and recommended just
    the same, but does not work, and an automatic recovery takes the letter back instead. -/
theorem bareLetter_misled :
    let letter := { lostLetter with context := .dict [(.str "address", .str "Bern")] }
    let recover := letterEngine.recover (.id (.str "exec-1"))
    let w : World := { store := .memory ⟨[letter]⟩ }
    (∃ (report : Mapping) (points : List RollbackPoint),
      letterEngine.recoveryPlan letter = .ok (.dict report) ∧
      letterEngine.rollbackPoints letter = .ok points ∧
      report.field? "recovery_options" =
        some (.list ((Engine.planOffers letter points).options.map (·.toValue))) ∧
      ((Engine.planOffers letter points).options.map (·.strategy)) =
        [.retryLast, .rollback, .reset] ∧
      report.field? "recommended_action" = some (.str "retry_last")) ∧
    letter.Capturable ∧
    (recover "retry_last" .null false).granted w = true ∧
    ((recover "retry_last" .null false).run w).1.toOption.isNone = true ∧
    (recover "auto" .null false).granted w = true ∧
    ((recover "auto" .null false).run w).1.toOption.map (·.strategy) = some "rollback" := by
  intro letter recover w
  refine ⟨⟨_, _, rfl, rfl, rfl, rfl, rfl⟩, ⟨⟨"sent", rfl⟩, ⟨[], rfl⟩, by decide +kernel⟩, ?_⟩
  decide +kernel

end Workflow
