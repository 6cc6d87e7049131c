import Workflow.Proofs.Acceptance

/-! # Suggestion — what is suggested is what is accepted

    A suggestion is put together from three queries of the snapshot: the actions of the
    current step, the names of those that are open, and whether the conditions of the step
    hold.  The engine decides anew on what it reads when the action is performed.  Where it
    reads the same snapshot the two agree, whatever the workflow, the step and the guards.

    The heart is `mem_suggested_iff`, which names the suggestions by the actions that are
    open; `exists_accepts_iff` says the same of those that are accepted. -/

namespace Workflow

variable {g : Engine} {e : Execution} {d : Definition} {step : StepDefinition} {action : String}

namespace Engine

/-! ## What is listed -/

/-- The suggestion of an action of a step, for a snapshot. -/
def suggestionOf (d : Definition) (step : StepDefinition) (e : Execution)
    (a : ActionDefinition) : Suggestion where
  detail        := ⟨a.name, a.target, a.description, a.confirmation, true⟩
  conditionsMet := step.satisfiesConditions e.context
  completes     := d.isFinalStep a.target

/-- The actions of a step that are listed as open. -/
def listedActions (step : StepDefinition) (context : Value) : List ActionDefinition :=
  step.actions.filter fun a => (StepDefinition.openActions step.actions context).contains a.name

/-- At a declared step the open actions are suggested, in their order. -/
theorem suggestions_eq (hd : g.definitionFor e = .ok (some d))
    (hstep : d.named? e.currentStep = some step) :
    g.suggestions e = .ok ((listedActions step e.context).map (suggestionOf d step e)) := by
  have hin : e.stepIn? (some d) = some step := hstep
  have hopen : openDetails (some d) e = (listedActions step e.context).map fun a =>
      ⟨a.name, a.target, a.description, a.confirmation, true⟩ := by
    unfold openDetails Execution.detailsIn Execution.openActions listedActions
    rw [hin]
    dsimp only
    rw [List.filter_map]
    refine List.map_congr_left fun a ha => ?_
    rw [show (StepDefinition.openActions step.actions e.context).contains a.name = true from
      (List.mem_filter.mp ha).2]
  unfold suggestions
  rw [hd]
  show Except.ok ((openDetails (some d) e).map _) = _
  rw [hopen, List.map_map, hin]
  rfl

/-- Elsewhere nothing is. -/
theorem suggestions_nil {found : Option Definition} (hd : g.definitionFor e = .ok found)
    (hstep : e.stepIn? found = none) : g.suggestions e = .ok [] := by
  unfold suggestions openDetails Execution.detailsIn
  rw [hd]
  simp only [bind, Except.bind, hstep]
  rfl

/-- An action is suggested with its conditions met when the engine lists it as open and the
    conditions of the step hold. -/
theorem mem_suggested_iff :
    (∃ x ∈ (listedActions step e.context).map (suggestionOf d step e),
        x.detail.name = action ∧ x.conditionsMet = true) ↔
      step.satisfiesConditions e.context = true ∧
        action ∈ StepDefinition.openActions step.actions e.context := by
  constructor
  · rintro ⟨x, hx, rfl, hmet⟩
    obtain ⟨a, ha, rfl⟩ := List.mem_map.mp hx
    exact ⟨hmet, List.contains_iff_mem.mp (List.mem_filter.mp ha).2⟩
  · rintro ⟨hmet, hin⟩
    obtain ⟨a, ha, rfl⟩ := StepDefinition.findAction?_of_open hin
    refine ⟨_, List.mem_map_of_mem (List.mem_filter.mpr ⟨?_, ?_⟩), rfl, hmet⟩
    · exact List.mem_of_find?_eq_some ha
    · exact List.contains_iff_mem.mpr hin

end Engine

/-! ## What is accepted -/

variable {on : Target} {actor : Value} {ref : Option EntityRef} {w : World} {entries : Mapping}

namespace Engine

/-- Where the current step is not declared, nothing is accepted. -/
theorem not_accepts_of_unknown {found : Option Definition} {e' : Execution}
    (hfound : g.definitionFor e = .ok found) (hstep : e.stepIn? found = none)
    (hfind : w.store.find? w.now on.executionId = .ok (some e)) (href : StandsFor actor ref) :
    ¬g.Accepts on action actor w e' := by
  intro haccepts
  obtain ⟨-, d, step, hd, hdeclared, -⟩ :=
    exists_open_iff.mp (open_of_accepts hfind href haccepts)
  obtain rfl := Except.ok.inj (hfound.symm.trans hd)
  exact nomatch hstep.symm.trans hdeclared

/-- At a declared step an action is accepted when it is listed there as open and the
    conditions of the step hold. -/
theorem exists_accepts_iff (hactive : e.status = .active)
    (hd : g.definitionFor e = .ok (some d)) (hstep : d.named? e.currentStep = some step)
    (hcontext : e.context = .dict entries)
    (hfind : w.store.find? w.now on.executionId = .ok (some e)) (href : StandsFor actor ref)
    (hgranted : ∀ a ∈ step.actions,
      (g.perform on (.str a.name) actor .null).granted w = true) :
    (∃ e', g.Accepts on action actor w e') ↔ step.satisfiesConditions e.context = true ∧
      action ∈ StepDefinition.openActions step.actions e.context := by
  constructor
  · rintro ⟨e', haccepts⟩
    obtain ⟨-, d', step', hd', hstep', hmet, hin⟩ :=
      exists_open_iff.mp (open_of_accepts hfind href haccepts)
    obtain rfl := Option.some.inj (Except.ok.inj (hd.symm.trans hd'))
    obtain rfl := Option.some.inj (hstep.symm.trans hstep')
    exact ⟨hmet, hin⟩
  · rintro ⟨hmet, hin⟩
    obtain ⟨a, ha, rfl⟩ := StepDefinition.findAction?_of_open hin
    obtain ⟨d', step', b, hopen⟩ :=
      exists_open_iff.mpr ⟨hactive, d, step, hd, hstep, hmet, hin⟩
    have hsaves := hgranted a (List.mem_of_find?_eq_some ha)
    exact ⟨_, (accepts_iff hfind hcontext href hsaves).mpr ⟨d', step', b, hopen, rfl⟩⟩

/-- What an accepted action makes of an active execution, where the actions of the step have
    different names. -/
theorem accepted_leads {a : ActionDefinition} {e' : Execution} (hactive : e.status = .active)
    (hd : g.definitionFor e = .ok (some d)) (hstep : d.named? e.currentStep = some step)
    (hnodup : (step.actions.map (·.name)).Nodup) (ha : a ∈ step.actions)
    (hcontext : e.context = .dict entries)
    (hfind : w.store.find? w.now on.executionId = .ok (some e)) (href : StandsFor actor ref)
    (hgranted : (g.perform on (.str a.name) actor .null).granted w = true)
    (haccepts : g.Accepts on a.name actor w e') :
    e'.currentStep = .str a.target ∧
      (d.isFinalStep a.target = true ↔ e'.status = .completed) := by
  obtain ⟨d', step', b, hopen, rfl⟩ := (accepts_iff hfind hcontext href hgranted).mp haccepts
  obtain rfl := Option.some.inj (Except.ok.inj (hd.symm.trans hopen.definitionFor))
  obtain rfl := Option.some.inj (hstep.symm.trans (named?_iff.mpr hopen.current))
  -- the engine performs the first action of that name, which is the only one
  obtain rfl : b = a := List.inj_on_of_nodup_map hnodup
    (List.mem_of_find?_eq_some hopen.named.2) ha (Option.some.inj hopen.named.1).symm
  refine ⟨rfl, ?_⟩
  show d.isFinalStep b.target = true ↔
    (if d.isFinalStep b.target then Status.completed else e.status) = .completed
  cases d.isFinalStep b.target with
  | true => exact iff_of_true rfl rfl
  | false => simp [hactive]

end Engine

open Engine in
/-- Of an active execution the actions that are suggested with their conditions met are, in
    the order of their declaration, those that the engine accepts when it reads the same
    snapshot and its saves are granted; whatever the guards do, and also where the workflow
    is not registered or the step not declared.  Where the names of the actions are
    different, as in every declared workflow, each tells the step where the execution is
    then, and whether it is completed. -/
theorem suggestions_accepted (hactive : e.status = .active)
    (hname : e.workflowName.isHashable = true) (hcontext : e.context = .dict entries)
    (hfind : w.store.find? w.now on.executionId = .ok (some e)) (href : StandsFor actor ref)
    (hgranted : ∀ d, g.definitionFor e = .ok (some d) → ∀ a ∈ e.actionsIn d,
      (g.perform on (.str a.name) actor .null).granted w = true) :
    ∃ listed, g.suggestions e = .ok listed ∧
      (∀ d, g.definitionFor e = .ok (some d) →
        (listed.map (·.detail.name)).Sublist ((e.actionsIn d).map (·.name))) ∧
      (∀ action, (∃ x ∈ listed, x.detail.name = action ∧ x.conditionsMet = true) ↔
        ∃ e', g.Accepts on action actor w e') ∧
      ((∀ d, g.definitionFor e = .ok (some d) → ((e.actionsIn d).map (·.name)).Nodup) →
        ∀ x ∈ listed, ∀ e', g.Accepts on x.detail.name actor w e' →
          e'.currentStep = .str x.detail.target ∧
          (x.completes = true ↔ e'.status = .completed)) := by
  obtain ⟨found, hfound⟩ : ∃ found, g.definitionFor e = .ok found := by
    unfold definitionFor
    exact ⟨_, if_pos hname⟩
  cases hstep : e.stepIn? found with
  | none =>
      refine ⟨[], suggestions_nil hfound hstep, fun _ _ => List.nil_sublist _, fun action => ?_,
        fun _ x hx => absurd hx List.not_mem_nil⟩
      constructor
      · rintro ⟨x, hx, -⟩
        exact absurd hx List.not_mem_nil
      · rintro ⟨e', haccepts⟩
        exact absurd haccepts (not_accepts_of_unknown hfound hstep hfind href)
  | some step =>
      obtain ⟨d, rfl, hdeclared⟩ := Option.bind_eq_some_iff.mp hstep
      have hactions : e.actionsIn d = step.actions := by
        unfold Execution.actionsIn
        rw [hstep]
        rfl
      have hsaves := hactions ▸ hgranted d hfound
      refine ⟨_, suggestions_eq hfound hdeclared, fun d' hd' => ?_, fun action => ?_,
        fun hnodup x hx e' haccepts => ?_⟩
      · obtain rfl := Option.some.inj (Except.ok.inj (hfound.symm.trans hd'))
        rw [hactions, List.map_map]
        exact List.filter_sublist.map _
      · rw [mem_suggested_iff,
          exists_accepts_iff hactive hfound hdeclared hcontext hfind href hsaves]
      · obtain ⟨a, hlisted, rfl⟩ := List.mem_map.mp hx
        have ha := (List.mem_filter.mp hlisted).1
        exact accepted_leads hactive hfound hdeclared (hactions ▸ hnodup d hfound) ha hcontext
          hfind href (hsaves a ha) haccepts

/-! ## A sealed jar -/

/-- Opening is the one suggestion for a sealed jar, as its guard takes the seal off the
    common copy before the guard of the return is asked, and it is the one action that is
    accepted. -/
theorem sealedJar_suggested :
    let g : Engine := { registry := ⟨[jarWorkflow openJar returnJar]⟩ }
    let w : World := { store := .memory ⟨[sealedJar]⟩ }
    ∃ listed, g.suggestions sealedJar = .ok listed ∧
      listed.map (fun x => (x.detail.name, x.conditionsMet)) = [("open", true)] ∧
      ∀ action, (∃ e', g.Accepts (.id (.str "exec-1")) action .null w e') ↔ action = "open" := by
  intro g w
  have hd : g.definitionFor sealedJar = .ok (some (jarWorkflow openJar returnJar)) := rfl
  have hfind : w.store.find? w.now (Target.id (.str "exec-1")).executionId =
      .ok (some sealedJar) := rfl
  have hgranted : ∀ a ∈ sealedJar.actionsIn (jarWorkflow openJar returnJar),
      (g.perform (.id (.str "exec-1")) (.str a.name) .null .null).granted w = true := by
    decide +kernel
  have hsaves (d : Definition) (hd' : g.definitionFor sealedJar = .ok (some d))
      (a : ActionDefinition) (ha : a ∈ sealedJar.actionsIn d) :
      (g.perform (.id (.str "exec-1")) (.str a.name) .null .null).granted w = true := by
    obtain rfl := Option.some.inj (Except.ok.inj (hd.symm.trans hd'))
    exact hgranted a ha
  obtain ⟨listed, hlisted, -, haccepted, -⟩ :=
    suggestions_accepted rfl rfl rfl hfind (.inl ⟨rfl, rfl⟩) hsaves
  have hnames : listed.map (fun x => (x.detail.name, x.conditionsMet)) = [("open", true)] := by
    have hshown : (g.suggestions sealedJar).toOption.map
        (·.map fun x => (x.detail.name, x.conditionsMet)) = some [("open", true)] := by
      decide +kernel
    rw [hlisted] at hshown
    exact Option.some.inj hshown
  refine ⟨listed, hlisted, hnames, fun action => ?_⟩
  have hpair : (∃ x ∈ listed, x.detail.name = action ∧ x.conditionsMet = true) ↔
      (action, true) ∈ listed.map fun x => (x.detail.name, x.conditionsMet) := by
    simp
  rw [← haccepted, hpair, hnames]
  simp

end Workflow
