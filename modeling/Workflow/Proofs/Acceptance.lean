import Workflow.Proofs.Granted
import Workflow.Proofs.Prediction

/-! # Acceptance — what the engine accepts of what is stored

    An action is accepted when performing it, with nothing to add to the context,
    succeeds.  With its save granted this is so exactly when the action is open on the
    stored snapshot, whatever the store, the guards and the actor.  The result is then the
    snapshot advanced along the action.

    The heart is `accepts_iff`; `exists_open_iff` tells from the definition which actions
    are open. -/

namespace Workflow

variable {g : Engine} {on : Target} {action : String} {actor : Value} {ref : Option EntityRef}
  {w : World} {e e' : Execution} {d : Definition} {entries : Mapping}

namespace StepDefinition

/-- Whatever the guards do, the open actions are some of the declared ones, in their
    order. -/
theorem openActions_sublist (actions : List ActionDefinition) (context : Value) :
    (openActions actions context).Sublist (actions.map (·.name)) := by
  induction actions generalizing context with
  | nil => exact List.Sublist.refl _
  | cons a actions ih =>
      rw [openActions_cons, List.map_cons]
      split
      · exact (ih _).cons_cons a.name
      · exact (ih _).cons a.name

/-- An open action is found under its name. -/
theorem findAction?_of_open {step : StepDefinition} {context : Value}
    (h : action ∈ openActions step.actions context) :
    ∃ a, step.findAction? action = some a ∧ a.name = action := by
  obtain ⟨b, hb, hname⟩ := List.mem_map.mp ((openActions_sublist _ _).subset h)
  cases ha : step.findAction? action with
  | none => exact absurd hname (by simpa using List.find?_eq_none.mp ha b hb)
  | some a =>
      refine ⟨a, rfl, ?_⟩
      exact beq_iff_eq.mp (List.find?_some (p := fun x : ActionDefinition => x.name == action) ha)

end StepDefinition

namespace Engine

/-- Does performing the action on what is stored succeed, with this as its result? -/
def Accepts (g : Engine) (on : Target) (action : String) (actor : Value) (w : World)
    (e' : Execution) : Prop :=
  ∃ r w', (g.perform on (.str action) actor .null).run w = (.ok r, w') ∧ r.success = true ∧
    r.execution = some e'

/-- What is accepted is open on what is stored: anything else is refused, or fails, before
    a save is asked for. -/
theorem open_of_accepts (hfind : w.store.find? w.now on.executionId = .ok (some e))
    (href : StandsFor actor ref) (h : g.Accepts on action actor w e') :
    ∃ d step a, g.Open (.str action) e d step a := by
  obtain ⟨r, w', hrun, hsuccess, -⟩ := h
  rw [g.perform_eq on (.str action) href (show looseMapping .null = .ok [] from rfl) rfl] at hrun
  obtain ⟨⟨saved, rejection⟩, w₁, hmutate, htold⟩ := Client.run_bind_inv hrun
  cases hdecides : (g.performMutation (.str action) ref [] e).runAt w.now w.serials with
  | mk decided s =>
      cases decided with
      | error f =>
          rw [run_mutate_failed hfind hdecides] at hmutate
          exact nomatch (Prod.mk.inj hmutate).1
      | ok p =>
          obtain ⟨o, told⟩ := p
          rcases performMutation_decides (m := ⟨w.now, w.serials, s⟩) hdecides with
            ⟨d, step, a, -, hopen, -⟩ | ⟨rfl, hrefused⟩
          · exact ⟨d, step, a, hopen⟩
          · rw [run_mutate_unchanged _ _ hfind hdecides] at hmutate
            obtain ⟨-, rfl⟩ := Prod.mk.inj (Except.ok.inj (Prod.mk.inj hmutate).1)
            obtain ⟨⟨errors, reason⟩, rfl⟩ := Option.isSome_iff_exists.mp hrefused
            have hrejected : ActionResult.rejected errors reason (some saved) = r :=
              Except.ok.inj (Prod.mk.inj htold).1
            rw [← hrejected] at hsuccess
            exact nomatch hsuccess

/-- With its save granted, an action is accepted when it is open on what is stored, which
    it then advances. -/
theorem accepts_iff (hfind : w.store.find? w.now on.executionId = .ok (some e))
    (hcontext : e.context = .dict entries) (href : StandsFor actor ref)
    (hgranted : (g.perform on (.str action) actor .null).granted w = true) :
    g.Accepts on action actor w e' ↔ ∃ d step a, g.Open (.str action) e d step a ∧
      e' = (advance d e step a ref (.dict entries) w.now).committed e.version w.now := by
  have hupdated : e.context.updated [] = .ok (.dict entries) := by
    rw [hcontext]
    rfl
  have hadvances {d : Definition} {step : StepDefinition} {a : ActionDefinition}
      (hopen : g.Open (.str action) e d step a) : ∃ w',
      (g.perform on (.str action) actor .null).run w = (.ok (.done
        ((advance d e step a ref (.dict entries) w.now).committed e.version w.now)), w') := by
    rw [g.perform_eq on (.str action) href (show looseMapping .null = .ok [] from rfl) rfl]
      at hgranted ⊢
    obtain ⟨saved, w', hsave, hmutate⟩ := run_mutate_granted hfind
      (hopen.decides ref hupdated w.now w.serials) (Client.granted_of_bind hgranted)
    rw [World.stored_of_save (congrArg Prod.fst hsave)] at hmutate
    exact ⟨w', Client.run_bind_ok hmutate⟩
  constructor
  · intro haccepts
    obtain ⟨d, step, a, hopen⟩ := open_of_accepts hfind href haccepts
    obtain ⟨w', hdone⟩ := hadvances hopen
    obtain ⟨r, w₁, hrun, -, hresult⟩ := haccepts
    obtain ⟨hr, -⟩ := Prod.mk.inj (hdone.symm.trans hrun)
    rw [← Except.ok.inj hr] at hresult
    exact ⟨d, step, a, hopen, (Option.some.inj hresult).symm⟩
  · rintro ⟨d, step, a, hopen, rfl⟩
    obtain ⟨w', hdone⟩ := hadvances hopen
    exact ⟨_, w', hdone, rfl, rfl⟩

/-- An action is open on an active execution whose current step is declared, lists it among
    its open actions and has its conditions met. -/
theorem exists_open_iff :
    (∃ d step a, g.Open (.str action) e d step a) ↔
      e.status = .active ∧ ∃ d step, g.definitionFor e = .ok (some d) ∧
        d.named? e.currentStep = some step ∧ step.satisfiesConditions e.context = true ∧
        action ∈ StepDefinition.openActions step.actions e.context := by
  constructor
  · rintro ⟨d, step, a, h⟩
    have hstep := named?_iff.mpr h.current
    obtain ⟨names, hnames, hin⟩ := h.available
    rw [availableActions_of_named h.definitionFor hstep] at hnames
    rw [← Except.ok.inj hnames, ← Option.some.inj h.named.1] at hin
    exact ⟨h.active, d, step, h.definitionFor, hstep, List.all_eq_true.mpr h.conditions, hin⟩
  · rintro ⟨hactive, d, step, hd, hstep, hmet, hin⟩
    obtain ⟨a, ha, rfl⟩ := StepDefinition.findAction?_of_open hin
    exact ⟨d, step, a, definitionFor_some hd, hactive, named?_iff.mp hstep, ⟨rfl, ha⟩,
      ⟨_, availableActions_of_named hd hstep, hin⟩, List.all_eq_true.mp hmet⟩

end Engine

end Workflow
