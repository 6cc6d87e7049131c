import Mathlib.Data.List.Nodup
import Workflow.Guard.Formula
import Workflow.Proofs.Perform

/-! # Availability — the guards of a step are asked one after the other

    To list the open actions of a step the engine copies the context once and hands that
    copy to each guard in turn.  So an action is listed exactly when its guard holds for
    what the guards before it have left; where they leave the context as it is, each
    guard decides on its own.

    The heart is `openActions_eq_zipIdx`: what an action adds depends on those before it
    through the context they leave and through nothing else. -/

namespace Workflow

variable {g : Engine} {d : Definition} {e : Execution} {a : ActionDefinition}
  {actions : List ActionDefinition} {context : Value}

namespace ActionDefinition

/-- An action is open when it has no guard or its guard yields true; a guard that raises
    yields nothing. -/
theorem isAvailable_iff :
    a.isAvailable context = true ↔ ∀ guard ∈ a.guard, (guard context).1 = some true := by
  unfold isAvailable check
  cases a.guard with
  | none => simp
  | some guard =>
      cases hholds : (guard context).1 with
      | none => simp [hholds]
      | some holds => simp [hholds]

/-- Does the action leave the context as it is when it is checked? -/
def Spares (a : ActionDefinition) (context : Value) : Prop := (a.check context).2 = context

end ActionDefinition

namespace StepDefinition

/-- The context as the guards of the actions leave it. -/
def contextAfter (actions : List ActionDefinition) (context : Value) : Value :=
  actions.foldl (fun c a => (a.check c).2) context

/-- The names of the actions each of which is open for the context on its own. -/
def openAlone (actions : List ActionDefinition) (context : Value) : List String :=
  (actions.filter fun a => a.isAvailable context).map (·.name)

theorem openActions_cons :
    openActions (a :: actions) context =
      (if a.isAvailable context then [a.name] else []) ++
        openActions actions (a.check context).2 := by
  conv_lhs => unfold openActions
  unfold ActionDefinition.isAvailable
  dsimp only
  split
  · rfl
  · rfl

theorem contextAfter_of_spares (h : ∀ a ∈ actions, a.Spares context) :
    contextAfter actions context = context := by
  induction actions with
  | nil => rfl
  | cons a actions ih =>
      rw [List.forall_mem_cons] at h
      show contextAfter actions (a.check context).2 = context
      rw [h.1]
      exact ih h.2

/-- Whatever the guards do, an action is listed when its guard holds for what those before
    it have left. -/
theorem openActions_eq_zipIdx (before after : List ActionDefinition) (context : Value) :
    openActions after (contextAfter before context) =
      ((after.zipIdx before.length).filter fun p =>
        p.1.isAvailable (contextAfter ((before ++ after).take p.2) context)).map
          (·.1.name) := by
  induction after generalizing before with
  | nil => rfl
  | cons a after ih =>
      have hsplit : before ++ a :: after = (before ++ [a]) ++ after := by simp
      have hleft : (a.check (contextAfter before context)).2 =
          contextAfter (before ++ [a]) context := by
        unfold contextAfter
        rw [List.foldl_append]
        rfl
      have hrest := ih (before ++ [a])
      rw [List.length_append, List.length_singleton] at hrest
      rw [openActions_cons, hleft, hrest, List.zipIdx_cons, List.filter_cons,
        List.take_left, hsplit]
      split
      · rfl
      · rfl

/-- Where the guards leave the context as it is for those after them, each decides on its
    own.  What the last one does to it, no other sees. -/
theorem openActions_of_spares (h : ∀ a ∈ actions.dropLast, a.Spares context) :
    openActions actions context = openAlone actions context := by
  have hasked : ∀ p ∈ actions.zipIdx,
      p.1.isAvailable (contextAfter (actions.take p.2) context) = p.1.isAvailable context := by
    intro p hp
    have hplace : p.2 ≤ actions.length - 1 := by
      have := List.snd_lt_of_mem_zipIdx hp
      omega
    have hbefore : ∀ b ∈ actions.take p.2, b.Spares context := fun b hb =>
      h b (by rw [List.dropLast_eq_take]; exact (List.take_subset_take_left _ hplace) hb)
    rw [contextAfter_of_spares hbefore]
  calc openActions actions context
      = (actions.zipIdx.filter fun p =>
          p.1.isAvailable (contextAfter (actions.take p.2) context)).map (·.1.name) :=
        openActions_eq_zipIdx [] actions context
    _ = (actions.zipIdx.filter fun p => p.1.isAvailable context).map (·.1.name) := by
        rw [List.filter_congr hasked]
    _ = openAlone (actions.zipIdx.map Prod.fst) context := by
        unfold openAlone
        rw [List.filter_map, List.map_map]
        rfl
    _ = openAlone actions context := by rw [List.zipIdx_map_fst]

/-- Where no two actions have the same name, a name is listed when its own action is open
    on its own. -/
theorem mem_openAlone (hnames : (actions.map (·.name)).Nodup) (ha : a ∈ actions) :
    a.name ∈ openAlone actions context ↔ a.isAvailable context = true := by
  unfold openAlone
  rw [List.mem_map]
  constructor
  · rintro ⟨b, hb, hname⟩
    obtain ⟨hb, havailable⟩ := List.mem_filter.mp hb
    rw [← List.inj_on_of_nodup_map hnames hb ha hname]
    exact havailable
  · intro havailable
    exact ⟨a, List.mem_filter.mpr ⟨ha, havailable⟩, rfl⟩

end StepDefinition

/-- The actions that a definition declares on the current step. -/
def Execution.actionsIn (e : Execution) (d : Definition) : List ActionDefinition :=
  ((e.stepIn? (some d)).map (·.actions)).getD []

namespace Engine

open StepDefinition

theorem availableActions_eq_openActions (hd : g.definitionFor e = .ok (some d)) :
    g.availableActions e = .ok (openActions (e.actionsIn d) e.context) := by
  rw [availableActions_eq hd]
  unfold Execution.openActions Execution.actionsIn
  cases e.stepIn? (some d) with
  | none => rfl
  | some step => rfl

/-- The available actions are listed in the order of their declaration, each when its own
    guard holds for the context as the guards before it have left it.  Where those before
    the last leave the context of the snapshot as it is, that is each when its own guard
    holds for the snapshot, whatever guards the others have. -/
theorem available_in_turn (hd : g.definitionFor e = .ok (some d)) :
    ∃ names, g.availableActions e = .ok names ∧
      names = ((e.actionsIn d).zipIdx.filter fun p =>
        p.1.isAvailable (contextAfter ((e.actionsIn d).take p.2) e.context)).map (·.1.name) ∧
      ((∀ a ∈ (e.actionsIn d).dropLast, a.Spares e.context) →
        names = openAlone (e.actionsIn d) e.context ∧
        (((e.actionsIn d).map (·.name)).Nodup → ∀ a ∈ e.actionsIn d,
          (a.name ∈ names ↔ ∀ guard ∈ a.guard, (guard e.context).1 = some true))) := by
  refine ⟨_, availableActions_eq_openActions hd, openActions_eq_zipIdx [] _ _, ?_⟩
  intro hspares
  have halone := openActions_of_spares hspares
  refine ⟨halone, fun hnames a ha => ?_⟩
  rw [halone, mem_openAlone hnames ha, ActionDefinition.isAvailable_iff]

end Engine

/-! ## A jar at the counter -/

/-- A jar can be weighed, handed back as long as its seal is on it, and opened, which
    takes the seal off. -/
def jarWorkflow (opened handed : ActionDefinition) : Definition where
  serial := 1
  name   := "jar"
  steps  :=
    [ { name    := "counter"
        actions := [⟨"weigh", "counter", some Formula.raise.eval, none, false⟩,
          opened, handed] },
      { name := "gone" } ]

def openJar : ActionDefinition :=
  ⟨"open", "counter", some (Formula.pop (.str "seal")).eval, none, false⟩

def returnJar : ActionDefinition :=
  ⟨"return", "gone", some (Formula.has (.str "seal")).eval, none, false⟩

def sealedJar : Execution :=
  { id := "exec-1", workflowName := .str "jar", subject := .subject "Box" "7"
    currentStep := .str "counter", status := .active
    context := .dict [(.str "seal", .str "red")], history := [], assignedActor := none
    version := 0, createdAt := .defaultNow, updatedAt := .defaultNow }

/-- With the scales out of order, a sealed jar can be returned or opened. -/
theorem sealedJar_in_turn :
    let g : Engine := { registry := ⟨[jarWorkflow returnJar openJar]⟩ }
    ∃ names, g.availableActions sealedJar = .ok names ∧ names = ["return", "open"] := by
  intro g
  have hd : g.definitionFor sealedJar = .ok (some (jarWorkflow returnJar openJar)) := rfl
  obtain ⟨names, hnames, -, halone⟩ := Engine.available_in_turn hd
  refine ⟨names, hnames, (halone ?_).1.trans (by decide +kernel)⟩
  exact List.forall_mem_cons.mpr ⟨rfl, List.forall_mem_singleton.mpr rfl⟩

/-- With the two the other way round, the jar cannot be returned any more: its seal
    is on and the guard asks for nothing else, but another guard has taken the seal off the
    common copy.  Without that other guard it can. -/
theorem sealedJar_not_alone :
    let available (opened : ActionDefinition) :=
      (Engine.availableActions { registry := ⟨[jarWorkflow opened returnJar]⟩ }
        sealedJar).toOption
    returnJar.isAvailable sealedJar.context = true ∧
    StepDefinition.openAlone (sealedJar.actionsIn (jarWorkflow openJar returnJar))
      sealedJar.context = ["open", "return"] ∧
    available openJar = some ["open"] ∧
    available { openJar with guard := none } = some ["open", "return"] := by
  decide +kernel

end Workflow
