import Mathlib.Data.List.Nodup
import Workflow.Definition.Builder
import Workflow.Proofs.Graph
import Workflow.Proofs.Definition

/-! # Builder — what a script declares, and what the checks of it tell

    A builder refuses a name that it has already, so the steps of what it builds have
    different names, and so have the actions of each step.  With different step names
    a definition is the graph of its actions, and the checks before registration pass
    exactly when that graph is whole: there is a first step, actions lead to declared
    steps, and paths of actions lead to every step.

    The heart is `wellFormed_iff`, which tells what no issue means. -/

namespace Workflow

/-! ## Names are declared once -/

namespace StepDefinition

variable {s s' : StepDefinition} {c : StepDeclaration} {cs : List StepDeclaration}

/-- An action is added under a new name only. -/
theorem addAction_ok {name target : String} {guard : Option (Supplied Guard)}
    {description : Option String} {confirmation : Bool}
    (h : s.addAction name target guard description confirmation = .ok s') :
    name ∉ s.actionNames ∧ ∃ g,
      s' = { s with actions :=
        s.actions ++ [⟨name, target, g, description, confirmation⟩] } := by
  unfold addAction at h
  split at h
  · exact nomatch h
  · rename_i hname
    refine ⟨fun hmem => hname (List.contains_iff_mem.mpr hmem), ?_⟩
    cases guard with
    | none => exact ⟨none, (Except.ok.inj h).symm⟩
    | some supplied =>
        cases supplied with
        | callable g  => exact ⟨some g, (Except.ok.inj h).symm⟩
        | notCallable => exact nomatch h

/-- A declaration inside a step keeps its name, and gives no two actions one name. -/
theorem declare_keeps (h : s.declare c = .ok s') :
    s'.name = s.name ∧ (s.actionNames.Nodup → s'.actionNames.Nodup) := by
  cases c with
  | describe text =>
      rw [← Except.ok.inj h]
      exact ⟨rfl, id⟩
  | requirement text =>
      rw [← Except.ok.inj h]
      exact ⟨rfl, id⟩
  | condition supplied =>
      cases supplied with
      | callable c =>
          rw [← Except.ok.inj h]
          exact ⟨rfl, id⟩
      | notCallable => exact nomatch h
  | markSafe =>
      rw [← Except.ok.inj h]
      exact ⟨rfl, id⟩
  | action name target guard description confirmation =>
      obtain ⟨hname, g, rfl⟩ := addAction_ok h
      refine ⟨rfl, fun hnodup => ?_⟩
      simp only [actionNames, List.map_append, List.map_cons, List.map_nil]
      rw [← List.concat_eq_append]
      exact (List.nodup_concat _ _).mpr ⟨hname, hnodup⟩

theorem declareAll_keeps (h : s.declareAll cs = .ok s') :
    s'.name = s.name ∧ (s.actionNames.Nodup → s'.actionNames.Nodup) := by
  induction cs generalizing s with
  | nil =>
      rw [← Except.ok.inj h]
      exact ⟨rfl, id⟩
  | cons c cs ih =>
      obtain ⟨t, ht, hrest⟩ := exceptBind_ok.mp h
      obtain ⟨hname, hnodup⟩ := declare_keeps ht
      obtain ⟨hname', hnodup'⟩ := ih hrest
      exact ⟨hname'.trans hname, fun h => hnodup' (hnodup h)⟩

end StepDefinition

namespace Definition

variable {d d' : Definition} {s s' : String}

/-- Have the steps different names, and the actions of each step too? -/
structure Distinct (d : Definition) : Prop where
  steps   : d.stepNames.Nodup
  actions : ∀ step ∈ d.steps, step.actionNames.Nodup

theorem onStep_keeps {name : String} {c : StepDeclaration} {ss ss' : List StepDefinition}
    (h : onStep name c ss = .ok ss') :
    ss'.map (·.name) = ss.map (·.name) ∧
      ((∀ step ∈ ss, step.actionNames.Nodup) → ∀ step ∈ ss', step.actionNames.Nodup) := by
  induction ss generalizing ss' with
  | nil =>
      rw [← Except.ok.inj h]
      exact ⟨rfl, id⟩
  | cons x ss ih =>
      unfold onStep at h
      split at h
      · obtain ⟨y, hy, hss⟩ := exceptBind_ok.mp h
        obtain ⟨hname, hnodup⟩ := StepDefinition.declare_keeps hy
        rw [← Except.ok.inj hss]
        refine ⟨by rw [List.map_cons, List.map_cons, hname], fun hall => ?_⟩
        rw [List.forall_mem_cons] at hall ⊢
        exact ⟨hnodup hall.1, hall.2⟩
      · obtain ⟨ys, hys, hss⟩ := exceptBind_ok.mp h
        obtain ⟨hnames, hnodup⟩ := ih hys
        rw [← Except.ok.inj hss]
        refine ⟨by rw [List.map_cons, List.map_cons, hnames], fun hall => ?_⟩
        rw [List.forall_mem_cons] at hall ⊢
        exact ⟨hall.1, hnodup hall.2⟩

/-- One declaration keeps the names apart. -/
theorem Distinct.declare (hd : d.Distinct) {c : Declaration} (h : d.declare c = .ok d') :
    d'.Distinct := by
  cases c with
  | requireContext key default =>
      rw [← Except.ok.inj h]
      exact ⟨hd.steps, hd.actions⟩
  | step name description safe block =>
      rw [Definition.declare] at h
      split at h
      · exact nomatch h
      · rename_i hnew
        obtain ⟨x, hx, hd'⟩ := exceptBind_ok.mp h
        -- the block of a new step starts without actions, and cannot rename the step
        obtain ⟨hname, hnodup⟩ := StepDefinition.declareAll_keeps hx
        rw [← Except.ok.inj hd']
        constructor
        · simp only [stepNames, List.map_append, List.map_cons, List.map_nil, hname]
          rw [← List.concat_eq_append]
          exact (List.nodup_concat _ _).mpr
            ⟨fun hmem => hnew (List.contains_iff_mem.mpr hmem), hd.steps⟩
        · intro y hy
          rcases List.mem_append.mp hy with hy | hy
          · exact hd.actions y hy
          · rw [List.mem_singleton.mp hy]
            exact hnodup List.nodup_nil
  | onStep name c =>
      obtain ⟨steps, hsteps, hd'⟩ := exceptBind_ok.mp h
      obtain ⟨hnames, hnodup⟩ := onStep_keeps hsteps
      rw [← Except.ok.inj hd']
      refine ⟨?_, hnodup hd.actions⟩
      unfold stepNames
      rw [hnames]
      exact hd.steps

theorem Distinct.declareAll (hd : d.Distinct) {script : List Declaration}
    (h : d.declareAll script = .ok d') : d'.Distinct := by
  induction script generalizing d with
  | nil => exact Except.ok.inj h ▸ hd
  | cons c script ih =>
      obtain ⟨x, hx, hrest⟩ := exceptBind_ok.mp h
      exact ih (hd.declare hx) hrest

/-- In whatever order a script declares them, names are declared once. -/
theorem distinct_of_define {serial : Nat} {name : String} {description : Option String}
    {script : List Declaration} (h : define serial name description script = .ok d) :
    d.Distinct := by
  obtain ⟨x, hx, hd⟩ := exceptBind_ok.mp h
  unfold bare at hx
  split at hx
  · exact nomatch hx
  · have hbare : x.Distinct := by
      rw [← Except.ok.inj hx]
      exact ⟨List.nodup_nil, fun _ hstep => absurd hstep List.not_mem_nil⟩
    exact hbare.declareAll hd

/-! ## Paths of actions -/

/-- Does an action lead from one step to the other? -/
def Follows (d : Definition) (s s' : String) : Prop :=
  ∃ step ∈ d.steps, step.name = s ∧ ∃ a ∈ step.actions, a.target = s'

/-- Does a path of actions, perhaps an empty one, lead from one step to the other? -/
abbrev LeadsTo (d : Definition) : String → String → Prop := Relation.ReflTransGen d.Follows

/-- The edges of the graph are the actions of the steps that are found by name. -/
theorem edge_iff : d.graph.Edge s s' ↔
    ∃ step, d.findStep? s = some step ∧ ∃ a ∈ step.actions, a.target = s' := by
  rw [Graph.edge_iff_find]
  unfold graph findStep?
  rw [List.find?_map]
  constructor
  · rintro ⟨e, he, hs'⟩
    obtain ⟨step, hstep, rfl⟩ := Option.map_eq_some_iff.mp he
    exact ⟨step, hstep, List.mem_map.mp hs'⟩
  · rintro ⟨step, hstep, ha⟩
    exact ⟨_, Option.map_eq_some_iff.mpr ⟨step, hstep, rfl⟩, List.mem_map.mpr ha⟩

theorem findStep?_of_mem (hnodup : d.stepNames.Nodup) {step : StepDefinition}
    (hstep : step ∈ d.steps) : d.findStep? step.name = some step := by
  cases hfind : d.findStep? step.name with
  | none =>
      have hno := List.find?_eq_none.mp hfind step hstep
      exact absurd (beq_self_eq_true step.name) hno
  | some x =>
      obtain ⟨hname, hx⟩ := findStep?_some hfind
      rw [List.inj_on_of_nodup_map hnodup hx hstep hname]

/-- Where step names differ, the edges of the graph are all actions. -/
theorem edge_iff_follows (hnodup : d.stepNames.Nodup) :
    d.graph.Edge s s' ↔ d.Follows s s' := by
  rw [edge_iff]
  constructor
  · rintro ⟨step, hstep, ha⟩
    obtain ⟨hname, hmem⟩ := findStep?_some hstep
    exact ⟨step, hmem, hname, ha⟩
  · rintro ⟨step, hmem, rfl, ha⟩
    exact ⟨step, findStep?_of_mem hnodup hmem, ha⟩

/-- Where step names differ, the search finds the steps that paths of actions lead to. -/
theorem mem_reachableFrom_iff (hnodup : d.stepNames.Nodup) :
    s' ∈ d.graph.reachableFrom s ↔ d.LeadsTo s s' := by
  have hedge : d.graph.Edge = d.Follows := by
    funext x y
    exact propext (edge_iff_follows hnodup)
  rw [Graph.mem_reachableFrom, LeadsTo, ← hedge]

/-! ## Checks -/

/-- Is the definition a whole step graph: with a first step, with names that are
    declared once, with actions between declared steps, and with a path of actions
    from the first step to each other? -/
structure WellFormed (d : Definition) : Prop extends Distinct d where
  nonempty : d.steps ≠ []
  targets  : ∀ step ∈ d.steps, ∀ a ∈ step.actions, d.hasStep a.target = true
  reached  : ∀ first, d.initialStep? = some first →
    ∀ step ∈ d.steps, d.LeadsTo first step.name

theorem danglingIssues_nil_iff {step : StepDefinition} :
    d.danglingIssues step = [] ↔ ∀ a ∈ step.actions, d.hasStep a.target = true := by
  unfold danglingIssues
  rw [List.map_eq_nil_iff, List.filter_eq_nil_iff]
  refine forall₂_congr fun a _ => ?_
  rw [hasStep_iff]
  simp [stepNames]

theorem unreachableSteps_nil_iff (hnodup : d.stepNames.Nodup) :
    d.unreachableSteps = [] ↔ ∀ first, d.initialStep? = some first →
      ∀ step ∈ d.steps, d.LeadsTo first step.name := by
  unfold unreachableSteps
  cases hfirst : d.initialStep? with
  | none => simp
  | some first =>
      simp only [List.filter_eq_nil_iff, Option.some.injEq, forall_eq']
      constructor
      · intro h step hstep
        have hmem := h step.name (List.mem_map_of_mem hstep)
        exact (mem_reachableFrom_iff hnodup).mp (by simpa using hmem)
      · intro h name hname
        obtain ⟨step, hstep, rfl⟩ := List.mem_map.mp hname
        simpa using (mem_reachableFrom_iff hnodup).mpr (h step hstep)

/-- With names that are declared once, the checks pass exactly for whole step graphs. -/
theorem wellFormed_iff (hd : d.Distinct) : d.WellFormed ↔ d.issues = [] := by
  unfold issues
  constructor
  · intro h
    have hsteps : d.steps.isEmpty = false := by simpa using h.nonempty
    rw [hsteps, if_neg Bool.false_ne_true, List.append_eq_nil_iff, List.flatMap_eq_nil_iff,
      List.map_eq_nil_iff]
    exact ⟨fun step hstep => danglingIssues_nil_iff.mpr (h.targets step hstep),
      (unreachableSteps_nil_iff hd.steps).mpr h.reached⟩
  · intro h
    split at h
    · exact nomatch h
    · rename_i hsteps
      rw [List.append_eq_nil_iff, List.flatMap_eq_nil_iff, List.map_eq_nil_iff] at h
      exact { toDistinct := hd
              nonempty := fun hnil => hsteps (by rw [hnil]; rfl)
              targets := fun step hstep => danglingIssues_nil_iff.mp (h.1 step hstep)
              reached := (unreachableSteps_nil_iff hd.steps).mp h.2 }

end Definition

end Workflow
