import Workflow.Inspection.Analysis
import Workflow.Proofs.Cycles
import Workflow.Proofs.Validation

/-! # Analysis — what the analysis of a step graph tells

    The analysis looks at the graph of a definition from the step of an execution.  What a
    script declares has different step names, so the graph is that of its actions: the
    cycles that the search closes are cycles of actions, and what the searches reach is
    what paths of actions lead to.

    The heart is `mem_reachable_iff`: from a declared step the search finds what paths of
    actions lead to, and from any other name nothing. -/

namespace Workflow

namespace Definition

variable {d : Definition} {s s' : String} {serial : Nat} {name : String}
  {description : Option String} {script : List Declaration}

theorem nodes_graph (d : Definition) : d.graph.nodes = d.stepNames := by
  unfold Graph.nodes graph stepNames
  rw [List.map_map]
  rfl

theorem declares_graph (d : Definition) (s : String) : d.graph.declares s = d.hasStep s := by
  rw [Bool.eq_iff_iff, Graph.declares_iff, nodes_graph, hasStep_iff]
  exact List.mem_map

/-- Where step names differ, the edges of the graph are the actions. -/
theorem edge_eq_follows (hnodup : d.stepNames.Nodup) : d.graph.Edge = d.Follows := by
  funext s s'
  exact propext (edge_iff_follows hnodup)

/-- Only a declared step has actions. -/
theorem Follows.mem_stepNames (h : d.Follows s s') : s ∈ d.stepNames := by
  obtain ⟨step, hstep, rfl, _⟩ := h
  exact List.mem_map_of_mem hstep

/-- All steps of a cycle of actions are declared. -/
theorem mem_stepNames_of_isCycle {c : List String} (h : IsCycle d.Follows c) :
    ∀ s ∈ c, s ∈ d.stepNames := by
  obtain ⟨first, rest, rfl⟩ := h.closed
  have hbefore : ∀ s ∈ first :: rest, s ∈ d.stepNames := by
    intro s hs
    obtain ⟨before, after, hsplit⟩ := List.append_of_mem hs
    have hlinked := h.linked
    -- after each step of the cycle another one follows
    rw [hsplit, List.append_assoc] at hlinked
    have hnext := hlinked.right_of_append
    cases after with
    | nil       => exact (List.isChain_cons_cons.mp hnext).1.mem_stepNames
    | cons x xs => exact (List.isChain_cons_cons.mp hnext).1.mem_stepNames
  intro s hs
  rcases List.mem_append.mp hs with hs | hs
  · exact hbefore s hs
  · rw [List.mem_singleton.mp hs]
    exact hbefore first List.mem_cons_self

/-! ## Seen from an execution -/

theorem mem_reachable_iff (hnodup : d.stepNames.Nodup) :
    s' ∈ d.graph.reachable s ↔ d.hasStep s = true ∧ d.LeadsTo s s' := by
  unfold Graph.reachable
  rw [declares_graph]
  cases hs : d.hasStep s with
  | false => simp
  | true => simpa using mem_reachableFrom_iff hnodup

/-- Is the name one of a step that is declared and from which, perhaps at once, a path of
    actions leads to the step? -/
def SeenFrom (d : Definition) (step : Option String) (s : String) : Prop :=
  ∃ t, step = some t ∧ d.hasStep t = true ∧ d.LeadsTo t s

theorem contains_seen_iff (hnodup : d.stepNames.Nodup) (step : Option String) :
    ((step.map d.graph.reachable).getD []).contains s = true ↔ d.SeenFrom step s := by
  rw [List.contains_iff_mem]
  cases step with
  | none => simp [SeenFrom]
  | some t => simpa [SeenFrom] using mem_reachable_iff hnodup

/-- An analysis of an execution whose step can be looked up is one of its definition. -/
theorem analyzeGraph_eq {g : Engine} {e : Execution} (hdef : g.definitionFor e = .ok (some d))
    (hstep : e.currentStep.isHashable = true) :
    g.analyzeGraph e = .ok (d.analyzeFrom e.currentStep.toText?).toValue := by
  unfold Engine.analyzeGraph
  rw [hdef]
  exact if_pos hstep

/-! ## Cycles -/

/-- Whatever a script declares, the search for cycles ends, no deeper than there are
    steps.  Seen from any step, the analysis lists cycles of actions between declared
    steps only, and it lists none just when no path of actions leads from a step back to
    it. -/
theorem cycles_of_define (h : define serial name description script = .ok d) :
    (∃ found, d.graph.Scans d.steps.length d.stepNames .start found ∧
      found.cycles = d.graph.cycles) ∧
    ∀ (g : Engine) (e : Execution), g.definitionFor e = .ok (some d) →
      e.currentStep.isHashable = true →
        let a := d.analyzeFrom e.currentStep.toText?
        g.analyzeGraph e = .ok a.toValue ∧ a.cycles = d.graph.cycles ∧
        (∀ c ∈ a.cycles, IsCycle d.Follows c ∧ ∀ s ∈ c, s ∈ d.stepNames) ∧
        (a.cycles = [] ↔ ∀ s, ¬Relation.TransGen d.Follows s s) := by
  obtain ⟨found, hscans, hcycles, hfound, hnone⟩ := d.graph.scans_nodes
  rw [hcycles, edge_eq_follows (distinct_of_define h).steps] at hnone
  rw [hcycles, edge_eq_follows (distinct_of_define h).steps] at hfound
  have hlength : d.graph.length = d.steps.length := List.length_map _
  rw [hlength, nodes_graph] at hscans
  refine ⟨⟨found, hscans, hcycles⟩, fun g e hdef hstep => ?_⟩
  exact ⟨analyzeGraph_eq hdef hstep, rfl,
    fun c hc => ⟨hfound c hc, mem_stepNames_of_isCycle (hfound c hc)⟩, hnone⟩

/-- A ticket that can be closed or misplaced, never to come out again, with an action to a
    step that nobody declares, and a step that no path of actions leads to. -/
def looseTicket : Definition where
  serial := 1
  name   := "ticket"
  steps  :=
    [ { name := "open"
        actions := [⟨"close", "closed", none, none, false⟩,
          ⟨"misplace", "limbo", none, none, false⟩] },
      { name := "limbo"
        actions := [⟨"wait", "limbo", none, none, false⟩,
          ⟨"shelve", "shelf", none, none, false⟩] },
      { name := "shelf"
        actions := [⟨"fetch", "limbo", none, none, false⟩,
          ⟨"escalate", "board", none, none, false⟩] },
      { name := "closed" },
      { name := "archived", actions := [⟨"reopen", "open", none, none, false⟩] } ]

/-- What declares such a ticket. -/
def looseScript : List Declaration :=
  [ .step "open" none false
      [.action "close" "closed" none none false, .action "misplace" "limbo" none none false],
    .step "limbo" none false
      [.action "wait" "limbo" none none false, .action "shelve" "shelf" none none false],
    .step "shelf" none false
      [.action "fetch" "limbo" none none false, .action "escalate" "board" none none false],
    .step "closed" none false [],
    .step "archived" none false [.action "reopen" "open" none none false] ]

/-- The engine that knows such tickets, whatever is wrong with them. -/
def looseEngine : Engine := { registry := ⟨[looseTicket]⟩ }

/-- A ticket at a step. -/
def ticketAt (step : String) : Execution :=
  { id := "exec-1", workflowName := .str "ticket", subject := .subject "Desk" "7"
    currentStep := .str step, status := .active, context := .dict [], history := []
    assignedActor := none, version := 0, createdAt := .defaultNow, updatedAt := .defaultNow }

/-- Seen from a closed ticket, too, misplaced ones go round in two cycles. -/
theorem cycles_of_looseScript : define 1 "ticket" none looseScript = .ok looseTicket ∧
    looseEngine.definitionFor (ticketAt "closed") = .ok (some looseTicket) ∧
    (looseTicket.analyzeFrom (some "closed")).cycles =
      [["limbo", "limbo"], ["limbo", "shelf", "limbo"]] ∧
    looseEngine.analyzeGraph (ticketAt "closed") =
      .ok (looseTicket.analyzeFrom (some "closed")).toValue ∧
    IsCycle looseTicket.Follows ["limbo", "shelf", "limbo"] ∧
    ¬∀ s, ¬Relation.TransGen looseTicket.Follows s s := by
  have hdefine : define 1 "ticket" none looseScript = .ok looseTicket := rfl
  have hdef : looseEngine.definitionFor (ticketAt "closed") = .ok (some looseTicket) := rfl
  have hcycles : (looseTicket.analyzeFrom (some "closed")).cycles =
      [["limbo", "limbo"], ["limbo", "shelf", "limbo"]] := by decide +kernel
  obtain ⟨-, hanalysis⟩ := cycles_of_define hdefine
  obtain ⟨hvalue, -, hfound, hnone⟩ := hanalysis looseEngine (ticketAt "closed") hdef rfl
  refine ⟨hdefine, hdef, hcycles, hvalue, (hfound _ ?_).1, fun hall => ?_⟩
  · exact hcycles ▸ List.mem_cons_of_mem _ List.mem_cons_self
  · exact absurd (hcycles.symm.trans (hnone.mpr hall)) (List.cons_ne_nil _ _)

/-! ## Reachable steps and dead ends -/

open Classical in
/-- Where step names differ, the analysis parts the steps by what paths of actions lead
    to. -/
theorem reachable_analyzeFrom (hnodup : d.stepNames.Nodup) (step : Option String) :
    (d.analyzeFrom step).reachable = (d.stepNames.filter fun s => d.SeenFrom step s) ∧
      (d.analyzeFrom step).unreachable = d.stepNames.filter fun s => ¬d.SeenFrom step s := by
  constructor
  · refine List.filter_congr fun s _ => ?_
    rw [Bool.eq_iff_iff, contains_seen_iff hnodup, decide_eq_true_iff]
  · refine List.filter_congr fun s _ => ?_
    rw [Bool.eq_iff_iff, Bool.not_eq_true', ← Bool.not_eq_true, contains_seen_iff hnodup,
      decide_eq_true_iff]

open Classical in
/-- Where step names differ, the dead ends are the steps from which no final one can be
    reached. -/
theorem deadEnds_eq (hnodup : d.stepNames.Nodup) :
    d.deadEnds = d.stepNames.filter fun s =>
      s ∉ d.finalSteps ∧ ∀ t ∈ d.finalSteps, ¬d.LeadsTo s t := by
  refine List.filter_congr fun s hs => ?_
  have hdeclared : d.hasStep s = true := hasStep_iff.mpr (List.mem_map.mp hs)
  rw [Bool.eq_iff_iff, decide_eq_true_iff, Bool.and_eq_true, Bool.not_eq_true',
    Bool.not_eq_true', ← Bool.not_eq_true, List.contains_iff_mem, List.any_eq_false]
  refine and_congr_right fun _ => ?_
  constructor
  · intro h t ht hleads
    exact h t ((mem_reachable_iff hnodup).mpr ⟨hdeclared, hleads⟩)
      (List.contains_iff_mem.mpr ht)
  · intro h t ht hfinal
    exact h t (List.contains_iff_mem.mp hfinal) ((mem_reachable_iff hnodup).mp ht).2

/-- From the initial step the analysis leaves out what the checks leave out. -/
theorem unreachable_initial (d : Definition) :
    (d.analyzeFrom d.initialStep?).unreachable = d.unreachableSteps := by
  unfold unreachableSteps
  cases hfirst : d.initialStep? with
  | none =>
      have hsteps : d.stepNames = [] := by
        unfold stepNames
        rw [List.map_eq_nil_iff]
        exact List.head?_eq_none_iff.mp (Option.map_eq_none_iff.mp hfirst)
      show d.stepNames.filter _ = []
      rw [hsteps]
      rfl
  | some first =>
      have hdeclares : d.graph.declares first = true := by
        rw [declares_graph]
        exact hasStep_of_initialStep? hfirst
      show d.stepNames.filter (fun s => !(d.graph.reachable first).contains s) = _
      unfold Graph.reachable
      rw [if_pos hdeclares]

open Classical in
/-- Whatever a script declares, and at whatever step an execution of it is, the analysis
    parts the declared steps, in order, into those that a path of actions leads to from
    there and the others; from the initial step the others are those that the checks
    leave out; and its dead ends are the steps without a path to a final one, which they
    are not themselves. -/
theorem analysis_of_define (h : define serial name description script = .ok d) {g : Engine}
    {e : Execution} (hdef : g.definitionFor e = .ok (some d))
    (hstep : e.currentStep.isHashable = true) :
    let a := d.analyzeFrom e.currentStep.toText?
    g.analyzeGraph e = .ok a.toValue ∧
      a.reachable = (d.stepNames.filter fun s => d.SeenFrom e.currentStep.toText? s) ∧
      a.unreachable = (d.stepNames.filter fun s => ¬d.SeenFrom e.currentStep.toText? s) ∧
      (e.currentStep.toText? = d.initialStep? → a.unreachable = d.unreachableSteps) ∧
      a.deadEnds = d.stepNames.filter fun s =>
        s ∉ d.finalSteps ∧ ∀ t ∈ d.finalSteps, ¬d.LeadsTo s t := by
  have hnodup := (distinct_of_define h).steps
  obtain ⟨hreachable, hunreachable⟩ := reachable_analyzeFrom hnodup e.currentStep.toText?
  refine ⟨analyzeGraph_eq hdef hstep, hreachable, hunreachable, ?_, deadEnds_eq hnodup⟩
  intro hinitial
  rw [hinitial]
  exact d.unreachable_initial

open Classical in
/-- A misplaced ticket is seen to be in a dead end; seen from an open one, what cannot be
    reached is what the checks find. -/
theorem analysis_of_looseScript : define 1 "ticket" none looseScript = .ok looseTicket ∧
    looseEngine.definitionFor (ticketAt "limbo") = .ok (some looseTicket) ∧
    looseEngine.analyzeGraph (ticketAt "limbo") =
      .ok (looseTicket.analyzeFrom (some "limbo")).toValue ∧
    (looseTicket.analyzeFrom (some "limbo")).reachable = ["limbo", "shelf"] ∧
    looseTicket.deadEnds = ["limbo", "shelf"] ∧ ¬looseTicket.LeadsTo "limbo" "closed" ∧
    (looseTicket.analyzeFrom (some "open")).unreachable = looseTicket.unreachableSteps ∧
    looseTicket.unreachableSteps = ["archived"] := by
  have hdefine : define 1 "ticket" none looseScript = .ok looseTicket := rfl
  have hknown (step : String) :
      looseEngine.definitionFor (ticketAt step) = .ok (some looseTicket) := rfl
  have hdeadEnds : looseTicket.deadEnds = ["limbo", "shelf"] := by decide +kernel
  obtain ⟨hlimbo, -, -, -, hends⟩ := analysis_of_define hdefine (hknown "limbo") rfl
  obtain ⟨-, -, -, hopen, -⟩ := analysis_of_define hdefine (hknown "open") rfl
  refine ⟨hdefine, hknown "limbo", hlimbo, by decide +kernel, hdeadEnds, ?_, hopen rfl,
    by decide +kernel⟩
  have hmem : "limbo" ∈ looseTicket.deadEnds := hdeadEnds ▸ List.mem_cons_self
  rw [show looseTicket.deadEnds = _ from hends] at hmem
  exact (of_decide_eq_true (List.mem_filter.mp hmem).2).2 "closed" (by decide +kernel)

end Definition

end Workflow
