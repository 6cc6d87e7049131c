import Workflow.Proofs.Builder

/-! # Validation — what the checks of a definition find

    The search for what paths lead to is bounded by the size of the graph.  The bound
    is never met: told without it, as turns that go on while the queue holds a node,
    the search empties its queue after as many turns as it has seen nodes.  So the
    checks name every step that no path of actions leads to, and no other, and one
    issue stands for each action without a declared target.

    The heart is `Front.drains`, where what holds between two turns counts the turns
    that are left. -/

namespace Workflow

/-! ## The search without a bound -/

namespace Graph

variable {g : Graph} {s n : String} {turns turns' fuel : Nat}
  {left queue seen found found' : List String}

/-- The search empties its queue in so many turns: while the queue holds a node, that
    node is left and its targets that are new join the queue. -/
inductive Drains (g : Graph) : Nat → List String → List String → List String → Prop where
  | dry (seen : List String) : Drains g 0 [] seen seen
  | turn {turns : Nat} {n : String} {queue seen found : List String} :
      Drains g turns (queue ++ fresh seen (g.targets n))
        (seen ++ fresh seen (g.targets n)) found →
      Drains g (turns + 1) (n :: queue) seen found

/-- The search can go one way only. -/
theorem Drains.unique (h : g.Drains turns queue seen found)
    (h' : g.Drains turns' queue seen found') : turns = turns' ∧ found = found' := by
  induction h generalizing turns' with
  | dry seen =>
      cases h' with
      | dry => exact ⟨rfl, rfl⟩
  | turn _ ih =>
      cases h' with
      | turn h' =>
          obtain ⟨hturns, hfound⟩ := ih h'
          exact ⟨congrArg (· + 1) hturns, hfound⟩

/-- With fuel for its turns the bounded search finds what the search finds. -/
theorem Drains.explore (h : g.Drains turns queue seen found) (hfuel : turns ≤ fuel) :
    g.explore fuel queue seen = found := by
  induction h generalizing fuel with
  | dry seen =>
      cases fuel with
      | zero => rfl
      | succ fuel => rfl
  | turn _ ih =>
      cases fuel with
      | zero => exact absurd hfuel (Nat.not_succ_le_zero _)
      | succ fuel => exact ih (Nat.le_of_succ_le_succ hfuel)

/-- A search with an empty queue has left every node that it has seen. -/
theorem Front.dry (h : g.Front s left [] seen) :
    ∃ turns found, g.Drains turns [] seen found ∧
      found.length = left.length + turns ∧ found.length ≤ g.edgeCount + 1 := by
  have hseen : seen.length = left.length := by rw [h.seen_eq, List.append_nil]
  exact ⟨0, seen, .dry seen, hseen, hseen ▸ h.length_le⟩

/-- Whatever the search has left, it empties its queue, and leaves each node that it
    has seen once. -/
theorem Front.drains (h : g.Front s left queue seen) :
    ∃ turns found, g.Drains turns queue seen found ∧
      found.length = left.length + turns ∧ found.length ≤ g.edgeCount + 1 := by
  -- by induction on how many nodes there may be left to leave
  generalize hrest : g.edgeCount + 1 - left.length = rest
  induction rest generalizing left queue seen with
  | zero =>
      cases queue with
      | nil => exact h.dry
      | cons n queue =>
          -- one node more would be left than there are
          have hle := h.turn.length_le
          rw [List.length_append, List.length_singleton] at hle
          omega
  | succ rest ih =>
      cases queue with
      | nil => exact h.dry
      | cons n queue =>
          obtain ⟨turns, found, hdrains, hlength, hle⟩ := ih h.turn (by
            rw [List.length_append, List.length_singleton]
            omega)
          refine ⟨turns + 1, found, .turn hdrains, ?_, hle⟩
          rw [hlength, List.length_append, List.length_singleton]
          omega

/-- From any node the search empties its queue, in one turn for each node that it
    finds, and the bound on it changes nothing. -/
theorem drains_reachableFrom (g : Graph) (s : String) :
    g.Drains (g.reachableFrom s).length [s] [s] (g.reachableFrom s) ∧
      (g.reachableFrom s).length ≤ g.edgeCount + 1 := by
  obtain ⟨turns, found, hdrains, hlength, hle⟩ := (Front.start g s).drains
  have hturns : turns = found.length := by
    rw [hlength, List.length_nil, Nat.zero_add]
  have hfound : g.reachableFrom s = found := hdrains.explore (by omega)
  rw [hfound]
  exact ⟨hturns ▸ hdrains, hle⟩

end Graph

/-! ## What the checks name -/

namespace Definition

variable {d : Definition}

/-- The declared actions, each with its step, in order. -/
def actionPairs (d : Definition) : List (StepDefinition × ActionDefinition) :=
  d.steps.flatMap fun s => s.actions.map fun a => (s, a)

/-- The actions whose target is not declared, each with its step, in order. -/
def danglingPairs (d : Definition) : List (StepDefinition × ActionDefinition) :=
  d.actionPairs.filter fun x => !d.hasStep x.2.target

/-- The issue of an action whose target is not declared. -/
def danglingText (x : StepDefinition × ActionDefinition) : String :=
  s!"Step '{x.1.name}' action '{x.2.name}' targets undefined step '{x.2.target}'"

/-- The issue of a step that no path of actions leads to. -/
def unreachableText (n : String) : String := s!"Step '{n}' is unreachable"

theorem contains_stepNames (d : Definition) (s : String) :
    d.stepNames.contains s = d.hasStep s := by
  rw [Bool.eq_iff_iff, List.contains_iff_mem, hasStep_iff]
  exact List.mem_map

/-- The issues of the steps, one after the other, are those of the pairs. -/
theorem flatMap_danglingIssues (d : Definition) :
    d.steps.flatMap d.danglingIssues = d.danglingPairs.map danglingText := by
  unfold danglingPairs actionPairs
  rw [List.filter_flatMap, List.map_flatMap]
  refine List.flatMap_congr fun s _ => ?_
  unfold danglingIssues
  rw [List.filter_map, List.map_map]
  refine congrArg _ (List.filter_congr fun a _ => ?_)
  exact congrArg _ (d.contains_stepNames a.target)

theorem issues_eq (h : d.steps ≠ []) :
    d.issues = d.danglingPairs.map danglingText ++
      d.unreachableSteps.map unreachableText := by
  unfold issues
  rw [if_neg (by simpa using h), flatMap_danglingIssues]
  rfl

/-- With names that are declared once, no two declared actions have the same step name
    and the same name. -/
theorem Distinct.nodup_actionPairs (h : d.Distinct) :
    (d.actionPairs.map fun x => (x.1.name, x.2.name)).Nodup := by
  unfold actionPairs
  rw [List.map_flatMap]
  refine List.nodup_flatMap.mpr ⟨fun s hs => ?_, ?_⟩
  · -- the actions of one step have different names
    rw [List.map_map]
    have hnames := (h.actions s hs).map (f := fun n => (s.name, n))
      fun _ _ hab => (Prod.mk.inj hab).2
    unfold StepDefinition.actionNames at hnames
    rw [List.map_map] at hnames
    exact hnames
  · -- those of two steps have different step names
    refine (List.pairwise_map.mp h.steps).imp fun {s s'} hne => ?_
    rw [Function.onFun_apply, List.disjoint_left]
    intro x hx hx'
    simp only [List.map_map, List.mem_map, Function.comp_apply] at hx hx'
    obtain ⟨a, _, rfl⟩ := hx
    obtain ⟨a', _, ha'⟩ := hx'
    exact hne (Prod.mk.inj ha').1.symm

open Classical in
/-- With step names that are declared once, the steps that the search leaves out are
    those that no path of actions leads to from the first. -/
theorem unreachableSteps_eq (hnodup : d.stepNames.Nodup) :
    d.unreachableSteps = d.stepNames.filter fun n =>
      ¬∃ first, d.initialStep? = some first ∧ d.LeadsTo first n := by
  unfold unreachableSteps
  cases hfirst : d.initialStep? with
  | none =>
      have hsteps : d.steps = [] := by
        cases hs : d.steps with
        | nil => rfl
        | cons s ss =>
            unfold initialStep? at hfirst
            rw [hs] at hfirst
            exact nomatch hfirst
      unfold stepNames
      rw [hsteps]
      rfl
  | some first =>
      refine List.filter_congr fun n _ => ?_
      rw [Bool.eq_iff_iff, Bool.not_eq_true', ← Bool.not_eq_true, List.contains_iff_mem,
        mem_reachableFrom_iff hnodup, decide_eq_true_iff]
      simp

/-! ## Sound and complete -/

open Classical in
/-- Whatever a script declares, the search ends, in no more turns than there are nodes
    to see; it leaves out, in declaration order, exactly the steps that no path of
    actions leads to from the first; there is no issue exactly when there is a step,
    every target is declared and every step is led to; and where there is a step, the
    issues are one for each action without a declared target, then one for each step
    that is left out, no two of them for the same names. -/
theorem issues_of_define {serial : Nat} {name : String} {description : Option String}
    {script : List Declaration} (h : define serial name description script = .ok d) :
    (∀ first, d.initialStep? = some first → ∃ turns ≤ d.graph.edgeCount + 1,
      d.graph.Drains turns [first] [first] (d.graph.reachableFrom first)) ∧
    (d.unreachableSteps = d.stepNames.filter fun n =>
      ¬∃ first, d.initialStep? = some first ∧ d.LeadsTo first n) ∧
    (d.issues = [] ↔ d.steps ≠ [] ∧ (∀ x ∈ d.actionPairs, d.hasStep x.2.target = true) ∧
      ∀ n ∈ d.stepNames, ∃ first, d.initialStep? = some first ∧ d.LeadsTo first n) ∧
    (d.steps ≠ [] → d.issues = d.danglingPairs.map danglingText ++
      d.unreachableSteps.map unreachableText) ∧
    (d.danglingPairs.map fun x => (x.1.name, x.2.name)).Nodup ∧
    d.unreachableSteps.Nodup := by
  have hd := distinct_of_define h
  have hleft := unreachableSteps_eq hd.steps
  refine ⟨fun first _ => ?_, hleft, ?_, issues_eq, ?_, ?_⟩
  · obtain ⟨hdrains, hle⟩ := d.graph.drains_reachableFrom first
    exact ⟨_, hle, hdrains⟩
  · by_cases hsteps : d.steps = []
    · have hissues : d.issues ≠ [] := by
        unfold issues
        rw [hsteps]
        exact List.cons_ne_nil _ _
      exact ⟨fun hnil => absurd hnil hissues, fun hall => absurd hsteps hall.1⟩
    · rw [issues_eq hsteps, List.append_eq_nil_iff, List.map_eq_nil_iff, List.map_eq_nil_iff,
        hleft]
      unfold danglingPairs
      rw [List.filter_eq_nil_iff, List.filter_eq_nil_iff]
      simp [hsteps]
  · exact hd.nodup_actionPairs.sublist (List.filter_sublist.map _)
  · rw [hleft]
    exact hd.steps.sublist List.filter_sublist

/-- A parcel that can be packed anew and sent back, with an action to a step that nobody
    declares, and a step that no path of actions leads to. -/
def strayParcel : Definition where
  serial := 1
  name   := "parcel"
  steps  :=
    [ { name := "packed"
        actions := [⟨"repack", "packed", none, none, false⟩, ⟨"send", "sent", none, none, false⟩] },
      { name := "sent"
        actions := [⟨"return", "packed", none, none, false⟩, ⟨"lose", "lost", none, none, false⟩] },
      { name := "kept", actions := [⟨"keep", "kept", none, none, false⟩] } ]

/-- What declares such a parcel. -/
def strayScript : List Declaration :=
  [ .step "packed" none false
      [.action "repack" "packed" none none false, .action "send" "sent" none none false],
    .step "sent" none false
      [.action "return" "packed" none none false, .action "lose" "lost" none none false],
    .step "kept" none false [.action "keep" "kept" none none false] ]

open Classical in
/-- The checks of such a parcel find the undeclared step, and the one that no path of
    actions leads to. -/
theorem issues_of_strayScript : define 1 "parcel" none strayScript = .ok strayParcel ∧
    strayParcel.issues = ["Step 'sent' action 'lose' targets undefined step 'lost'",
      "Step 'kept' is unreachable"] ∧ ¬strayParcel.LeadsTo "packed" "kept" ∧
    ∃ turns ≤ 6, strayParcel.graph.Drains turns ["packed"] ["packed"]
      ["packed", "sent", "lost"] := by
  have hdefine : define 1 "parcel" none strayScript = .ok strayParcel := rfl
  obtain ⟨hdrains, hunreachable, -⟩ := issues_of_define hdefine
  refine ⟨hdefine, by decide +kernel, fun hleads => ?_, hdrains "packed" rfl⟩
  have hkept : "kept" ∈ strayParcel.unreachableSteps := by decide +kernel
  rw [hunreachable, List.mem_filter, decide_eq_true_iff] at hkept
  exact hkept.2 ⟨"packed", rfl, hleads⟩

end Definition

end Workflow
