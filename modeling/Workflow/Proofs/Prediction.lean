import Workflow.Inspection.Prediction
import Workflow.Proofs.Alone
import Workflow.Proofs.Availability
import Workflow.Proofs.Builder
import Workflow.Proofs.Change
import Workflow.Proofs.Perform
import Workflow.Proofs.Place

/-! # Prediction — what is foretold of an action comes about

    A simulation tries an action on a copy of the context with test data in it.  The
    engine takes two operations for the same: one merges the data into the stored
    context, one performs the action on what is stored then.  The simulation asks the
    guard of the one action and the engine asks the guards of all actions of the step,
    which comes to the same where guards only read and the actions of a step have
    different names.

    The heart is `Open`: what it takes to perform an action.  It is what a simulation
    finds out about the merged snapshot (`open_of_foretells`), and what the engine finds
    out (`perform_advances`). -/

namespace Workflow

variable {g : Engine} {on : Target} {cur e : Execution} {action : Value}
  {test entries : Mapping} {d : Definition} {step : StepDefinition} {a : ActionDefinition}
  {context : Value} {m : MemoryStore} {w w₁ : World}

/-! ## Guards that only read -/

/-- Does the guard leave every context as it is? -/
def Guard.OnlyReads (guard : Guard) : Prop := ∀ context, (guard context).2 = context

/-- Does the action leave every context that it is checked in as it is? -/
def ActionDefinition.OnlyReads (a : ActionDefinition) : Prop :=
  ∀ guard, a.guard = some guard → guard.OnlyReads

/-- Do all guards of the workflow only read? -/
def Definition.OnlyReads (d : Definition) : Prop :=
  ∀ step ∈ d.steps, ∀ a ∈ step.actions, a.OnlyReads

theorem ActionDefinition.OnlyReads.check (h : a.OnlyReads) (context : Value) :
    a.check context = (a.isAvailable context, context) := by
  unfold isAvailable ActionDefinition.check
  cases hg : a.guard with
  | none => rfl
  | some guard => exact Prod.ext rfl (h guard hg context)

namespace StepDefinition

/-- Where guards only read, the open actions are those that are available. -/
theorem openActions_eq {actions : List ActionDefinition} (h : ∀ a ∈ actions, a.OnlyReads) :
    openActions actions context = openAlone actions context :=
  openActions_of_spares fun a ha =>
    congrArg Prod.snd ((h a ((List.dropLast_sublist _).subset ha)).check context)

/-- An action that a step finds is open exactly when it is available, as no other
    action has its name. -/
theorem mem_openActions (hreads : ∀ a ∈ step.actions, a.OnlyReads)
    (hnames : step.actionNames.Nodup) (ha : step.findAction? a.name = some a) :
    a.name ∈ openActions step.actions context ↔ a.isAvailable context = true := by
  rw [openActions_eq hreads]
  exact mem_openAlone hnames (List.mem_of_find?_eq_some ha)

end StepDefinition

namespace Engine

/-! ## What it takes to perform an action -/

/-- The workflows of an engine have guards that only read, and different names for their
    steps and for the actions of each, as every declared workflow has
    (`Definition.distinct_of_define`). -/
structure Predictable (g : Engine) : Prop where
  reads : ∀ name d, g.registry.get? name = some d → d.OnlyReads
  named : ∀ name d, g.registry.get? name = some d → d.Distinct

/-- What a simulation needs is there when the step and the action are found. -/
theorem simulated_ok {found : Option Definition} :
    simulated found e action = .ok (d, step, a) ↔ found = some d ∧
      (e.currentStep.toText? = some step.name ∧ d.findStep? step.name = some step) ∧
      (action.toText? = some a.name ∧ step.findAction? a.name = some a) := by
  unfold simulated
  cases found with
  | none => exact ⟨fun h => (nomatch h), fun h => (nomatch h.1)⟩
  | some d' =>
      constructor
      · intro h
        obtain ⟨s, hs, h⟩ := exceptBind_ok.mp h
        obtain ⟨b, hb, h⟩ := exceptBind_ok.mp h
        obtain ⟨rfl, rfl, rfl⟩ : d' = d ∧ s = step ∧ b = a := by
          simpa using Except.ok.inj h
        exact ⟨rfl, named?_iff.mp (requireStep_ok.mp hs), requireAction_ok hb⟩
      · rintro ⟨hd, hstep, haction, ha⟩
        obtain rfl := Option.some.inj hd
        have hs : d'.requireStep e.currentStep = .ok step :=
          requireStep_ok.mpr (named?_iff.mpr hstep)
        have hb : step.requireAction action = .ok a := by
          unfold StepDefinition.requireAction
          rw [haction, Option.bind_some, ha]
        exact exceptBind_ok.mpr ⟨step, hs, exceptBind_ok.mpr ⟨a, hb, rfl⟩⟩

/-- An action is open when its step and it are found, its own guard holds and so do the
    conditions of the step, for an active execution. -/
theorem open_iff (hg : g.Predictable) (hd : g.definitionFor e = .ok (some d)) :
    g.Open action e d step a ↔ simulated (some d) e action = .ok (d, step, a) ∧
      a.isAvailable e.context = true ∧ step.satisfiesConditions e.context = true ∧
      e.status = .active := by
  obtain ⟨name, hname, hregistered⟩ := definitionFor_some hd
  -- the engine asks for a name among those of all open actions of the step
  have hopen (hstep : e.currentStep.toText? = some step.name ∧
      d.findStep? step.name = some step) (ha : step.findAction? a.name = some a) :
      (∃ names, g.availableActions e = .ok names ∧ a.name ∈ names) ↔
        a.isAvailable e.context = true := by
    have hmem : step ∈ d.steps := List.mem_of_find?_eq_some hstep.2
    rw [← StepDefinition.mem_openActions (hg.reads name d hregistered step hmem)
      ((hg.named name d hregistered).actions step hmem) ha]
    rw [availableActions_of_named hd (named?_iff.mpr hstep)]
    constructor
    · rintro ⟨names, hnames, hin⟩
      rw [Except.ok.inj hnames]
      exact hin
    · intro hin
      exact ⟨_, rfl, hin⟩
  constructor
  · intro h
    exact ⟨simulated_ok.mpr ⟨rfl, h.current, h.named⟩,
      (hopen h.current h.named.2).mp h.available, List.all_eq_true.mpr h.conditions, h.active⟩
  · rintro ⟨hsimulated, havailable, hconditions, hactive⟩
    obtain ⟨_, hstep, hnamed⟩ := simulated_ok.mp hsimulated
    exact ⟨⟨name, hname, hregistered⟩, hactive, hstep, hnamed,
      (hopen hstep hnamed.2).mpr havailable, List.all_eq_true.mp hconditions⟩

/-- The action is as open on a snapshot as on what is committed of it. -/
theorem open_committed {v : Int} {now : Timestamp} :
    g.Open action (e.committed v now) d step a ↔ g.Open action e d step a :=
  ⟨fun h => ⟨h.registered, h.active, h.current, h.named, h.available, h.conditions⟩,
    fun h => ⟨h.registered, h.active, h.current, h.named, h.available, h.conditions⟩⟩

/-- An open action is decided on. -/
theorem Open.decides {additional : Mapping} (h : g.Open action e d step a)
    (actor : Option EntityRef) (hcontext : e.context.updated additional = .ok context)
    (now : Timestamp) (s : Serials) :
    (g.performMutation action actor additional e).runAt now s =
      (.ok (some (advance d e step a actor context now), none), s) := by
  obtain ⟨names, hnames, hin⟩ := h.available
  have hsimulated := simulated_ok.mpr ⟨rfl, h.current, h.named⟩
  obtain ⟨step', hstep, hrest⟩ := exceptBind_ok.mp hsimulated
  obtain ⟨a', ha, hsame⟩ := exceptBind_ok.mp hrest
  obtain ⟨rfl, rfl⟩ : step' = step ∧ a' = a := by
    simpa using Except.ok.inj hsame
  have hopen : action.toText?.any (e.openActions (some d)).contains = true := by
    rw [h.named.1, Except.ok.inj ((availableActions_eq h.definitionFor).symm.trans hnames)]
    exact List.contains_iff_mem.mpr hin
  have hissues : transitionIssues d e action true = [] := by
    have hmet : step'.satisfiesConditions e.context = true := List.all_eq_true.mpr h.conditions
    unfold transitionIssues
    rw [if_pos h.active, named?_iff.mpr h.current]
    simp only [if_pos hmet]
    rfl
  unfold performMutation
  refine Draft.runAt_ofExcept_bind_ok.mpr ⟨some d, h.definitionFor, ?_⟩
  dsimp only
  rw [hopen, hissues, if_neg (fun h => nomatch h)]
  refine Draft.runAt_ofExcept_bind_ok.mpr ⟨step', hstep, ?_⟩
  refine Draft.runAt_ofExcept_bind_ok.mpr ⟨a', ha, ?_⟩
  exact Draft.runAt_ofExcept_bind_ok.mpr ⟨context, hcontext, rfl⟩

/-! ## What a simulation foretells -/

/-- Does the simulation of the action report the value under the key? -/
def Foretells (g : Engine) (e : Execution) (action test : Value) (key : String)
    (v : Value) : Prop :=
  ∃ report : Mapping, g.simulateAction e action test = .ok (.dict report) ∧
    report.field? key = some v

/-- What is picked from a list is known when it is known of each item whether it is. -/
theorem isSome_filterMapM {α β : Type} {f : α → Option (Option β)} {l : List α}
    (h : ∀ x ∈ l, (f x).isSome = true) : (l.filterMapM f).isSome = true := by
  induction l with
  | nil => rfl
  | cons x l ih =>
      rw [List.forall_mem_cons] at h
      obtain ⟨picked, hpicked⟩ := Option.isSome_iff_exists.mp h.1
      obtain ⟨rest, hrest⟩ := Option.isSome_iff_exists.mp (ih h.2)
      rw [List.filterMapM_cons]
      cases picked with
      | none => simp [hpicked, hrest]
      | some y => simp [hpicked, hrest]

/-- Test data that is fit is compared with the context to the end. -/
theorem overwritten_ok (h : test.Fit) (entries : Mapping) :
    ∃ replaced, overwritten (.dict entries) test = .ok replaced := by
  have hsome : (overwritten? entries test).isSome = true := by
    refine isSome_filterMapM fun t ht => ?_
    cases entries.find? t.1 with
    | none => rfl
    | some v =>
        obtain ⟨same, hsame⟩ := Option.isSome_iff_exists.mp
          (Place.isSome_same? (p := ⟨v, [.dict entries]⟩) (q := ⟨t.2, [.dict test]⟩) (h t ht).2)
        simp [hsame]
  obtain ⟨keys, hkeys⟩ := Option.isSome_iff_exists.mp hsome
  refine ⟨keys, ?_⟩
  simp only [overwritten, hkeys]

/-- What a simulation reports of an action that is open in the merged context. -/
theorem foretells_of_open (hg : g.Predictable) (hvalid : contextProblems false test = [])
    (hcontext : e.context = .dict entries)
    (hopen : g.Open action { e with context := .dict (entries.merge test) } d step a) :
    g.Foretells e action (.dict test) "would_succeed" (.bool true) ∧
      g.Foretells e action (.dict test) "target_step" (.str a.target) ∧
      g.Foretells e action (.dict test) "completes_workflow"
        (.bool (d.isFinalStep a.target)) := by
  have hfit := (contextProblems_nil.mp hvalid).1
  have hd : g.definitionFor e = .ok (some d) := hopen.definitionFor
  obtain ⟨hsimulated, havailable, hmet, hactive⟩ := (open_iff hg hopen.definitionFor).mp hopen
  obtain ⟨name, -, hregistered⟩ := definitionFor_some hd
  have hreads : a.OnlyReads := hg.reads name d hregistered step
    (List.mem_of_find?_eq_some hopen.current.2) a (List.mem_of_find?_eq_some hopen.named.2)
  obtain ⟨replaced, hreplaced⟩ := overwritten_ok hfit entries
  have hupdated : e.context.updated test = .ok (.dict (entries.merge test)) := by
    rw [hcontext]
    rfl
  have hreport : g.simulateAction e action (.dict test) =
      .ok (simulate d step a e (.dict (entries.merge test)) test replaced).toValue := by
    have hsimulated : simulated (some d) e action = .ok (d, step, a) := hsimulated
    rw [← hcontext] at hreplaced
    unfold simulateAction
    simp only [hd, bind, Except.bind, hsimulated, looseMapping_of_valid hfit, hupdated, hreplaced]
    rfl
  have hsucceeds : (simulate d step a e (.dict (entries.merge test)) test
      replaced).wouldSucceed = true := by
    have hactive : e.status = .active := hactive
    have hmet : step.satisfiesConditions (.dict (entries.merge test)) = true := hmet
    have havailable : a.isAvailable (.dict (entries.merge test)) = true := havailable
    simp only [simulate, hreads.check, havailable, hmet, hactive, hvalid]
    rfl
  refine ⟨⟨_, hreport, ?_⟩, ⟨_, hreport, rfl⟩, ⟨_, hreport, ?_⟩⟩
  · rw [← hsucceeds]
    rfl
  · rfl

/-- A map whose copy is valid is that copy. -/
theorem looseMapping_valid {copied : Mapping} (h : looseMapping (.dict test) = .ok copied)
    (hvalid : contextProblems false copied = []) : copied = test := by
  cases test with
  | nil => exact (Except.ok.inj h).symm
  | cons t test =>
      have hcopy : Mapping.copy (t :: test) = copied := Except.ok.inj h
      rw [← hcopy] at hvalid ⊢
      exact (Mapping.Fit.of_copy (contextProblems_nil.mp hvalid).1).copy

/-- An action that a simulation foretells to succeed is open in the merged context, and
    the test data is valid. -/
theorem open_of_foretells (hg : g.Predictable) (hcontext : e.context = .dict entries)
    (h : g.Foretells e action (.dict test) "would_succeed" (.bool true)) :
    contextProblems false test = [] ∧ ∃ d step a,
      g.Open action { e with context := .dict (entries.merge test) } d step a := by
  obtain ⟨report, hreport, hsuccess⟩ := h
  obtain ⟨found, hfound, hreport⟩ := exceptBind_ok.mp hreport
  cases hsimulated : simulated found e action with
  | error f =>
      rw [hsimulated] at hreport
      have hreport : [(Value.str "action", action), (.str "would_succeed", .bool false),
          (.str "error", .str f.text)] = report := Value.dict.inj (Except.ok.inj hreport)
      rw [← hreport] at hsuccess
      exact nomatch hsuccess
  | ok r =>
      obtain ⟨d, step, a⟩ := r
      rw [hsimulated] at hreport
      obtain ⟨copied, hcopied, hreport⟩ := exceptBind_ok.mp hreport
      obtain ⟨merged, hmerged, hreport⟩ := exceptBind_ok.mp hreport
      obtain ⟨replaced, -, hreport⟩ := exceptBind_ok.mp hreport
      have hreport := Value.dict.inj (Except.ok.inj hreport)
      rw [← hreport] at hsuccess
      have hsuccess : (simulate d step a e merged copied replaced).wouldSucceed = true := by
        simpa using Scalar.bool.inj (Value.scalar.inj (Option.some.inj hsuccess))
      obtain ⟨rfl, hstep, hnamed⟩ := simulated_ok.mp hsimulated
      obtain ⟨name, -, hregistered⟩ := definitionFor_some hfound
      have hreads : a.OnlyReads := hg.reads name d hregistered step
        (List.mem_of_find?_eq_some hstep.2) a (List.mem_of_find?_eq_some hnamed.2)
      -- the guard leaves the copy alone, so the conditions see the merged context
      simp only [simulate, hreads.check, Bool.and_eq_true, decide_eq_true_eq,
        List.isEmpty_iff] at hsuccess
      obtain ⟨⟨⟨havailable, hmet⟩, hactive⟩, hvalid⟩ := hsuccess
      rw [looseMapping_valid hcopied hvalid, hcontext] at hmerged
      rw [updated_dict hmerged] at havailable hmet
      rw [looseMapping_valid hcopied hvalid] at hvalid
      refine ⟨hvalid, d, step, a, ?_⟩
      have hfound : g.definitionFor { e with context := .dict (entries.merge test) } =
          .ok (some d) := hfound
      exact (open_iff hg hfound).mpr ⟨hsimulated, havailable, hmet, hactive⟩

/-! ## The two operations, with no one else at work -/

/-- The snapshot is the one that is stored under the id that an operation is for, and no
    save meets trouble. -/
structure Stands (on : Target) (e : Execution) (w : World) : Prop where
  calm   : w.disturbances = []
  stored : ∃ m, w.store = .memory m ∧ m.get? e.id = some e
  owns   : e.OwnsId
  asked  : on.executionId = .str e.id

namespace Stands

variable {α : Type} {fn : Mutation α} {r : α} {s : Serials} {p : Execution}

theorem found (h : Stands on e w) : w.store.find? w.now on.executionId = .ok (some e) := by
  obtain ⟨m, hm, hget⟩ := h.stored
  rw [hm, h.asked]
  exact (MemoryStore.find?_str m e.id).trans (congrArg _ hget)

/-- A mutation that proposes a successor of the snapshot puts it in its place. -/
theorem run_mutate (h : Stands on e w) (operation : String) (failOnError : Bool)
    (hdecides : (fn e).runAt w.now w.serials = (.ok (some p, r), s)) (hid : p.id = e.id)
    (howns : p.OwnsId) : ∃ w₁,
      (g.mutate on.executionId fn operation failOnError).run w =
        (.ok (p.committed e.version w.now, r), w₁) ∧
      Stands on (p.committed e.version w.now) w₁ := by
  obtain ⟨m, hm, hget⟩ := h.stored
  have hsave : w.store.save w.now p e.version =
      .ok (p.committed e.version w.now, .memory (m.replace (p.committed e.version w.now))) := by
    rw [hm]
    exact Store.save_memory (hid ▸ hget) howns w.now
  refine ⟨_, Engine.run_mutate operation failOnError h.found hdecides hsave h.calm, ?_⟩
  refine ⟨h.calm, ⟨_, rfl, ?_⟩, howns.committed e.version w.now, ?_⟩
  · rw [MemoryStore.get?_replace, if_pos rfl, Execution.committed_id, hid, hget]
    rfl
  · rw [h.asked, Execution.committed_id, hid]

/-- Valid values are merged. -/
theorem run_mergeContext (h : Stands on e w) (hcontext : e.context = .dict entries)
    (hvalid : contextProblems false test = []) : ∃ w₁,
      (g.mergeContext on (.dict test)).run w =
        (.ok (({ e with context := .dict (entries.merge test) } : Execution).committed e.version
          w.now), w₁) ∧
      Stands on (({ e with context := .dict (entries.merge test) } : Execution).committed
        e.version w.now) w₁ := by
  have hdecides : (mergeMutation test e).runAt w.now w.serials =
      (.ok (some { e with context := .dict (entries.merge test) }, ()), w.serials) := by
    refine Draft.runAt_ofExcept_bind_ok.mpr ⟨.dict (entries.merge test), ?_, rfl⟩
    rw [hcontext]
    rfl
  obtain ⟨w₁, hrun, hstands⟩ := h.run_mutate (g := g) "context merge" false hdecides rfl h.owns
  refine ⟨w₁, ?_, hstands⟩
  have hproblems : valueProblems false (.dict test) = [] := hvalid
  unfold mergeContext
  rw [hproblems, if_neg (fun h => nomatch h),
    looseMapping_of_valid (contextProblems_nil.mp hvalid).1]
  exact Client.run_bind_ok hrun

/-- An open action is performed, and its result is stored. -/
theorem run_perform (h : Stands on e w) (hcontext : e.context = .dict entries)
    (hopen : g.Open action e d step a) : ∃ e' w₁,
      (g.perform on action .null .null).run w = (.ok (.done e'), w₁) ∧
      w₁.store.find? w₁.now on.executionId = .ok (some e') := by
  have hupdated : e.context.updated [] = .ok (.dict entries) := by
    rw [hcontext]
    rfl
  obtain ⟨w₁, hrun, hstands⟩ := h.run_mutate (g := g) s!"action {action.display}" true
    (hopen.decides none hupdated w.now w.serials) rfl h.owns
  exact ⟨_, w₁, Client.run_bind_ok hrun, hstands.found⟩

/-- An action that succeeds was open, and has moved to its target. -/
theorem perform_advances (h : Stands on e w) {r : ActionResult} {e' : Execution}
    (hrun : (g.perform on action .null .null).run w = (.ok r, w₁)) (hsuccess : r.success = true)
    (hresult : r.execution = some e') :
    ∃ d step a, g.Open action e d step a ∧ e'.currentStep = .str a.target ∧
      e'.status = if d.isFinalStep a.target then .completed else e.status := by
  have hperform : g.perform on action .null .null =
      g.mutate on.executionId (g.performMutation action none []) s!"action {action.display}" true
        >>= tell := rfl
  rw [hperform] at hrun
  obtain ⟨⟨committed, rejection⟩, w₂, hmutate, hended⟩ := Client.run_bind_inv hrun
  obtain ⟨base, m, o, hbase, -, -, -, hdecides, hsaved⟩ :=
    run_mutate_inv (performMutation_counts g action none []) h.calm hmutate
  have hbase : base = e := by
    simpa using hbase.symm.trans h.found
  rw [hbase] at hdecides hsaved
  rcases performMutation_decides hdecides with
    ⟨d, step, a, context, hopen, -, ho, rfl, -⟩ | ⟨-, hrefused⟩
  · have hdone : ActionResult.done committed = r := Except.ok.inj (Prod.mk.inj hended).1
    rw [← hdone] at hresult
    rw [← Option.some.inj hresult, Store.saved_eq (hsaved _ ho)]
    exact ⟨d, step, a, hopen, rfl, rfl⟩
  · obtain ⟨⟨errors, reason⟩, rfl⟩ := Option.isSome_iff_exists.mp hrefused
    have hrejected : ActionResult.rejected errors reason (some committed) = r :=
      Except.ok.inj (Prod.mk.inj hended).1
    rw [← hrejected] at hsuccess
    exact nomatch hsuccess

end Stands

/-- From the world on, merging the values and then performing the action both succeed,
    and the execution is the result, which is stored then. -/
def Succeeds (g : Engine) (on : Target) (action values : Value) (w : World)
    (e : Execution) : Prop :=
  ∃ merged w₁ r w₂, (g.mergeContext on values).run w = (.ok merged, w₁) ∧
    (g.perform on action .null .null).run w₁ = (.ok r, w₂) ∧ r.success = true ∧
    r.execution = some e ∧ w₂.store.find? w₂.now on.executionId = .ok (some e)

/-- What both succeed in is open in the merged context. -/
theorem open_of_succeeds (h : Stands on cur w) (hcontext : cur.context = .dict entries)
    (hsucceeds : g.Succeeds on action (.dict test) w e) :
    contextProblems false test = [] ∧ ∃ d step a,
      g.Open action { cur with context := .dict (entries.merge test) } d step a ∧
      e.currentStep = .str a.target ∧
      e.status = if d.isFinalStep a.target then .completed else cur.status := by
  obtain ⟨merged, w₁, r, w₂, hmerge, hperform, hsuccess, hresult, -⟩ := hsucceeds
  -- a merge of invalid values fails before it asks for anything
  have hvalid : contextProblems false test = [] := by
    by_contra hproblems
    have hfailed : g.mergeContext on (.dict test) =
        .fail (invalidContext (contextProblems false test) on.snapshot?) := by
      show (if !(contextProblems false test).isEmpty then _ else _ : Client Execution) = _
      rw [if_pos (by simpa using hproblems)]
      rfl
    rw [hfailed] at hmerge
    exact nomatch (Prod.mk.inj hmerge).1
  obtain ⟨w', hrun, hstands⟩ := h.run_mergeContext (g := g) hcontext hvalid
  obtain ⟨-, rfl⟩ := Prod.mk.inj (hmerge.symm.trans hrun)
  obtain ⟨d, step, a, hopen, hstep, hstatus⟩ := hstands.perform_advances hperform hsuccess hresult
  exact ⟨hvalid, d, step, a, open_committed.mp hopen, hstep, hstatus⟩

end Engine

/-- A simulation on the stored snapshot foretells that the action would succeed exactly
    when merging the test data and then performing the action does, with no one else at
    work and no trouble in the store.  Where it does, the simulation has told the step
    that the execution is at then, and whether it is completed.  The snapshot is sound in
    that its id is a text and its context a map; its status, its workflow and its step may
    be any. -/
theorem simulation_predicts (hg : g.Predictable) (hcalm : w.disturbances = [])
    (hstore : w.store = .memory m) (hcur : m.get? cur.id = some cur) (howns : cur.OwnsId)
    (hcontext : cur.context = .dict entries) (hon : on.executionId = .str cur.id)
    (action : Value) (test : Mapping) :
    (g.Foretells cur action (.dict test) "would_succeed" (.bool true) ↔
      ∃ e, g.Succeeds on action (.dict test) w e) ∧
    ∀ e, g.Succeeds on action (.dict test) w e →
      g.Foretells cur action (.dict test) "target_step" e.currentStep ∧
      g.Foretells cur action (.dict test) "completes_workflow"
        (.bool (decide (e.status = .completed))) := by
  have hstands : Engine.Stands on cur w := ⟨hcalm, ⟨m, hstore, hcur⟩, howns, hon⟩
  constructor
  · constructor
    · intro hforetold
      obtain ⟨hvalid, d, step, a, hopen⟩ := Engine.open_of_foretells hg hcontext hforetold
      obtain ⟨w₁, hmerge, hmerged⟩ := hstands.run_mergeContext (g := g) hcontext hvalid
      obtain ⟨e, w₂, hperform, hfound⟩ :=
        hmerged.run_perform (show _ = Value.dict (entries.merge test) from rfl)
          (Engine.open_committed.mpr hopen)
      exact ⟨e, _, w₁, _, w₂, hmerge, hperform, rfl, rfl, hfound⟩
    · rintro ⟨e, hsucceeds⟩
      obtain ⟨hvalid, d, step, a, hopen, -, -⟩ :=
        Engine.open_of_succeeds hstands hcontext hsucceeds
      exact (Engine.foretells_of_open hg hvalid hcontext hopen).1
  · intro e hsucceeds
    obtain ⟨hvalid, d, step, a, hopen, hstep, hstatus⟩ :=
      Engine.open_of_succeeds hstands hcontext hsucceeds
    obtain ⟨-, htarget, hcompletes⟩ := Engine.foretells_of_open hg hvalid hcontext hopen
    have hactive : cur.status = .active := hopen.active
    have hcompleted : decide (e.status = .completed) = d.isFinalStep a.target := by
      rw [hstatus, hactive]
      cases d.isFinalStep a.target with
      | true => rfl
      | false => rfl
    rw [hstep, hcompleted]
    exact ⟨htarget, hcompletes⟩

/-- A workflow whose one action is open to drafts that carry an approval, and whose first
    step asks for a reviewer. -/
def gatedWorkflow : Definition :=
  let holds (key : String) : Condition := fun context =>
    (context.entries?.bind fun m => m.field? key).map Value.truthy
  { serial := 1, name := "review"
    steps :=
      [ { name := "draft", conditions := [holds "reviewer"]
          actions := [⟨"publish", "published", some (holds "approved").toGuard, none, false⟩] },
        { name := "published" } ] }

/-- An engine for such drafts. -/
def gatedEngine : Engine := { registry := ⟨[gatedWorkflow]⟩ }

/-- A draft with a reviewer, but without an approval. -/
def gatedDraft : Execution :=
  { id := "exec-1", workflowName := .str "review", subject := .subject "Document" "7"
    currentStep := .str "draft", status := .active
    context := .dict [(.str "reviewer", .str "ann")], history := []
    assignedActor := none, version := 0, createdAt := .defaultNow, updatedAt := .defaultNow }

theorem gatedEngine_predictable : gatedEngine.Predictable := by
  have hregistered (name : String) (d : Definition)
      (h : gatedEngine.registry.get? name = some d) : d = gatedWorkflow :=
    List.mem_singleton.mp (List.mem_of_find?_eq_some h)
  constructor
  · intro name d h step hstep a ha guard hguard
    rw [hregistered name d h] at hstep
    rcases List.mem_cons.mp hstep with rfl | hstep
    · obtain rfl := List.mem_singleton.mp ha
      obtain rfl := Option.some.inj hguard
      intro context
      rfl
    · rw [List.mem_singleton.mp hstep] at ha
      exact absurd ha List.not_mem_nil
  · intro name d h
    rw [hregistered name d h]
    exact ⟨by decide, by decide⟩

/-- With an approval as test data the publication is foretold, and it comes about; without
    one it is neither. -/
theorem gatedDraft_predicted :
    let w : World := { store := .memory ⟨[gatedDraft]⟩ }
    let approval : Value := .dict [(.str "approved", .bool true)]
    gatedEngine.Foretells gatedDraft (.str "publish") approval "would_succeed" (.bool true) ∧
      (∃ e, gatedEngine.Succeeds (.snapshot gatedDraft) (.str "publish") approval w e) ∧
      ¬∃ e, gatedEngine.Succeeds (.snapshot gatedDraft) (.str "publish") (.dict []) w e := by
  intro w approval
  have howns : gatedDraft.OwnsId := rfl
  have hpredicts := simulation_predicts gatedEngine_predictable (w := w) rfl rfl rfl howns rfl
    (show (Target.snapshot gatedDraft).executionId = .str "exec-1" from rfl) (.str "publish")
  have hforetold : gatedEngine.Foretells gatedDraft (.str "publish") approval "would_succeed"
      (.bool true) := ⟨_, rfl, rfl⟩
  refine ⟨hforetold, (hpredicts _).1.mp hforetold, fun hsucceeds => ?_⟩
  obtain ⟨report, hreport, hsuccess⟩ := (hpredicts []).1.mpr hsucceeds
  rw [← Value.dict.inj (Except.ok.inj hreport)] at hsuccess
  exact nomatch hsuccess

end Workflow
