import Workflow.Proofs.Mutation
import Workflow.Proofs.System

/-! # Perform — an action happens as a whole or not at all

    An action validates, decides and offers against one snapshot, and marks the
    execution as failed when the store fails.  Three ends are possible, and each
    shows in what was written: the snapshot after the action, nothing, or the
    failure mark.

    The heart is `performMutation_decides`, which says all that the decision can
    come to; the ways of the store are `keeps_mutate`. -/

namespace Workflow

variable {g : Engine} {action : Value} {actor : Option EntityRef} {additional : Mapping}
  {base p : Execution} {m : Moment} {o : Option Execution} {ι : Type} {α : ι → Type}
  [DecidableEq ι]

/-! ## What an action decides -/

namespace Engine

/-- What holds of a snapshot on which an action is open to be performed: its
    workflow, its step and the action. -/
structure Open (g : Engine) (action : Value) (base : Execution) (d : Definition)
    (step : StepDefinition) (a : ActionDefinition) : Prop where
  registered : ∃ name, base.workflowName.toText? = some name ∧
    g.registry.get? name = some d
  active     : base.status = .active
  current    : base.currentStep.toText? = some step.name ∧
    d.findStep? step.name = some step
  named      : action.toText? = some a.name ∧ step.findAction? a.name = some a
  available  : ∃ names, g.availableActions base = .ok names ∧ a.name ∈ names
  conditions : ∀ x ∈ step.conditions, x.holds base.context = true

theorem definitionFor_some {d : Definition} (h : g.definitionFor base = .ok (some d)) :
    ∃ name, base.workflowName.toText? = some name ∧ g.registry.get? name = some d := by
  unfold definitionFor at h
  split at h
  · exact Option.bind_eq_some_iff.mp (Except.ok.inj h)
  · exact nomatch h

/-- A registered workflow is found by its name. -/
theorem definitionFor_of_name {d : Definition} {name : String}
    (hname : base.workflowName.toText? = some name) (hd : g.registry.get? name = some d) :
    g.definitionFor base = .ok (some d) := by
  have hhashable : base.workflowName.isHashable = true := by
    cases hw : base.workflowName with
    | scalar _ => rfl
    | _ =>
        rw [hw] at hname
        exact nomatch hname
  unfold definitionFor
  rw [if_pos hhashable, hname]
  exact congrArg Except.ok hd

/-- The workflow of a snapshot on which an action is open is the one that is asked for. -/
theorem Open.definitionFor {action : Value} {d : Definition} {step : StepDefinition}
    {a : ActionDefinition} (h : g.Open action base d step a) :
    g.definitionFor base = .ok (some d) := by
  obtain ⟨name, hname, hd⟩ := h.registered
  exact definitionFor_of_name hname hd

/-- A step is found under its own name only. -/
theorem named?_iff {d : Definition} {v : Value} {step : StepDefinition} :
    d.named? v = some step ↔
      v.toText? = some step.name ∧ d.findStep? step.name = some step := by
  constructor
  · intro h
    obtain ⟨name, hname, hstep⟩ := Option.bind_eq_some_iff.mp h
    have hn : step.name = name :=
      beq_iff_eq.mp (List.find?_some (p := fun x : StepDefinition => x.name == name) hstep)
    rw [hn]
    exact ⟨hname, hstep⟩
  · rintro ⟨hname, hstep⟩
    unfold Definition.named?
    rw [hname, Option.bind_some, hstep]

/-- A transition without issues is one of an active execution, open, and with its
    conditions met. -/
theorem transitionIssues_nil {d : Definition} {isOpen : Bool}
    (h : transitionIssues d base action isOpen = []) :
    base.status = .active ∧ isOpen = true ∧
      ∀ step, d.named? base.currentStep = some step →
        step.satisfiesConditions base.context = true := by
  unfold transitionIssues at h
  obtain ⟨h, hunmet⟩ := List.append_eq_nil_iff.mp h
  obtain ⟨hstatus, hclosed⟩ := List.append_eq_nil_iff.mp h
  refine ⟨?_, ?_, fun step hstep => ?_⟩
  · by_contra hs
    rw [if_neg hs] at hstatus
    exact nomatch hstatus
  · by_contra ho
    rw [if_neg ho] at hclosed
    exact nomatch hclosed
  · by_contra hc
    rw [hstep] at hunmet
    simp only [if_neg hc] at hunmet
    exact nomatch hunmet

theorem requireStep_ok {d : Definition} {v : Value} {step : StepDefinition} :
    d.requireStep v = .ok step ↔ d.named? v = some step := by
  unfold Definition.requireStep
  cases d.named? v with
  | none => exact ⟨fun h => (nomatch h), fun h => nomatch h⟩
  | some s => rw [Except.ok.injEq, Option.some.injEq]

/-- An action that is required is found under its own name. -/
theorem requireAction_ok {step : StepDefinition} {v : Value} {a : ActionDefinition}
    (h : step.requireAction v = .ok a) :
    v.toText? = some a.name ∧ step.findAction? a.name = some a := by
  unfold StepDefinition.requireAction at h
  split at h
  · rename_i ha
    obtain ⟨name, hname, hfind⟩ := Option.bind_eq_some_iff.mp ha
    rw [← Except.ok.inj h]
    have hn : _ = name :=
      beq_iff_eq.mp (List.find?_some (p := fun x : ActionDefinition => x.name == name) hfind)
    rw [hn]
    exact ⟨hname, hfind⟩
  · exact nomatch h

theorem availableActions_eq {d : Definition} (hd : g.definitionFor base = .ok (some d)) :
    g.availableActions base = .ok (base.openActions (some d)) := by
  unfold availableActions
  rw [hd]
  rfl

theorem availableActions_of_named {d : Definition} {step : StepDefinition}
    (hd : g.definitionFor base = .ok (some d)) (hstep : d.named? base.currentStep = some step) :
    g.availableActions base = .ok (StepDefinition.openActions step.actions base.context) := by
  rw [availableActions_eq hd]
  unfold Execution.openActions Execution.stepIn?
  rw [Option.bind_some, hstep]

/-- An action decides on an advance of the snapshot, when it is open, or on
    nothing, with a reason. -/
theorem performMutation_decides {r : Option (List String × Rejection)}
    (h : (g.performMutation action actor additional).Decides base m o r) :
    (∃ d step a context, g.Open action base d step a ∧
      base.context.updated additional = .ok context ∧
      o = some (advance d base step a actor context m.time) ∧ r = none ∧
      m.after = m.before) ∨
    (o = none ∧ r.isSome = true) := by
  unfold Mutation.Decides performMutation at h
  obtain ⟨od, hd, h⟩ := Draft.runAt_ofExcept_bind_ok.mp h
  cases od with
  | none =>
      obtain ⟨h, _⟩ := Draft.runAt_pure_ok.mp h
      obtain ⟨rfl, rfl⟩ := Prod.mk.inj h
      exact .inr ⟨rfl, rfl⟩
  | some d =>
      dsimp only at h
      split at h
      · obtain ⟨h, _⟩ := Draft.runAt_pure_ok.mp h
        obtain ⟨rfl, rfl⟩ := Prod.mk.inj h
        exact .inr ⟨rfl, rfl⟩
      · rename_i hissues
        obtain ⟨step, hstep, h⟩ := Draft.runAt_ofExcept_bind_ok.mp h
        obtain ⟨a, ha, h⟩ := Draft.runAt_ofExcept_bind_ok.mp h
        obtain ⟨context, hcontext, h⟩ := Draft.runAt_ofExcept_bind_ok.mp h
        obtain ⟨now, s, hnow, h⟩ := Draft.runAt_bind_ok.mp h
        obtain ⟨h, hs⟩ := Draft.runAt_pure_ok.mp h
        obtain ⟨rfl, rfl⟩ := Prod.mk.inj h
        obtain ⟨hnow, hs'⟩ := Prod.mk.inj hnow
        have hnow := Except.ok.inj hnow
        obtain ⟨hactive, hopen, hmet⟩ := transitionIssues_nil (by simpa using hissues)
        have hstep := requireStep_ok.mp hstep
        have ha := requireAction_ok ha
        refine .inl ⟨d, step, a, context, ⟨definitionFor_some hd, hactive, named?_iff.mp hstep,
          ha, ⟨_, availableActions_eq hd, ?_⟩, ?_⟩, hcontext, ?_, rfl, ?_⟩
        · rw [ha.1] at hopen
          exact List.contains_iff_mem.mp hopen
        · exact List.all_eq_true.mp (hmet step hstep)
        · rw [hnow]
        · rw [← hs, ← hs']

/-! ## How an action ends -/

/-- Who an actor argument stands for: null stands for nobody. -/
def StandsFor (actor : Value) (ref : Option EntityRef) : Prop :=
  (actor = .null ∧ ref = none) ∨ ∃ r, EntityRef.toActor actor = .ok r ∧ ref = some r

/-- What an action may ask for, having written nothing since it was begun. -/
def performTerms (g : Engine) (target : Target) (action actor additional : Value)
    (w₀ : List Write) : Client.Terms := fun t q =>
  ∃ values ref, looseMapping additional = .ok values ∧ contextProblems false values = [] ∧
    StandsFor actor ref ∧ (g.performMutation action ref values).terms target.executionId
      s!"action {action.display}" true w₀ t q

/-- How an action ends that comes to a result: with the one write of an advance, or
    with none. -/
inductive Acted (g : Engine) (action actor additional : Value) (w₀ : List Write) :
    Trail → ActionResult → Prop where
  | advanced {t : Trail} {base e : Execution} {d : Definition} {step : StepDefinition}
      {a : ActionDefinition} {values : Mapping} {ref : Option EntityRef} {context : Value}
      {m : Moment} :
      t.read = some base → g.Open action base d step a →
      looseMapping additional = .ok values → contextProblems false values = [] →
      StandsFor actor ref → base.context.updated values = .ok context →
      t.writes = w₀ ++ [⟨advance d base step a ref context m.time, base.version, e⟩] →
      Acted g action actor additional w₀ t (.done e)
  | refused {t : Trail} {errors : List String} {reason : Rejection} {e : Option Execution} :
      t.writes = w₀ → Acted g action actor additional w₀ t (.rejected errors reason e)

/-- What an action tells of its mutation: what is stored now, or why that was rejected. -/
def tell (r : Execution × Option (List String × Rejection)) : Client ActionResult :=
  match r.2 with
  | some (errors, reason) => pure (.rejected errors reason (some r.1))
  | none                  => pure (.done r.1)

/-- With valid values an action is one mutation, for the one whom the actor stands for. -/
theorem perform_eq {actor additional : Value} {values : Mapping} {ref : Option EntityRef}
    (g : Engine) (target : Target) (action : Value) (href : StandsFor actor ref)
    (hvalues : looseMapping additional = .ok values)
    (hproblems : contextProblems false values = []) :
    g.perform target action actor additional =
      (g.mutate target.executionId (g.performMutation action ref values)
        s!"action {action.display}" true >>= tell) := by
  unfold perform
  rw [hvalues]
  show (if !(contextProblems false values).isEmpty then _ else _) = _
  rw [hproblems, if_neg (fun h => nomatch h)]
  rcases href with ⟨rfl, rfl⟩ | ⟨r, hr, rfl⟩
  · rfl
  · have hsome : (Client.ofExcept ((EntityRef.toActor actor).map some) >>= fun ref =>
        g.mutate target.executionId (g.performMutation action ref values)
          s!"action {action.display}" true >>= tell) =
        (g.mutate target.executionId (g.performMutation action (some r) values)
          s!"action {action.display}" true >>= tell) := by
      rw [hr]
      rfl
    cases actor with
    | scalar v => cases v with
      | null => exact nomatch hr
      | _ => exact hsome
    | _ => exact hsome

/-- By an actor who stands for nobody it fails at once. -/
theorem perform_fails {actor additional : Value} {values : Mapping} (g : Engine) (target : Target)
    (action : Value) (hactor : ∀ ref, ¬StandsFor actor ref)
    (hvalues : looseMapping additional = .ok values)
    (hproblems : contextProblems false values = []) :
    ∃ f, g.perform target action actor additional = .fail f := by
  unfold perform
  rw [hvalues]
  show ∃ f, (if !(contextProblems false values).isEmpty then _ else _) = _
  rw [hproblems, if_neg (fun h => nomatch h)]
  cases hr : EntityRef.toActor actor with
  | ok r => exact absurd (.inr ⟨r, hr, rfl⟩) (hactor (some r))
  | error f =>
      have hsome : (Client.ofExcept ((EntityRef.toActor actor).map some) >>= fun ref =>
          g.mutate target.executionId (g.performMutation action ref values)
            s!"action {action.display}" true >>= tell) = .fail f := by
        rw [hr]
        rfl
      cases actor with
      | scalar v => cases v with
        | null => exact absurd (.inl ⟨rfl, rfl⟩) (hactor none)
        | _ => exact ⟨f, hsome⟩
      | _ => exact ⟨f, hsome⟩

/-- An action stays within its terms and ends with an advance, with nothing
    written, or with the failure mark. -/
theorem keeps_perform (g : Engine) (target : Target) (action actor additional : Value)
    (t : Trail) :
    (g.perform target action actor additional).Keeps
      (g.performTerms target action actor additional t.writes)
      (g.Acted action actor additional t.writes)
      (Mutation.Failed s!"action {action.display}" true t.writes) t := by
  cases hvalues : looseMapping additional with
  | error f =>
      unfold perform
      rw [hvalues]
      exact .clean rfl
  | ok values =>
      by_cases hproblems : contextProblems false values = []
      · by_cases hactor : ∃ ref, StandsFor actor ref
        · obtain ⟨ref, href⟩ := hactor
          rw [g.perform_eq target action href hvalues hproblems]
          refine Client.keeps_bind (Client.keeps_mono (keeps_mutate _ _ _ _ _ _)
            (fun t' q hq => ⟨values, ref, hvalues, hproblems, href, hq⟩) (fun t' r hr => ?_)
            fun _ _ h => h)
          cases hr with
          | written hread hm hd hw =>
              rcases performMutation_decides hd with
                ⟨d, step, a, context, hopen, hcontext, hp, hr, _⟩ | ⟨hp, _⟩
              · rw [hr]
                rw [Option.some.inj hp] at hw
                exact .advanced hread hopen hvalues hproblems href hcontext hw
              · exact nomatch hp
          | @unchanged base m rejection hread hm hd hw =>
              rcases performMutation_decides hd with ⟨_, _, _, _, _, _, hp, _, _⟩ | ⟨_, hr⟩
              · exact nomatch hp
              · obtain ⟨⟨errors, reason⟩, hr⟩ := Option.isSome_iff_exists.mp hr
                rw [hr]
                exact .refused hw
        · obtain ⟨f, hfails⟩ :=
            g.perform_fails target action (not_exists.mp hactor) hvalues hproblems
          rw [hfails]
          exact .clean rfl
      · unfold perform
        rw [hvalues]
        show (if !(contextProblems false values).isEmpty then _ else _ :
          Client ActionResult).Keeps _ _ _ _
        rw [if_pos (by simpa using hproblems)]
        exact .refused rfl

end Engine

/-! ## One client beside others -/

/-- The results of one client and those of others. -/
def Beside (β : Type) (α : ι → Type) : Option ι → Type
  | none   => β
  | some i => α i

/-- One client beside any others. -/
def System.beside {β : Type} (client : Client β) (others : ∀ i, Client (α i)) :
    ∀ o, Client (Beside β α o)
  | none   => client
  | some i => others i

/-- A condition on the results of the one client. -/
def Beside.When {β : Type} {α : ι → Type} (done : Trail → β → Prop) :
    ∀ o, Trail → Beside β α o → Prop
  | none   => done
  | some _ => fun _ _ => True

/-- Beside any others, a client keeps the terms that it keeps by itself. -/
theorem System.Run.keeps_beside {β : Type} {c : Climate} {client : Client β}
    {others : ∀ i, Client (α i)} {w : World} {es : List (Event (Option ι))}
    {s : System (Option ι) (Beside β α)} {may : Client.Terms} {done : Trail → β → Prop}
    {fail : Trail → Failure → Prop} (hkeeps : client.Keeps may done fail {})
    (hrun : System.Run c ⟨w, System.beside client others⟩ es s) :
    (s.clients none).Keeps may done fail (Trail.of es none) := by
  have hall (o : Option ι) : (System.beside client others o).Keeps
      (o.elim may fun _ _ _ => True) (Beside.When done o)
      (o.elim fail fun _ _ _ => True) {} := by
    cases o with
    | none => exact hkeeps
    | some i => exact Client.keeps_any (others i) {}
  obtain ⟨_, _, h⟩ := hrun.invariant _ _ _ (fun _ _ => True) hall trivial
    (fun _ _ _ _ _ _ _ => trivial) fun _ _ _ _ _ _ _ => trivial
  exact h none

namespace Engine

variable (g : Engine) (action actor additional : Value) (es : List (Event (Option ι)))

/-- The action succeeded, and its one write is the snapshot that was read last,
    moved along the action as it was open there. -/
def Performed : Client ActionResult → Prop
  | .done r => ∃ s d step a values ref context decided p now e,
      (Trail.of es none).read = some s ∧ g.Open action s d step a ∧
      looseMapping additional = .ok values ∧ contextProblems false values = [] ∧
      StandsFor actor ref ∧ s.context.updated values = .ok context ∧
      e = { s with
        currentStep   := .str a.target
        context       := context
        history       := s.history ++ [⟨step.name, a.target, a.name, ref, decided⟩]
        status        := if d.isFinalStep a.target then .completed else s.status
        assignedActor := ref.or s.assignedActor
        version       := s.version + 1
        updatedAt     := now
        aside         := s.aside.erase "version" } ∧
      commitsOf es none = [⟨none, now, ⟨p, s.version, e⟩⟩] ∧ r = .done e
  | _       => False

/-- The action was refused or failed, and nothing was written. -/
def Untouched : Client ActionResult → Prop
  | .done r  => r.success = false ∧ commitsOf es none = []
  | .fail _  => commitsOf es none = []
  | .ask _ _ => False

/-- The action failed as the store refused its write, and its one write marks the
    snapshot that was read last as failed, with the reason. -/
def MarkedFailed : Client ActionResult → Prop
  | .fail f => ∃ s cause refused context decided p now e error,
      (Trail.of es none).read = some s ∧
      (Trail.of es none).refused = some (refused, cause) ∧ isStoreFailure cause = true ∧
      s.context.withEntry lastErrorKey (.record
        [ ("operation", .str s!"action {action.display}"),
          ("error_class", .str cause.className), ("message", .str cause.text),
          ("step", s.currentStep), ("timestamp", .str (Timestamp.isoText decided)) ]) =
        .ok context ∧
      e = { s with
        status    := .failed
        context   := context
        version   := s.version + 1
        updatedAt := now
        aside     := s.aside.erase "version" } ∧
      commitsOf es none = [⟨none, now, ⟨p, s.version, e⟩⟩] ∧
      f = commitFailure s e s!"action {action.display}" cause ∧
      f = .workflow error ∧ error.kind = .execution
  | _       => False

end Engine

/-- Exactly one of three. -/
def ExactlyOne (A B C : Prop) : Prop :=
  (A ∧ ¬B ∧ ¬C) ∨ (¬A ∧ B ∧ ¬C) ∨ (¬A ∧ ¬B ∧ C)

/-- Whatever others do to the store and whatever trouble saves meet, an action comes
    to its end when it is served, has written nothing until then, and then has
    either succeeded as a whole, written nothing, or left the failure mark
    alone. -/
theorem perform_all_or_nothing {c : Climate} {g : Engine} {target : Target}
    {action actor additional : Value} {others : ∀ i, Client (α i)} {w : World}
    {es : List (Event (Option ι))} {s : System (Option ι) (Beside ActionResult α)}
    (hrun : System.Run c
      ⟨w, System.beside (g.perform target action actor additional) others⟩ es s) :
    (∃ es' s', System.Run c
      ⟨w, System.beside (g.perform target action actor additional) others⟩ (es ++ es') s' ∧
      (s'.clients none).hasEnded = true) ∧
    ((s.clients none).hasEnded = false → commitsOf es none = []) ∧
    ((s.clients none).hasEnded = true →
      ExactlyOne (g.Performed action actor additional es (s.clients none))
        (Engine.Untouched es (s.clients none))
        (Engine.MarkedFailed action es (s.clients none))) := by
  obtain ⟨_, _, hk⟩ := hrun.invariant
    (fun o => match o with
      | none   => g.performTerms target action actor additional []
      | some _ => fun _ _ => True)
    (fun o => match o with
      | none   => g.Acted action actor additional []
      | some _ => fun _ _ => True)
    (fun o => match o with
      | none   => Mutation.Failed s!"action {action.display}" true []
      | some _ => fun _ _ => True)
    (fun _ _ => True)
    (fun o => match o with
      | none   => Engine.keeps_perform g target action actor additional {}
      | some i => Client.keeps_any (others i) {})
    trivial (fun _ _ _ _ _ _ _ => trivial) (fun _ _ _ _ _ _ _ => trivial)
  have hk := hk none
  refine ⟨hrun.finishes none, ?_⟩
  cases hc : s.clients none with
  | ask q next =>
      rw [hc] at hk
      obtain ⟨_, _, _, _, _, hq⟩ := hk.1
      exact ⟨fun _ => commitsOf_nil hq.1, fun h => nomatch h⟩
  | done r =>
      rw [hc] at hk
      refine ⟨(fun h => nomatch h), fun _ => ?_⟩
      cases hk with
      | advanced hread hopen hvalues hproblems href hcontext hw =>
          obtain ⟨now, hof, he⟩ := hrun.commitsOf_singleton hw
          refine .inl ⟨⟨_, _, _, _, _, _, _, _, _, now, _, hread, hopen, hvalues, hproblems,
            href, hcontext, he, hof, rfl⟩, (fun h => nomatch h.1), fun h => h⟩
      | refused hw =>
          refine .inr (.inl ⟨?_, ⟨rfl, commitsOf_nil hw⟩, fun h => h⟩)
          rintro ⟨_, _, _, _, _, _, _, _, _, _, _, _, _, _, _, _, _, _, _, hr⟩
          exact nomatch hr
  | fail f =>
      rw [hc] at hk
      refine ⟨(fun h => nomatch h), fun _ => ?_⟩
      cases hk with
      | clean hw =>
          refine .inr (.inl ⟨fun h => h, commitsOf_nil hw, ?_⟩)
          rintro ⟨_, _, _, _, _, _, _, _, _, _, _, _, _, _, hof, _⟩
          rw [commitsOf_nil hw] at hof
          exact nomatch hof
      | marked _ hmark hw =>
          obtain ⟨m, refused, context, hread, _, href, hf, hcontext, rfl⟩ := hmark
          obtain ⟨now, hof, he⟩ := hrun.commitsOf_singleton hw
          refine .inr (.inr ⟨fun h => h, fun h => ?_, _, _, _, _, m.time, _, now, _, _, hread,
            href, hf, hcontext, he, hof, rfl, rfl, rfl⟩)
          exact absurd (hof.symm.trans h) (List.cons_ne_nil _ _)

/-- A workflow of two steps, with one action from the first to the last. -/
def reviewWorkflow : Definition :=
  { serial := 1, name := "review"
    steps :=
      [ { name := "draft", actions := [⟨"submit", "done", none, none, false⟩] },
        { name := "done" } ] }

/-- An engine for reviews. -/
def reviewEngine : Engine := { registry := ⟨[reviewWorkflow]⟩ }

/-- A submission beside another client that adds a note. -/
def submission : System (Option (Fin 1)) (Beside ActionResult fun _ => Execution) :=
  let g : Engine := { registry := ⟨[reviewWorkflow]⟩ }
  let e : Execution :=
    { id := "exec-1", workflowName := .str "review", subject := .subject "Document" "7"
      currentStep := .str "draft", status := .active, context := .dict [], history := []
      assignedActor := none, version := 0, createdAt := .defaultNow
      updatedAt := .defaultNow }
  ⟨{ store := .memory ⟨[e]⟩ },
    System.beside (g.perform (.id (.str "exec-1")) (.str "submit") (.str "ann") (.dict []))
      fun _ => g.mergeContext (.id (.str "exec-1")) (.dict [(.str "note", .str "hurry")])⟩

/-- The note comes between the reading and the writing of the submission, which
    decides anew and then succeeds. -/
theorem submission_all_or_nothing :
    let r := submission.follow
      [none, none, none, some 0, some 0, some 0, some 0, none, none, none, none, none,
        none, none]
    ExactlyOne
      (Engine.Performed { registry := ⟨[reviewWorkflow]⟩ } (.str "submit") (.str "ann")
        (.dict []) r.1 (r.2.clients none))
      (Engine.Untouched r.1 (r.2.clients none))
      (Engine.MarkedFailed (.str "submit") r.1 (r.2.clients none)) ∧
    (commits r.1).map (·.client) = [some 0, none] := by
  intro r
  have hcalm : Climate.calm.Allows submission.world :=
    ⟨trivial, fun d h => absurd h List.not_mem_nil⟩
  have hrun : System.Run .calm submission r.1 r.2 := .of_schedule hcalm _
  have hended : (r.2.clients none).hasEnded = true := by decide +kernel
  exact ⟨(perform_all_or_nothing (w := submission.world) hrun).2.2 hended, by decide +kernel⟩

end Workflow
