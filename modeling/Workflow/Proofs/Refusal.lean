import Workflow.Guard.Formula
import Workflow.Proofs.Perform

/-! # Refusal — what a refused action tells of its cause

    An action of a registered workflow is refused for one of three causes, which are
    looked at in turn: the execution is not active, the action is closed, or the step has
    conditions that are unmet.  The reason is found afterwards, by a search of the error
    texts for the words that name the action.  The text of unmet conditions quotes the
    current step, so where the name of that step holds those words, unmet conditions pass
    for a closed action; otherwise the reason is the cause.

    The heart is `rejectionReason_told`, on the snapshot; `refusal_tells` carries it to
    the result of an action beside any others. -/

namespace Workflow

open Client

/-! ## Words in a text -/

theorem Value.occursIn_iff {α : Type} [BEq α] [LawfulBEq α] {part xs : List α} :
    occursIn part xs = true ↔ part <:+: xs := by
  induction xs with
  | nil =>
      unfold occursIn
      rw [List.isEmpty_iff, List.infix_nil]
  | cons x xs ih =>
      unfold occursIn
      rw [Bool.or_eq_true, List.isPrefixOf_iff_prefix, ih, List.infix_cons_iff]

/-- What begins with a letter that a text does not have occurs only after that text. -/
theorem infix_append_of_notMem {α : Type} {x : α} {part before xs : List α} (h : x ∉ before) :
    x :: part <:+: before ++ xs ↔ x :: part <:+: xs := by
  induction before with
  | nil => rfl
  | cons y before ih =>
      rw [List.mem_cons, not_or] at h
      rw [List.cons_append, List.infix_cons_iff, List.cons_prefix_cons, ih h.2]
      exact or_iff_right fun hy => h.1 hy.1

/-- Does the name of the current step hold the words that name the action?  The quote that
    closes the name counts. -/
def Execution.Mentions (e : Execution) (action : String) : Prop :=
  s!"Action '{action}'".toList <:+: s!"{e.currentStep.display}'".toList

/-! ## What stands in the way of an action -/

namespace Engine

/-- Is the action among those that the engine lists as open? -/
def IsOpen (g : Engine) (e : Execution) (action : String) : Prop :=
  ∃ names, g.availableActions e = .ok names ∧ action ∈ names

/-- Does a condition of the current step fail? -/
def Unmet (g : Engine) (e : Execution) : Prop :=
  ∃ d step, g.definitionFor e = .ok (some d) ∧ d.named? e.currentStep = some step ∧
    ∃ x ∈ step.conditions, x.holds e.context = false

end Engine

/-- What can stand in the way of an action of a registered workflow. -/
inductive Obstacle where
  | inactive
  | closed
  | unmet
deriving DecidableEq

namespace Obstacle

/-- The reason that stands for the obstacle. -/
def rejection : Obstacle → Rejection
  | .inactive => .notActive
  | .closed   => .actionUnavailable
  | .unmet    => .conditionsUnmet

/-- The kind of error that stands for the obstacle. -/
def errorKind : Obstacle → ErrorKind
  | .inactive => .transition
  | .closed   => .invalidTransition
  | .unmet    => .conditionNotMet

/-- Is it this, of the obstacles, that the action meets on the snapshot? -/
def Met (g : Engine) (e : Execution) (action : String) : Obstacle → Prop
  | .inactive => e.status ≠ .active
  | .closed   => e.status = .active ∧ ¬g.IsOpen e action
  | .unmet    => e.status = .active ∧ g.IsOpen e action ∧ g.Unmet e

/-- Is it this that a refusal of the action tells?  Unmet conditions of a step that
    mentions the action pass for a closed action. -/
def Told (g : Engine) (e : Execution) (action : String) : Obstacle → Prop
  | .inactive => inactive.Met g e action
  | .closed   => closed.Met g e action ∨ unmet.Met g e action ∧ e.Mentions action
  | .unmet    => unmet.Met g e action ∧ ¬e.Mentions action

variable {g : Engine} {e : Execution} {action : String} {o o' : Obstacle}

/-- Where the step does not mention the action, what is met is told. -/
theorem told_iff_met (h : ¬e.Mentions action) : o.Told g e action ↔ o.Met g e action := by
  cases o with
  | inactive => rfl
  | closed => exact or_iff_left fun hunmet => h hunmet.2
  | unmet => exact and_iff_left h

/-- Only one obstacle is told. -/
theorem Told.unique (h : o.Told g e action) (h' : o'.Told g e action) : o = o' := by
  cases o with
  | inactive => cases o' with
    | inactive => rfl
    | closed => exact absurd (h'.elim (·.1) (·.1.1)) h
    | unmet => exact absurd h'.1.1 h
  | closed => cases o' with
    | inactive => exact absurd (h.elim (·.1) (·.1.1)) h'
    | closed => rfl
    | unmet => exact (h.elim (fun hclosed => hclosed.2 h'.1.2.1) fun hunmet => h'.2 hunmet.2).elim
  | unmet => cases o' with
    | inactive => exact absurd h.1.1 h'
    | closed => exact (h'.elim (fun hclosed => hclosed.2 h.1.2.1) fun hunmet => h.2 hunmet.2).elim
    | unmet => rfl

theorem rejection_text_inj (h : o.rejection.text = o'.rejection.text) : o = o' := by
  revert h
  cases o <;> cases o' <;> decide

end Obstacle

/-! ## The reason of a refusal -/

namespace Engine

variable {g : Engine} {e : Execution} {d : Definition} {action : String}

/-- The text of a closed action names it. -/
theorem named_of_closed (action step : String) :
    s!"Action '{action}'".toList <:+:
      s!"Action '{action}' is not available from step '{step}'".toList := by
  refine ⟨[], s!" is not available from step '{step}'".toList, ?_⟩
  simp only [toString, String.toList_append, List.nil_append, List.append_assoc]
  rfl

/-- The text of unmet conditions names the action just when the step mentions it, for the
    words before the step have no capital in common with the name. -/
theorem named_of_unmet :
    s!"Action '{action}'".toList <:+:
      s!"Step conditions not satisfied for '{e.currentStep.display}'".toList ↔
    e.Mentions action := by
  have hname : s!"Action '{action}'".toList = 'A' :: s!"ction '{action}'".toList := by
    simp only [toString, String.toList_append]
    rfl
  have htext : s!"Step conditions not satisfied for '{e.currentStep.display}'".toList =
      "Step conditions not satisfied for '".toList ++ s!"{e.currentStep.display}'".toList := by
    simp only [toString, String.toList_append, List.append_assoc]
  unfold Execution.Mentions
  rw [htext, hname]
  exact infix_append_of_notMem (by decide)

theorem closed_mem_transitionIssues (d : Definition) (e : Execution) (action : Value) :
    s!"Action '{action.display}' is not available from step '{e.currentStep.display}'" ∈
      transitionIssues d e action false :=
  List.mem_append_left _ (List.mem_append_right _ (List.mem_singleton_self _))

/-- Of an open action of an active execution, only unmet conditions are an issue. -/
theorem transitionIssues_open {action : Value} (hd : g.definitionFor e = .ok (some d))
    (hactive : e.status = .active) (h : transitionIssues d e action true ≠ []) :
    transitionIssues d e action true =
      [s!"Step conditions not satisfied for '{e.currentStep.display}'"] ∧ g.Unmet e := by
  cases hstep : d.named? e.currentStep with
  | none =>
      have hnone : transitionIssues d e action true = [] := by
        unfold transitionIssues
        rw [if_pos hactive, hstep]
        rfl
      exact absurd hnone h
  | some step =>
      have hunmet : transitionIssues d e action true =
          if step.satisfiesConditions e.context then []
          else [s!"Step conditions not satisfied for '{e.currentStep.display}'"] := by
        unfold transitionIssues
        rw [if_pos hactive, hstep]
        rfl
      rw [hunmet] at h ⊢
      by_cases hmet : step.satisfiesConditions e.context = true
      · rw [if_pos hmet] at h
        exact absurd rfl h
      · obtain ⟨x, hx, hfails⟩ := List.all_eq_false.mp (Bool.eq_false_iff.mpr hmet)
        exact ⟨if_neg hmet, d, step, hd, hstep, x, hx, Bool.eq_false_iff.mpr hfails⟩

/-- A refusal on a snapshot tells one of the obstacles. -/
theorem rejectionReason_told {isOpen : Bool} (hd : g.definitionFor e = .ok (some d))
    (hopen : isOpen = true ↔ g.IsOpen e action)
    (hissues : transitionIssues d e (.str action) isOpen ≠ []) :
    ∃ o : Obstacle, o.Told g e action ∧
      rejectionReason e (.str action) (transitionIssues d e (.str action) isOpen) =
        o.rejection := by
  unfold rejectionReason
  by_cases hactive : e.status = .active
  · rw [if_neg (not_not.mpr hactive)]
    cases isOpen with
    | false =>
        refine ⟨.closed, .inl ⟨hactive, fun h => nomatch hopen.mpr h⟩, if_pos ?_⟩
        exact List.any_eq_true.mpr ⟨_, closed_mem_transitionIssues d e (.str action),
          Value.occursIn_iff.mpr (named_of_closed action e.currentStep.display)⟩
    | true =>
        obtain ⟨htext, hfails⟩ := transitionIssues_open hd hactive hissues
        rw [htext, List.any_cons, List.any_nil, Bool.or_false]
        have hunmet : Obstacle.unmet.Met g e action := ⟨hactive, hopen.mp rfl, hfails⟩
        by_cases hmentions : e.Mentions action
        · refine ⟨.closed, .inr ⟨hunmet, hmentions⟩, if_pos ?_⟩
          exact Value.occursIn_iff.mpr (named_of_unmet.mpr hmentions)
        · refine ⟨.unmet, ⟨hunmet, hmentions⟩, if_neg fun h => hmentions ?_⟩
          exact named_of_unmet.mp (Value.occursIn_iff.mp h)
  · exact ⟨.inactive, hactive, if_pos hactive⟩

/-- What an action decides that is refused. -/
theorem performMutation_refuses {action : Value} {ref : Option EntityRef} {values : Mapping}
    {m : Moment} {r : Option (List String × Rejection)} (hd : g.definitionFor e = .ok (some d))
    (h : (g.performMutation action ref values).Decides e m none r) :
    ∃ errors, errors ≠ [] ∧ r = some (errors, rejectionReason e action errors) ∧
      errors = transitionIssues d e action
        (action.toText?.any (e.openActions (some d)).contains) := by
  unfold Mutation.Decides performMutation at h
  obtain ⟨found, hfound, h⟩ := Draft.runAt_ofExcept_bind_ok.mp h
  obtain rfl := Except.ok.inj (hd.symm.trans hfound)
  dsimp only at h
  split at h
  · rename_i hissues
    obtain ⟨hr, -⟩ := Draft.runAt_pure_ok.mp h
    refine ⟨_, ?_, (Prod.mk.inj hr).2.symm, rfl⟩
    simpa using hissues
  · -- without issues something is proposed
    obtain ⟨_, -, h⟩ := Draft.runAt_ofExcept_bind_ok.mp h
    obtain ⟨_, -, h⟩ := Draft.runAt_ofExcept_bind_ok.mp h
    obtain ⟨_, -, h⟩ := Draft.runAt_ofExcept_bind_ok.mp h
    obtain ⟨_, _, -, h⟩ := Draft.runAt_bind_ok.mp h
    exact nomatch (Prod.mk.inj (Draft.runAt_pure_ok.mp h).1).1

/-- How an action is refused: on the snapshot that it read last, with nothing written. -/
def Refused (g : Engine) (action : Value) (w₀ : List Write) (t : Trail) (r : ActionResult) :
    Prop :=
  ∃ e m ref values errors reason, t.read = some e ∧ t.writes = w₀ ∧
    (g.performMutation action ref values).Decides e m none (some (errors, reason)) ∧
    r = .rejected errors reason (some e)

/-- Whatever an action with valid values is answered: a failed result is a refusal. -/
theorem keeps_refused {actor additional : Value} {values : Mapping} (target : Target)
    (action : Value) (hvalues : looseMapping additional = .ok values)
    (hvalid : contextProblems false values = []) (t : Trail) :
    (g.perform target action actor additional).Keeps (fun _ _ => True)
      (fun t' r => r.success = false → g.Refused action t.writes t' r) (fun _ _ => True) t := by
  by_cases hactor : ∃ ref, StandsFor actor ref
  · obtain ⟨ref, href⟩ := hactor
    rw [g.perform_eq target action href hvalues hvalid]
    refine keeps_bind (keeps_mono (keeps_mutate _ _ _ _ _ _) (fun _ _ _ => trivial)
      (fun t' r hr => ?_) fun _ _ _ => trivial)
    cases hr with
    | written hread hm hd hw =>
        rcases performMutation_decides hd with ⟨_, _, _, _, _, _, _, rfl, _⟩ | ⟨hp, _⟩
        · exact fun h => nomatch h
        · exact nomatch hp
    | @unchanged base m rejection hread hm hd hw =>
        rcases performMutation_decides hd with ⟨_, _, _, _, _, _, hp, _, _⟩ | ⟨_, hr⟩
        · exact nomatch hp
        · obtain ⟨⟨errors, reason⟩, rfl⟩ := Option.isSome_iff_exists.mp hr
          exact fun _ => ⟨base, m, ref, values, errors, reason, hread, hw, hd, rfl⟩
  · obtain ⟨f, hfails⟩ := g.perform_fails target action (not_exists.mp hactor) hvalues hvalid
    rw [hfails]
    exact trivial

/-- A refusal by a registered workflow tells one of the obstacles. -/
theorem Refused.told {w₀ : List Write} {t : Trail} {r : ActionResult}
    (h : g.Refused (.str action) w₀ t r) :
    ∃ e, t.read = some e ∧ t.writes = w₀ ∧ r.execution = some e ∧ r.success = false ∧
      ∀ d, g.definitionFor e = .ok (some d) →
        ∃ o : Obstacle, o.Told g e action ∧ r.reason = some o.rejection.text := by
  obtain ⟨e, m, ref, values, errors, reason, hread, hw, hdecides, rfl⟩ := h
  refine ⟨e, hread, hw, rfl, rfl, fun d hd => ?_⟩
  obtain ⟨errors', hissues, hr, rfl⟩ := performMutation_refuses hd hdecides
  obtain ⟨-, rfl⟩ := Prod.mk.inj (Option.some.inj hr)
  have hopen : (Value.str action).toText?.any (e.openActions (some d)).contains = true ↔
      g.IsOpen e action := by
    unfold IsOpen
    rw [availableActions_eq hd]
    refine Iff.trans List.contains_iff_mem ⟨fun h => ⟨_, rfl, h⟩, ?_⟩
    rintro ⟨names, hnames, hin⟩
    rw [Except.ok.inj hnames]
    exact hin
  obtain ⟨o, htold, hreason⟩ := rejectionReason_told hd hopen hissues
  exact ⟨o, htold, congrArg (fun x => some (Rejection.text x)) hreason⟩

/-- A failed result is raised as the error that stands for the obstacle it tells. -/
theorem raise_of_told {r : ActionResult} {o : Obstacle} (hfailed : r.success = false)
    (hreason : r.reason = some o.rejection.text) :
    ∃ error, r.raiseForErrors = .error (.workflow error) ∧ error.kind = o.errorKind := by
  refine ⟨_, if_neg (Bool.eq_false_iff.mp hfailed), ?_⟩
  dsimp only
  rw [hreason]
  cases o with
  | inactive => decide
  | closed => decide
  | unmet => decide

end Engine

/-! ## A refusal beside other clients -/

variable {ι : Type} [DecidableEq ι] {α : ι → Type} {c : Climate} {g : Engine} {w : World}
  {target : Target} {action : String} {actor additional : Value} {values : Mapping}
  {others : ∀ i, Client (α i)} {es : List (Event (Option ι))}
  {s : System (Option ι) (Beside ActionResult α)} {r : ActionResult}

/-- Whatever is stored, whatever other clients do and whatever trouble saves meet: an
    action with valid values that comes back as failed has written nothing and tells, of
    the snapshot it read last, an obstacle.  What it tells is what was met there, unless
    the step has unmet conditions and its name holds the words that name the action: then
    the action is said to be closed.  The error that is raised goes with what is told. -/
theorem refusal_tells
    (hrun : System.Run c
      ⟨w, System.beside (g.perform target (.str action) actor additional) others⟩ es s)
    (hvalues : looseMapping additional = .ok values)
    (hvalid : contextProblems false values = []) (hdone : s.clients none = .done r)
    (hfailed : r.success = false) :
    ∃ e, (Trail.of es none).read = some e ∧ r.execution = some e ∧ commitsOf es none = [] ∧
      ∀ d, g.definitionFor e = .ok (some d) →
        (∃ o : Obstacle, r.reason = some o.rejection.text) ∧
        (∀ o : Obstacle, r.reason = some o.rejection.text ↔ o.Told g e action) ∧
        (¬e.Mentions action →
          ∀ o : Obstacle, r.reason = some o.rejection.text ↔ o.Met g e action) ∧
        ∀ o : Obstacle, r.reason = some o.rejection.text →
          ∃ error, r.raiseForErrors = .error (.workflow error) ∧ error.kind = o.errorKind := by
  have hrefused := hrun.keeps_beside (Engine.keeps_refused target (.str action) hvalues hvalid {})
  rw [hdone] at hrefused
  obtain ⟨e, hread, hwrites, hresult, -, htold⟩ := (hrefused hfailed).told
  refine ⟨e, hread, hresult, commitsOf_nil hwrites, fun d hd => ?_⟩
  obtain ⟨told, hmet, hreason⟩ := htold d hd
  have hiff (o : Obstacle) : r.reason = some o.rejection.text ↔ o.Told g e action := by
    constructor
    · intro ho
      rw [Obstacle.rejection_text_inj (Option.some.inj (ho.symm.trans hreason))]
      exact hmet
    · intro ho
      rw [ho.unique hmet]
      exact hreason
  refine ⟨⟨told, hreason⟩, hiff, fun hmentions o => ?_, fun o => Engine.raise_of_told hfailed⟩
  rw [hiff, Obstacle.told_iff_met hmentions]

/-! ## Forms that are not paid -/

/-- A form is signed at its first step, once it is paid. -/
def formWorkflow (step : String) : Definition where
  serial := 1
  name   := "form"
  steps  :=
    [ { name       := step
        conditions := [(Formula.get (.str "paid") .null).eval.toCondition]
        actions    := [⟨"sign", "signed", none, none, false⟩] },
      { name := "signed" } ]

/-- The engine for such forms. -/
def formEngine (step : String) : Engine := { registry := ⟨[formWorkflow step]⟩ }

/-- A form at its first step. -/
def openForm (step : String) (paid : Bool) : Execution :=
  { id := "exec-1", workflowName := .str "form", subject := .subject "Form" "7"
    currentStep := .str step, status := .active
    context := .dict [(.str "paid", .bool paid)], history := [], assignedActor := none
    version := 0, createdAt := .defaultNow, updatedAt := .defaultNow }

/-- A form that is being signed while another client takes its payment back. -/
def formDesk : System (Option (Fin 1)) (Beside ActionResult fun _ => Execution) :=
  ⟨{ store := .memory ⟨[openForm "filled" true]⟩ },
    System.beside
      ((formEngine "filled").perform (.id (.str "exec-1")) (.str "sign") .null (.dict []))
      fun _ => (formEngine "filled").mergeContext (.id (.str "exec-1"))
        (.dict [(.str "paid", .bool false)])⟩

/-- What was told of a refusal. -/
def refusal? : Client ActionResult → Option String
  | .done r => if r.success then none else r.reason
  | _       => none

theorem refusal?_some {client : Client ActionResult} {reason : String}
    (h : refusal? client = some reason) :
    ∃ r, client = .done r ∧ r.success = false ∧ r.reason = some reason := by
  unfold refusal? at h
  split at h
  · split at h
    · exact nomatch h
    · rename_i r hfailed
      exact ⟨r, rfl, Bool.eq_false_iff.mpr hfailed, h⟩
  · exact nomatch h

/-- The payment is taken back between the reading of the form and the signature, which is
    then refused for the condition that it does not meet any more. -/
theorem formDesk_tells :
    let r := formDesk.follow
      [none, none, none, some 0, some 0, some 0, some 0, none, none, none, none, none, none]
    ∃ e result, (Trail.of r.1 none).read = some e ∧ r.2.clients none = .done result ∧
      result.reason = some "conditions_unmet" ∧
      Obstacle.unmet.Met (formEngine "filled") e "sign" := by
  intro r
  have hrun : System.Run .calm formDesk r.1 r.2 := .of_schedule (Climate.calm_allows rfl) _
  have hrefusal : refusal? (r.2.clients none) = some "conditions_unmet" := by decide +kernel
  have hform : (Trail.of r.1 none).read.bind (·.workflowName.toText?) = some "form" := by
    decide +kernel
  obtain ⟨result, hdone, hfailed, hreason⟩ := refusal?_some hrefusal
  obtain ⟨e, hread, -, -, htold⟩ := refusal_tells (w := formDesk.world) hrun
    (show looseMapping (.dict []) = .ok [] from rfl) rfl hdone hfailed
  rw [hread] at hform
  have hd : (formEngine "filled").definitionFor e = .ok (some (formWorkflow "filled")) :=
    Engine.definitionFor_of_name hform rfl
  exact ⟨e, result, hread, hdone, hreason, (((htold _ hd).2.1 .unmet).mp hreason).1⟩

/-- At a step whose name holds the words that name the signature, the form tells that the
    signature is not available.  It is, and the form is not paid. -/
theorem pendingForm_misleads :
    let step := "Action 'sign' pending"
    let perform :=
      (formEngine step).perform (.id (.str "exec-1")) (.str "sign") .null (.dict [])
    Obstacle.unmet.Met (formEngine step) (openForm step false) "sign" ∧
      (formEngine step).availableActions (openForm step false) = .ok ["sign"] ∧
      ∃ r w' error, perform.run { store := .memory ⟨[openForm step false]⟩ } = (.ok r, w') ∧
        r.success = false ∧ r.reason = some "action_unavailable" ∧
        r.raiseForErrors = .error (.workflow error) ∧ error.kind = .invalidTransition := by
  intro step perform
  have havailable : (formEngine step).availableActions (openForm step false) = .ok ["sign"] := rfl
  have hunmet : (formEngine step).Unmet (openForm step false) :=
    ⟨formWorkflow step, _, rfl, rfl, _, List.mem_singleton_self _, by decide +kernel⟩
  refine ⟨⟨rfl, ⟨_, havailable, List.mem_singleton_self _⟩, hunmet⟩, havailable, ?_⟩
  cases hrun : perform.run { store := .memory ⟨[openForm step false]⟩ } with
  | mk answer w' =>
      have htold : (perform.run { store := .memory ⟨[openForm step false]⟩ }).1.toOption.map
          (fun r => (r.success, r.reason)) = some (false, some "action_unavailable") := by
        decide +kernel
      rw [hrun] at htold
      cases answer with
      | error f => exact nomatch htold
      | ok r =>
          obtain ⟨hfailed, hreason⟩ := Prod.mk.inj (Option.some.inj htold)
          obtain ⟨error, hraised, hkind⟩ := Engine.raise_of_told (o := .closed) hfailed hreason
          exact ⟨r, w', error, rfl, hfailed, hreason, hraised, hkind⟩

end Workflow
