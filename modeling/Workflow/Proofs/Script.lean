import Mathlib.Data.List.Induction
import Workflow.Proofs.Builder

/-! # Script — the definition that a script of declarations comes to

    A script may go back to a step that it has opened before, so what it declares of
    one step stands anywhere in it.  `Script.within` gathers it, and the definition is
    told from what was gathered: the steps as they were opened, each with all that
    stands within it.  A script is refused exactly when a name in it is repeated, or a
    predicate cannot be called.

    The heart is `Script.declareAll_accepted`: whatever was declared before, carrying out
    more of the script either gives what the longer script declares, or is refused. -/

namespace Workflow

/-- Is something accepted, as a value, exactly under a condition, and a malformed
    declaration without it? -/
def AcceptedIff {α : Type} (holds : Prop) (a : α) (x : Except Failure α) : Prop :=
  (holds ∧ x = .ok a) ∨ (¬ holds ∧ ∃ message, x = StepDefinition.malformed message)

namespace AcceptedIff

variable {α β : Type} {P Q : Prop} {a : α} {b : β} {x : Except Failure α}
  {f : α → Except Failure β}

/-- What follows an accepted value adds its condition. -/
theorem bind (hx : AcceptedIff P a x) (hf : P → AcceptedIff Q b (f a)) :
    AcceptedIff (P ∧ Q) b (x >>= f) := by
  rcases hx with ⟨hP, rfl⟩ | ⟨hP, message, rfl⟩
  · rcases hf hP with ⟨hQ, hb⟩ | ⟨hQ, hb⟩
    · exact .inl ⟨⟨hP, hQ⟩, hb⟩
    · exact .inr ⟨fun h => hQ h.2, hb⟩
  · exact .inr ⟨fun h => hP h.1, message, rfl⟩

/-- What follows an accepted value and is never malformed changes the value only. -/
theorem bind_ok (hx : AcceptedIff P a x) (hf : P → f a = .ok b) : AcceptedIff P b (x >>= f) := by
  rcases hx with ⟨hP, rfl⟩ | ⟨hP, message, rfl⟩
  · exact .inl ⟨hP, hf hP⟩
  · exact .inr ⟨hP, message, rfl⟩

theorem congr (hx : AcceptedIff P a x) (hPQ : P ↔ Q) : AcceptedIff Q a x :=
  propext hPQ ▸ hx

/-- An error is a malformed declaration, and tells that the condition does not hold. -/
theorem error_iff (hx : AcceptedIff P a x) :
    ((∃ f, x = .error f) ↔ ¬ P) ∧ (∀ f, x = .error f → ∃ message, f = .plain .definition message) ∧
      ∀ a', x = .ok a' → P ∧ a' = a := by
  rcases hx with ⟨hP, rfl⟩ | ⟨hP, message, rfl⟩
  · refine ⟨⟨?_, fun h => absurd hP h⟩, fun f hf => (nomatch hf), fun a' ha' => ?_⟩
    · rintro ⟨f, hf⟩
      exact nomatch hf
    · exact ⟨hP, (Except.ok.inj ha').symm⟩
  · unfold StepDefinition.malformed
    exact ⟨⟨fun _ => hP, fun _ => ⟨.plain .definition message, rfl⟩⟩,
      fun f hf => ⟨message, (Except.error.inj hf).symm⟩, fun a' ha' => nomatch ha'⟩

end AcceptedIff

/-! ## Within a step -/

/-- The predicate that is handed in, if it can be called. -/
def Supplied.callable? {α : Type} : Supplied α → Option α
  | .callable a  => some a
  | .notCallable => none

namespace StepDeclaration

/-- The text that describes the step. -/
def description? : StepDeclaration → Option String
  | .describe text => some text
  | _              => none

/-- The precondition for readers. -/
def requirement? : StepDeclaration → Option String
  | .requirement text => some text
  | _                 => none

/-- The entry condition. -/
def condition? : StepDeclaration → Option Condition
  | .condition c => c.callable?
  | _            => none

/-- The action. -/
def action? : StepDeclaration → Option ActionDefinition
  | .action name target guard description confirmation =>
    some ⟨name, target, guard.bind (·.callable?), description, confirmation⟩
  | _ => none

/-- Does it make the step a rollback point? -/
def marksSafe : StepDeclaration → Bool
  | .markSafe => true
  | _         => false

/-- Can what is handed in as a guard or a condition be called? -/
def Callable : StepDeclaration → Prop
  | .condition .notCallable             => False
  | .action _ _ (some .notCallable) _ _ => False
  | _                                   => True

end StepDeclaration

namespace StepDefinition

variable {s : StepDefinition} {c : StepDeclaration} {cs cs' : List StepDeclaration}

/-- The step with what the declarations add to it.  The last description counts. -/
def extended (s : StepDefinition) (cs : List StepDeclaration) : StepDefinition :=
  { s with
    description  := (cs.filterMap (·.description?)).getLast?.or s.description
    requirements := s.requirements ++ cs.filterMap (·.requirement?)
    actions      := s.actions ++ cs.filterMap (·.action?)
    conditions   := s.conditions ++ cs.filterMap (·.condition?)
    safe         := s.safe || cs.any (·.marksSafe) }

/-- Have the actions different names with those of the declarations, and can all
    predicates in them be called? -/
structure Fits (s : StepDefinition) (cs : List StepDeclaration) : Prop where
  names    : (s.extended cs).actionNames.Nodup
  callable : ∀ c ∈ cs, c.Callable

@[simp] theorem extended_name : (s.extended cs).name = s.name := rfl

@[simp] theorem extended_nil : s.extended [] = s := by
  simp [extended]

theorem extended_append : s.extended (cs ++ cs') = (s.extended cs).extended cs' := by
  simp [extended, Option.or_assoc, Bool.or_assoc, List.getLast?_append]

theorem actionNames_extended :
    (s.extended cs).actionNames = s.actionNames ++ (cs.filterMap (·.action?)).map (·.name) :=
  List.map_append

theorem fits_nil (hs : s.actionNames.Nodup) : s.Fits [] :=
  ⟨extended_nil.symm ▸ hs, fun _ hc => absurd hc List.not_mem_nil⟩

/-- What fits in two parts fits one part after the other. -/
theorem fits_append : s.Fits (cs ++ cs') ↔ s.Fits cs ∧ (s.extended cs).Fits cs' := by
  constructor
  · intro h
    have hnames := h.names
    rw [extended_append] at hnames
    refine ⟨⟨?_, fun c hc => h.callable c (List.mem_append_left _ hc)⟩,
      ⟨hnames, fun c hc => h.callable c (List.mem_append_right _ hc)⟩⟩
    rw [actionNames_extended] at hnames
    exact hnames.of_append_left
  · rintro ⟨h, h'⟩
    refine ⟨extended_append ▸ h'.names, fun c hc => ?_⟩
    rcases List.mem_append.mp hc with hc | hc
    · exact h.callable c hc
    · exact h'.callable c hc

/-- A declaration that adds no action fits when its predicate can be called. -/
theorem fits_of_no_action (hs : s.actionNames.Nodup) (hno : c.action? = none)
    (hc : c.Callable) : s.Fits [c] := by
  refine ⟨?_, fun x hx => List.mem_singleton.mp hx ▸ hc⟩
  rw [actionNames_extended, List.filterMap_cons_none hno, List.filterMap_nil, List.map_nil,
    List.append_nil]
  exact hs

open StepDeclaration in
/-- A declaration that adds no action is carried out when its predicate can be called. -/
theorem declare_of_no_action (hno : c.action? = none) (hc : c.Callable) :
    s.declare c = .ok (s.extended [c]) := by
  cases c with
  | describe | requirement | markSafe =>
      simp [declare, extended, description?, requirement?, action?, condition?, marksSafe]
  | condition supplied =>
      cases supplied with
      | callable c  => simp [declare, extended, description?, requirement?, action?,
          condition?, marksSafe, Supplied.callable?]
      | notCallable => exact hc.elim
  | action => exact nomatch hno

section Action

variable {name target : String} {guard : Option (Supplied Guard)} {description : Option String}
  {confirmation : Bool}

open StepDeclaration in
/-- An action is added behind the others, with the guard that was handed in. -/
theorem extended_action : s.extended [.action name target guard description confirmation] =
    { s with actions := s.actions ++
        [⟨name, target, guard.bind (·.callable?), description, confirmation⟩] } := by
  simp [extended, description?, requirement?, action?, condition?, marksSafe]

/-- An action fits when its name is new and its guard can be called. -/
theorem fits_action_iff (hs : s.actionNames.Nodup) :
    s.Fits [.action name target guard description confirmation] ↔
      name ∉ s.actionNames ∧ guard ≠ some .notCallable := by
  have hnames : (s.extended [.action name target guard description confirmation]).actionNames
      = s.actionNames.concat name := by
    rw [extended_action, actionNames, List.map_append, List.concat_eq_append]
    rfl
  constructor
  · intro h
    refine ⟨((List.nodup_concat _ _).mp (hnames ▸ h.names)).1, ?_⟩
    rintro rfl
    exact h.callable _ (List.mem_singleton.mpr rfl)
  · rintro ⟨hname, hguard⟩
    refine ⟨hnames ▸ (List.nodup_concat _ _).mpr ⟨hname, hs⟩, fun c hc => ?_⟩
    rw [List.mem_singleton.mp hc]
    cases guard with
    | none => trivial
    | some supplied =>
        cases supplied with
        | callable g  => trivial
        | notCallable => exact hguard rfl

end Action

/-- A declaration is carried out when it fits, and is malformed when it does not. -/
theorem declare_accepted (hs : s.actionNames.Nodup) :
    AcceptedIff (s.Fits [c]) (s.extended [c]) (s.declare c) := by
  cases c with
  | describe | requirement | markSafe =>
      exact .inl ⟨fits_of_no_action hs rfl trivial, declare_of_no_action rfl trivial⟩
  | condition supplied =>
      cases supplied with
      | callable c =>
          exact .inl ⟨fits_of_no_action hs rfl trivial, declare_of_no_action rfl trivial⟩
      | notCallable =>
          exact .inr ⟨fun h => h.callable _ (List.mem_singleton.mpr rfl), _, rfl⟩
  | action name target guard description confirmation =>
      refine AcceptedIff.congr ?_ (fits_action_iff hs).symm
      rw [extended_action, declare, addAction]
      by_cases hname : name ∈ s.actionNames
      · rw [if_pos (List.contains_iff_mem.mpr hname)]
        exact .inr ⟨fun h => h.1 hname, _, rfl⟩
      · rw [if_neg fun h => hname (List.contains_iff_mem.mp h)]
        cases guard with
        | none => exact .inl ⟨⟨hname, nofun⟩, rfl⟩
        | some supplied =>
            cases supplied with
            | callable g  => exact .inl ⟨⟨hname, nofun⟩, rfl⟩
            | notCallable => exact .inr ⟨fun h => h.2 rfl, _, rfl⟩

/-- Declarations are carried out when they fit, and are malformed when they do not. -/
theorem declareAll_accepted (hs : s.actionNames.Nodup) :
    AcceptedIff (s.Fits cs) (s.extended cs) (s.declareAll cs) := by
  induction cs generalizing s with
  | nil => exact .inl ⟨fits_nil hs, extended_nil.symm ▸ rfl⟩
  | cons c cs ih =>
      rw [← List.singleton_append, extended_append]
      exact ((declare_accepted hs).bind fun hc => ih hc.names).congr fits_append.symm

end StepDefinition

/-- Where step names differ, a further declaration is one on the step with the name. -/
theorem Definition.onStep_accepted {c : StepDeclaration} {s : StepDefinition}
    {ss : List StepDefinition} (hnodup : (ss.map (·.name)).Nodup) (hs : s ∈ ss)
    (hactions : s.actionNames.Nodup) :
    AcceptedIff (s.Fits [c]) (ss.map fun t => if t.name = s.name then t.extended [c] else t)
      (onStep s.name c ss) := by
  induction ss with
  | nil => exact absurd hs List.not_mem_nil
  | cons t ss ih =>
      rw [List.map_cons, List.nodup_cons] at hnodup
      rw [onStep, List.map_cons]
      rcases List.mem_cons.mp hs with rfl | hs
      · -- no step behind it has its name
        have hrest : (ss.map fun t => if t.name = s.name then t.extended [c] else t) = ss := by
          refine (List.map_congr_left fun t ht => if_neg fun hname => ?_).trans (List.map_id _)
          exact hnodup.1 (hname ▸ List.mem_map_of_mem ht)
        rw [if_pos rfl, if_pos rfl, hrest]
        exact (StepDefinition.declare_accepted hactions).bind_ok fun _ => rfl
      · have hname : t.name ≠ s.name := fun hname => hnodup.1 (hname ▸ List.mem_map_of_mem hs)
        rw [if_neg hname, if_neg hname]
        exact (ih hnodup.2 hs).bind_ok fun _ => rfl

/-! ## Within a script -/

namespace Declaration

/-- The step that it opens, without its block. -/
def opened? : Declaration → Option StepDefinition
  | .step name description safe _ => some { name, description, safe }
  | _                             => none

/-- What it declares within the step with a name. -/
def within (name : String) : Declaration → List StepDeclaration
  | .step n _ _ block   => if name = n then block else []
  | .onStep n c         => if name = n then [c] else []
  | .requireContext _ _ => []

/-- The context key that it requires. -/
def required? : Declaration → Option ContextRequirement
  | .requireContext key default => some ⟨key, default⟩
  | _                           => none

/-- The declaration without a block: what stood in the block goes on from the step. -/
def chained : Declaration → List Declaration
  | .step name description safe block =>
    .step name description safe [] :: block.map (.onStep name)
  | c => [c]

end Declaration

namespace Script

variable {p q script : List Declaration} {c : Declaration} {n : String} {known : List String}

/-- The steps as they are opened, in order. -/
def opened (script : List Declaration) : List StepDefinition := script.filterMap (·.opened?)

/-- The names of the steps that are opened, in order. -/
def stepNames (script : List Declaration) : List String := (opened script).map (·.name)

/-- What is declared within the step with a name, in order. -/
def within (name : String) (script : List Declaration) : List StepDeclaration :=
  script.flatMap (·.within name)

/-- The actions that are declared within the step with a name, in order. -/
def actions (name : String) (script : List Declaration) : List ActionDefinition :=
  (within name script).filterMap (·.action?)

/-- The names of the actions within the step with a name, in order. -/
def actionNames (name : String) (script : List Declaration) : List String :=
  (actions name script).map (·.name)

/-- The context keys that are required, in order, as often as they are. -/
def required (script : List Declaration) : List ContextRequirement :=
  script.filterMap (·.required?)

/-- The steps with all that is declared within them. -/
def steps (script : List Declaration) : List StepDefinition :=
  (opened script).map fun s => s.extended (within s.name script)

/-- The required keys, each at the place where it was first declared. -/
def requirements (script : List Declaration) : List ContextRequirement :=
  (required script).foldl (fun rs r => Definition.requireKey r.key r.default rs) []

/-- The definition that a script declares. -/
def declared (serial : Nat) (name : String) (description : Option String)
    (script : List Declaration) : Definition :=
  { serial, name, description, steps := steps script, requirements := requirements script }

/-- Do further declarations go back to steps that are opened before them, in the script
    or ahead of it? -/
def InOrder : List String → List Declaration → Prop
  | _, []                            => True
  | known, .requireContext _ _ :: cs => InOrder known cs
  | known, .step name _ _ _ :: cs    => InOrder (known ++ [name]) cs
  | known, .onStep name _ :: cs      => name ∈ known ∧ InOrder known cs

/-- Is no step opened twice, no action declared twice within a step, and every guard and
    condition a predicate that can be called? -/
structure Admissible (script : List Declaration) : Prop where
  stepsDiffer   : (stepNames script).Nodup
  actionsDiffer : ∀ name, (actionNames name script).Nodup
  callable      : ∀ name, ∀ c ∈ within name script, c.Callable

theorem stepNames_append :
    stepNames (p ++ q) = stepNames p ++ stepNames q := by
  unfold stepNames opened
  rw [List.filterMap_append, List.map_append]

theorem within_append : within n (p ++ q) = within n p ++ within n q := List.flatMap_append

theorem within_concat : within n (p ++ [c]) = within n p ++ c.within n := by
  rw [within_append, within.eq_1 n [c], List.flatMap_singleton]

theorem actionNames_append : actionNames n (p ++ q) = actionNames n p ++ actionNames n q := by
  unfold actionNames actions
  rw [within_append, List.filterMap_append, List.map_append]

theorem actionNames_concat (hc : c.within n = []) :
    actionNames n (p ++ [c]) = actionNames n p := by
  rw [actionNames, actions, within_concat, hc, List.append_nil]
  rfl

theorem inOrder_append :
    InOrder known (p ++ q) ↔ InOrder known p ∧ InOrder (known ++ stepNames p) q := by
  induction p generalizing known with
  | nil => simp [InOrder, stepNames, opened]
  | cons c p ih =>
      cases c with
      | requireContext key default => exact ih
      | step name description safe block =>
          have hnames : known ++ stepNames (.step name description safe block :: p)
              = known ++ [name] ++ stepNames p := (List.append_assoc _ [name] _).symm
          rw [hnames]
          exact ih
      | onStep name c =>
          rw [List.cons_append, InOrder, InOrder, ih, and_assoc]
          exact Iff.rfl

/-- Nothing is declared within a step that is not opened. -/
theorem within_eq_nil (h : InOrder known script) (hknown : n ∉ known)
    (hn : n ∉ stepNames script) : within n script = [] := by
  induction script generalizing known with
  | nil => rfl
  | cons c script ih =>
      cases c with
      | requireContext key default => exact ih h hknown hn
      | step name description safe block =>
          have hname := List.ne_of_not_mem_cons hn
          have hrest : n ∉ known ++ [name] := by
            rw [List.mem_append, List.mem_singleton]
            exact not_or.mpr ⟨hknown, hname⟩
          rw [within, List.flatMap_cons, Declaration.within, if_neg hname]
          exact ih h hrest (List.not_mem_of_not_mem_cons hn)
      | onStep name c =>
          have hname : n ≠ name := fun hname => hknown (hname ▸ h.1)
          rw [within, List.flatMap_cons, Declaration.within, if_neg hname]
          exact ih h.2 hknown hn

/-- The beginning of an admissible script is admissible. -/
theorem Admissible.of_append (h : Admissible (p ++ q)) : Admissible p where
  stepsDiffer := by
    have hsteps := h.stepsDiffer
    rw [stepNames_append] at hsteps
    exact hsteps.of_append_left
  actionsDiffer name := by
    have hactions := h.actionsDiffer name
    rw [actionNames_append] at hactions
    exact hactions.of_append_left
  callable name c hc := h.callable name c (within_append ▸ List.mem_append_left _ hc)

/-- What stands within a step of an admissible script fits the step without actions. -/
theorem Admissible.fits (h : Admissible script) {s : StepDefinition} (hs : s.actions = []) :
    s.Fits (within n script) := by
  refine ⟨?_, h.callable n⟩
  rw [StepDefinition.actionNames_extended, StepDefinition.actionNames, hs]
  exact h.actionsDiffer n

/-- Whether a declaration is admissible shows in the one step that it belongs to. -/
theorem Admissible.concat_iff (h : Admissible p) (hc : ∀ name ≠ n, c.within name = [])
    (hsteps : (stepNames (p ++ [c])).Nodup) {s : StepDefinition} (hs : s.actions = []) :
    Admissible (p ++ [c]) ↔ s.Fits (within n (p ++ [c])) := by
  refine ⟨fun h => h.fits hs, fun hfits => ⟨hsteps, fun name => ?_, fun name => ?_⟩⟩
  · by_cases hname : name = n
    · have hnames := hfits.names
      rw [StepDefinition.actionNames_extended, StepDefinition.actionNames, hs] at hnames
      exact hname ▸ hnames
    · exact (actionNames_concat (hc name hname)).symm ▸ h.actionsDiffer name
  · by_cases hname : name = n
    · exact hname ▸ hfits.callable
    · rw [within_concat, hc name hname, List.append_nil]
      exact h.callable name

/-! ## Carrying a script out -/

variable {serial : Nat} {name : String} {description : Option String}

theorem opened_actions {s : StepDefinition} (hs : s ∈ opened script) : s.actions = [] := by
  obtain ⟨c, _, hc⟩ := List.mem_filterMap.mp hs
  cases c with
  | step name description safe block => rw [← Option.some.inj hc]
  | requireContext | onStep => exact nomatch hc

theorem names_steps : (steps script).map (·.name) = stepNames script := List.map_map

theorem stepNames_declared :
    (declared serial name description script).stepNames = stepNames script := names_steps

/-- A declaration that opens no step leaves the steps in place, each with what the
    declaration adds to it. -/
theorem steps_concat (hc : c.opened? = none) : steps (p ++ [c]) =
    (opened p).map fun s => (s.extended (within s.name p)).extended (c.within s.name) := by
  have hopened : opened (p ++ [c]) = opened p := by
    rw [opened, List.filterMap_append, List.filterMap_cons_none hc, List.filterMap_nil,
      List.append_nil]
    rfl
  rw [steps, hopened]
  refine List.map_congr_left fun s _ => ?_
  rw [within_concat, StepDefinition.extended_append]

/-- A step that is new comes behind the others, with its block. -/
theorem steps_append_opened {s : StepDefinition} (hc : c.opened? = some s)
    (hn : s.name ∉ stepNames p) (hother : ∀ name ≠ s.name, c.within name = []) :
    steps (p ++ [c]) = steps p ++ [s.extended (within s.name (p ++ [c]))] := by
  have hopened : opened (p ++ [c]) = opened p ++ [s] := by
    rw [opened, List.filterMap_append, List.filterMap_cons_some hc, List.filterMap_nil]
    rfl
  rw [steps, hopened, List.map_append, List.map_singleton]
  refine congrArg (· ++ _) (List.map_congr_left fun t ht => ?_)
  have hname : t.name ≠ s.name := fun hname => hn (hname ▸ List.mem_map_of_mem ht)
  rw [within_concat, hother t.name hname, List.append_nil]

theorem requirements_concat (hc : c.required? = none) :
    requirements (p ++ [c]) = requirements p := by
  rw [requirements, required, List.filterMap_append, List.filterMap_cons_none hc,
    List.filterMap_nil, List.append_nil]
  rfl

theorem stepNames_concat (hc : c.opened? = none) : stepNames (p ++ [c]) = stepNames p := by
  rw [stepNames_append, stepNames.eq_1 [c], opened, List.filterMap_cons_none hc,
    List.filterMap_nil, List.map_nil, List.append_nil]

/-- A required key is declared, with any default. -/
theorem declare_requireContext (hp : Admissible p) (key : String) (default : Value) :
    AcceptedIff (Admissible (p ++ [.requireContext key default]))
      (declared serial name description (p ++ [.requireContext key default]))
      ((declared serial name description p).declare (.requireContext key default)) := by
  refine .inl ⟨⟨?_, fun n => ?_, fun n => ?_⟩, ?_⟩
  · rw [stepNames_concat rfl]
    exact hp.stepsDiffer
  · rw [actionNames_concat rfl]
    exact hp.actionsDiffer n
  · rw [within_concat]
    exact (List.append_nil _).symm ▸ hp.callable n
  · have hsteps : steps (p ++ [.requireContext key default]) = steps p := by
      rw [steps_concat rfl]
      exact List.map_congr_left fun s _ => StepDefinition.extended_nil
    have hkeys : requirements (p ++ [.requireContext key default])
        = Definition.requireKey key default (requirements p) := by
      rw [requirements, required, List.filterMap_append, List.foldl_append]
      rfl
    unfold declared
    rw [hsteps, hkeys]
    rfl

/-- A step is opened under a name that is new, with a block that fits a step without
    actions. -/
theorem declare_step (hp : Admissible p) (hbefore : InOrder [] p) (text : Option String)
    (safe : Bool) (block : List StepDeclaration) :
    AcceptedIff (Admissible (p ++ [.step n text safe block]))
      (declared serial name description (p ++ [.step n text safe block]))
      ((declared serial name description p).declare (.step n text safe block)) := by
  rw [Definition.declare, stepNames_declared]
  have hnames : stepNames (p ++ [.step n text safe block]) = (stepNames p).concat n := by
    rw [stepNames_append, List.concat_eq_append]
    rfl
  by_cases hn : n ∈ stepNames p
  · rw [if_pos (List.contains_iff_mem.mpr hn)]
    refine .inr ⟨fun h => ?_, _, rfl⟩
    exact ((List.nodup_concat _ _).mp (hnames ▸ h.stepsDiffer)).1 hn
  · rw [if_neg fun h => hn (List.contains_iff_mem.mp h)]
    -- a step that is new has nothing yet but its block
    have hblock : within n (p ++ [.step n text safe block]) = block := by
      rw [within_concat, within_eq_nil hbefore List.not_mem_nil hn, Declaration.within,
        if_pos rfl]
      rfl
    have hfits := hp.concat_iff (c := .step n text safe block) (fun m hm => if_neg hm)
      (hnames ▸ (List.nodup_concat _ _).mpr ⟨hn, hp.stepsDiffer⟩)
      (s := { name := n, description := text, safe }) rfl
    rw [hblock] at hfits
    refine AcceptedIff.congr ?_ hfits.symm
    refine (StepDefinition.declareAll_accepted (s := { name := n, description := text, safe })
      List.nodup_nil).bind_ok fun _ => ?_
    have hsteps : steps (p ++ [.step n text safe block]) = steps p ++
        [StepDefinition.extended { name := n, description := text, safe } block] := by
      rw [steps_append_opened (c := .step n text safe block)
        (s := { name := n, description := text, safe }) rfl hn fun m hm => if_neg hm, hblock]
    unfold declared
    rw [hsteps, requirements_concat rfl]
    rfl

/-- A further declaration is carried out on the one step with its name. -/
theorem declare_onStep (hp : Admissible p) (hn : n ∈ stepNames p) (c : StepDeclaration) :
    AcceptedIff (Admissible (p ++ [.onStep n c]))
      (declared serial name description (p ++ [.onStep n c]))
      ((declared serial name description p).declare (.onStep n c)) := by
  obtain ⟨s, hs, rfl⟩ := List.mem_map.mp hn
  have hfits := hp.concat_iff (c := .onStep s.name c) (fun m hm => if_neg hm)
    ((stepNames_concat (c := .onStep s.name c) rfl).symm ▸ hp.stepsDiffer) (opened_actions hs)
  -- the step is there with what was declared within it before
  rw [within_concat, Declaration.within, if_pos rfl, StepDefinition.fits_append,
    and_iff_right (hp.fits (opened_actions hs))] at hfits
  have hstep : s.extended (within s.name p) ∈ steps p := List.mem_map_of_mem hs
  have hnodup : ((steps p).map (·.name)).Nodup := names_steps ▸ hp.stepsDiffer
  refine AcceptedIff.congr ?_ hfits.symm
  refine (Definition.onStep_accepted hnodup hstep (hp.fits (opened_actions hs)).names).bind_ok
    fun _ => ?_
  have hsteps : steps (p ++ [.onStep s.name c]) = (steps p).map
      fun t => if t.name = s.name then t.extended [c] else t := by
    rw [steps_concat rfl, steps, List.map_map]
    refine List.map_congr_left fun t _ => ?_
    rw [Function.comp_apply, StepDefinition.extended_name, Declaration.within]
    split
    · rfl
    · exact StepDefinition.extended_nil
  unfold declared
  rw [hsteps, requirements_concat rfl]
  rfl

/-- Whatever was declared before, one more declaration gives what the longer script
    declares, or it is malformed and the longer script is not admissible. -/
theorem declare_accepted (hp : Admissible p) (horder : InOrder [] (p ++ [c])) :
    AcceptedIff (Admissible (p ++ [c])) (declared serial name description (p ++ [c]))
      ((declared serial name description p).declare c) := by
  obtain ⟨hbefore, hlast⟩ := inOrder_append.mp horder
  cases c with
  | requireContext key default => exact declare_requireContext hp key default
  | step n text safe block => exact declare_step hp hbefore text safe block
  | onStep n c => exact declare_onStep hp hlast.1 c

/-- Whatever was declared before, the rest of a script gives what the whole declares, or
    it is malformed and the whole is not admissible. -/
theorem declareAll_accepted (hp : Admissible p) (horder : InOrder [] (p ++ script)) :
    AcceptedIff (Admissible (p ++ script)) (declared serial name description (p ++ script))
      ((declared serial name description p).declareAll script) := by
  induction script generalizing p with
  | nil => exact .inl ⟨(List.append_nil p).symm ▸ hp, (List.append_nil p).symm ▸ rfl⟩
  | cons c script ih =>
      rw [← List.singleton_append, ← List.append_assoc] at horder ⊢
      have hc : AcceptedIff (Admissible (p ++ [c])) (declared serial name description (p ++ [c]))
        _ := declare_accepted hp (inOrder_append.mp horder).1
      exact (hc.bind fun hp => ih hp horder).congr (and_iff_right_of_imp fun h => h.of_append)

theorem admissible_nil : Admissible [] :=
  ⟨List.nodup_nil, fun _ => List.nodup_nil, fun _ _ hc => absurd hc List.not_mem_nil⟩

end Script

/-! ## Reading the definition -/

namespace Definition

variable {key : String} {default : Value} {rs : List ContextRequirement} {c : Declaration}
  {d : Definition} {script : List Declaration}

/-- A key is required once, where it was required first. -/
theorem keys_requireKey : (requireKey key default rs).map (·.key) =
    if key ∈ rs.map (·.key) then rs.map (·.key) else rs.map (·.key) ++ [key] := by
  induction rs with
  | nil => rfl
  | cons r rs ih =>
      rw [requireKey]
      by_cases hkey : r.key = key
      · rw [if_pos hkey, List.map_cons, List.map_cons, hkey, if_pos List.mem_cons_self]
      · rw [if_neg hkey, List.map_cons, List.map_cons, ih]
        by_cases hmem : key ∈ rs.map (·.key)
        · rw [if_pos hmem, if_pos (List.mem_cons_of_mem _ hmem)]
        · have hmem' := List.not_mem_cons_of_ne_of_not_mem (Ne.symm hkey) hmem
          rw [if_neg hmem, if_neg hmem', List.cons_append]

/-- What is found under a key is what was required under it last. -/
theorem find?_requireKey (k : String) : (requireKey key default rs).find? (·.key == k) =
    if key == k then some ⟨key, default⟩ else rs.find? (·.key == k) := by
  induction rs with
  | nil => 
      rw [requireKey, List.find?_cons]
      split <;> simp [*]
  | cons r rs ih =>
      rw [requireKey]
      by_cases hkey : r.key = key
      · rw [if_pos hkey, List.find?_cons, List.find?_cons, hkey]
        cases key == k <;> rfl
      · rw [if_neg hkey, List.find?_cons, List.find?_cons, ih]
        by_cases hk : key = k
        · have hr : (r.key == k) = false := beq_false_of_ne (hk ▸ hkey)
          rw [hr, hk, beq_self_eq_true, if_pos rfl]
        · have hk' : ¬ (key == k) = true := fun h => hk (beq_iff_eq.mp h)
          rw [if_neg hk', if_neg hk']

end Definition

namespace Script

/-- The required keys are the different keys, in order. -/
theorem keys_requirements :
    (requirements script).map (·.key) = ((required script).map (·.key)).eraseDups := by
  unfold requirements
  induction required script using List.reverseRecOn with
  | nil => rfl
  | append_singleton rs r ih =>
      rw [List.foldl_append, List.foldl_cons, List.foldl_nil, Definition.keys_requireKey, ih,
        List.map_append, List.eraseDups_append, List.map_singleton]
      rw [List.cons_removeAll, List.nil_removeAll, List.contains_eq_mem]
      by_cases hkey : r.key ∈ rs.map (·.key)
      · rw [if_pos (List.mem_eraseDups.mpr hkey), if_neg (by simpa using hkey),
          List.eraseDups_nil, List.append_nil]
      · rw [if_neg fun h => hkey (List.mem_eraseDups.mp h), if_pos (by simpa using hkey)]
        rfl

theorem nodup_requirements : ((requirements script).map (·.key)).Nodup := by
  unfold requirements
  induction required script using List.reverseRecOn with
  | nil => exact List.nodup_nil
  | append_singleton rs r ih =>
      rw [List.foldl_append, List.foldl_cons, List.foldl_nil, Definition.keys_requireKey]
      split
      · exact ih
      · rename_i hkey
        rw [← List.concat_eq_append]
        exact (List.nodup_concat _ _).mpr ⟨hkey, ih⟩

/-- What is found under a key is its last declaration. -/
theorem find?_requirements (k : String) :
    (requirements script).find? (·.key == k) = (required script).reverse.find? (·.key == k) := by
  unfold requirements
  induction required script using List.reverseRecOn with
  | nil => rfl
  | append_singleton rs r ih =>
      rw [List.foldl_append, List.foldl_cons, List.foldl_nil, Definition.find?_requireKey, ih,
        List.reverse_append, List.reverse_singleton, List.singleton_append, List.find?_cons]
      cases r.key == k <;> rfl

end Script

/-- Where action names differ, an action is found under its own. -/
theorem StepDefinition.findAction?_of_mem {s : StepDefinition} {a : ActionDefinition}
    (hnodup : s.actionNames.Nodup) (ha : a ∈ s.actions) : s.findAction? a.name = some a := by
  cases hfind : s.findAction? a.name with
  | none => exact absurd (beq_self_eq_true a.name) (List.find?_eq_none.mp hfind a ha)
  | some x =>
      have hname : x.name = a.name := beq_iff_eq.mp
        (List.find?_some (p := fun x : ActionDefinition => x.name == a.name) hfind)
      rw [List.inj_on_of_nodup_map hnodup (List.mem_of_find?_eq_some hfind) ha hname]

theorem StepDefinition.findAction?_eq_none {s : StepDefinition} {n : String}
    (hn : n ∉ s.actionNames) : s.findAction? n = none :=
  List.find?_eq_none.mpr fun _ ha hname => hn (beq_iff_eq.mp hname ▸ List.mem_map_of_mem ha)

theorem Definition.findStep?_eq_none {d : Definition} {n : String} (hn : n ∉ d.stepNames) :
    d.findStep? n = none :=
  List.find?_eq_none.mpr fun _ hs hname => hn (beq_iff_eq.mp hname ▸ List.mem_map_of_mem hs)

/-- Does a definition show what a script declares?  Names are those that the script
    declares, in its order and once; under each stands what was declared, and nothing
    under others.  A key keeps its first place and its last default.  The first step is
    the initial one, and the steps without actions are final. -/
structure Definition.Shows (d : Definition) (script : List Declaration) : Prop where
  stepNames    : d.stepNames = Script.stepNames script
  distinct     : d.Distinct
  step         : ∀ s ∈ Script.opened script,
    d.findStep? s.name = some (s.extended (Script.within s.name script))
  noStep       : ∀ n ∉ Script.stepNames script, d.findStep? n = none
  actionNames  : ∀ s ∈ d.steps, s.actionNames = Script.actionNames s.name script
  action       : ∀ s ∈ d.steps, ∀ a ∈ Script.actions s.name script,
    s.findAction? a.name = some a
  noAction     : ∀ s ∈ d.steps, ∀ n ∉ Script.actionNames s.name script,
    s.findAction? n = none
  requiredKeys : d.requiredKeys = ((Script.required script).map (·.key)).eraseDups
  keysDiffer   : d.requiredKeys.Nodup
  default      : ∀ key, d.defaultFor key =
    (((Script.required script).reverse.find? (·.key == key)).map (·.default)).getD .null
  initial      : d.initialStep? = (Script.stepNames script).head?
  final        : d.finalSteps =
    (Script.stepNames script).filter fun n => (Script.actionNames n script).isEmpty

namespace Script

theorem actions_of_mem_steps {s : StepDefinition} (hs : s ∈ steps script) :
    s.actions = actions s.name script := by
  obtain ⟨t, ht, rfl⟩ := List.mem_map.mp hs
  rw [StepDefinition.extended, opened_actions ht]
  rfl

/-- An admissible script declares a definition that shows it. -/
theorem Admissible.shows (h : Admissible script) :
    (declared serial name description script).Shows script := by
  have hsteps : (declared serial name description script).stepNames.Nodup :=
    stepNames_declared ▸ h.stepsDiffer
  have hnames : ∀ s ∈ steps script, s.actionNames = actionNames s.name script :=
    fun s hs => congrArg (List.map ActionDefinition.name) (actions_of_mem_steps hs)
  have hactions : ∀ s ∈ steps script, s.actionNames.Nodup :=
    fun s hs => hnames s hs ▸ h.actionsDiffer s.name
  constructor
  case stepNames => exact stepNames_declared
  case distinct => exact ⟨hsteps, hactions⟩
  case step => exact fun s hs => Definition.findStep?_of_mem hsteps (List.mem_map_of_mem hs)
  case noStep => exact fun n hn => Definition.findStep?_eq_none (stepNames_declared ▸ hn)
  case actionNames => exact hnames
  case action =>
    intro s hs a ha
    exact StepDefinition.findAction?_of_mem (hactions s hs) (actions_of_mem_steps hs ▸ ha)
  case noAction =>
    exact fun s hs n hn => StepDefinition.findAction?_eq_none (hnames s hs ▸ hn)
  case requiredKeys => exact keys_requirements
  case keysDiffer => exact nodup_requirements
  case default => exact fun key => by rw [Definition.defaultFor, ← find?_requirements]; rfl
  case initial =>
    rw [Definition.initialStep?, ← List.head?_map]
    exact congrArg List.head? names_steps
  case final =>
    rw [Definition.finalSteps, ← names_steps, List.filter_map]
    refine congrArg (List.map _) (List.filter_congr fun s hs => ?_)
    rw [StepDefinition.isTerminal, Function.comp_apply, ← hnames s hs, StepDefinition.actionNames,
      List.isEmpty_map]

end Script

/-! ## Blocks and chains -/

namespace Definition

variable {d : Definition} {s : StepDefinition} {ss : List StepDefinition}
  {p q script : List Declaration}

theorem declareAll_append : d.declareAll (p ++ q) = d.declareAll p >>= (·.declareAll q) := by
  induction p generalizing d with
  | nil => rfl
  | cons c p ih =>
      rw [List.cons_append, declareAll, declareAll, bind_assoc]
      exact congrArg _ (funext fun d => ih)

/-- The last step is the one with its name when no step before it has the name. -/
theorem onStep_last {c : StepDeclaration} (hs : s.name ∉ ss.map (·.name)) :
    onStep s.name c (ss ++ [s]) = s.declare c >>= fun s => .ok (ss ++ [s]) := by
  induction ss with
  | nil =>
      rw [List.nil_append, onStep, if_pos rfl]
      rfl
  | cons t ss ih =>
      have hname := Ne.symm (List.ne_of_not_mem_cons hs)
      rw [List.cons_append, onStep, if_neg hname, ih (List.not_mem_of_not_mem_cons hs), bind_assoc]
      rfl

/-- What goes on from the last step is carried out as its block. -/
theorem declareAll_onStep (hs : s.name ∉ ss.map (·.name)) (block : List StepDeclaration) :
    declareAll { d with steps := ss ++ [s] } (block.map (.onStep s.name)) =
      s.declareAll block >>= fun s => .ok { d with steps := ss ++ [s] } := by
  induction block generalizing s with
  | nil => rfl
  | cons c block ih =>
      rw [List.map_cons, declareAll, declare, onStep_last hs, StepDefinition.declareAll]
      cases hc : s.declare c with
      | error f => rfl
      | ok t =>
          have hname := (StepDefinition.declare_keeps hc).1
          rw [← hname] at hs ⊢
          exact ih hs

theorem declareAll_chained (c : Declaration) : d.declareAll c.chained = d.declare c := by
  cases c with
  | requireContext | onStep => exact bind_pure _
  | step name description safe block =>
      rw [Declaration.chained, declareAll, declare, declare]
      by_cases hname : d.stepNames.contains name = true
      · rw [if_pos hname, if_pos hname]
        rfl
      · rw [if_neg hname, if_neg hname]
        exact declareAll_onStep (s := { name, description, safe })
          (fun h => hname (List.contains_iff_mem.mpr h)) block

/-- A script comes to the same in chains as with blocks, be it a definition or an error. -/
theorem declareAll_flatMap_chained :
    d.declareAll (script.flatMap (·.chained)) = d.declareAll script := by
  induction script generalizing d with
  | nil => rfl
  | cons c script ih =>
      rw [List.flatMap_cons, declareAll_append, declareAll_chained, declareAll]
      exact congrArg _ (funext fun d => ih)

end Definition

/-- A builder accepts exactly the scripts in which no name is repeated and every predicate
    can be called, if the workflow has a name, and keeps what they declare, in order.  In
    chains they come to the same as with blocks. -/
theorem Script.define_shows {script : List Declaration} (h : Script.InOrder [] script)
    (serial : Nat) (name : String) (description : Option String) :
    ((∃ f, Definition.define serial name description script = .error f) ↔
        name = "" ∨ ¬ Script.Admissible script) ∧
      (∀ f, Definition.define serial name description script = .error f →
        ∃ message, f = .plain .definition message) ∧
      (∀ d, Definition.define serial name description script = .ok d →
        d = Script.declared serial name description script ∧ d.Shows script) ∧
      Definition.define serial name description (script.flatMap (·.chained)) =
        Definition.define serial name description script := by
  have hbare : AcceptedIff (name ≠ "") (Script.declared serial name description [])
      (Definition.bare serial name description) := by
    unfold Definition.bare
    split
    · exact .inr ⟨fun h => h ‹_›, _, rfl⟩
    · exact .inl ⟨‹_›, rfl⟩
  have hdefine : AcceptedIff (name ≠ "" ∧ Script.Admissible script)
      (Script.declared serial name description script)
      (Definition.define serial name description script) :=
    hbare.bind fun _ => Script.declareAll_accepted (p := []) Script.admissible_nil h
  obtain ⟨herror, hkind, hok⟩ := hdefine.error_iff
  refine ⟨?_, hkind, fun d hd => ?_, ?_⟩
  · rw [herror, not_and_or, not_ne_iff]
  · obtain ⟨⟨_, hadmissible⟩, rfl⟩ := hok d hd
    exact ⟨rfl, hadmissible.shows⟩
  · unfold Definition.define
    exact congrArg _ (funext fun d => Definition.declareAll_flatMap_chained)

/-- A parcel that is packed and sent, with the declarations of its steps interleaved and a
    key that is required again, is accepted, and shows what the script declares. -/
theorem Script.parcel_shows :
    let script : List Declaration :=
      [.requireContext "weight" .null, .step "packed" none true [.describe "taped"],
       .requireContext "label" (.str "none"),
       .step "sent" none false [.action "return" "packed" none none true],
       .onStep "packed" (.action "send" "sent" none none false),
       .requireContext "weight" (.int 0), .step "lost" none false []]
    ∃ d, Definition.define 0 "parcel" none script = .ok d ∧ d.Shows script ∧
      d.requiredKeys = ["weight", "label"] ∧ d.defaultFor "weight" = .int 0 ∧
      d.finalSteps = ["lost"] := by
  intro script
  have h : Script.InOrder [] script := by simp [script, Script.InOrder]
  have hdefine : Definition.define 0 "parcel" none script =
    .ok (Script.declared 0 "parcel" none script) := rfl
  obtain ⟨_, hshows⟩ := (Script.define_shows h 0 "parcel" none).2.2.1 _ hdefine
  exact ⟨_, hdefine, hshows, rfl, rfl, rfl⟩

end Workflow
