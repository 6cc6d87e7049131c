import Workflow.Proofs.Blockers
import Workflow.Proofs.Sound

/-! # Landing — where a recovery leaves its execution

    A rollback goes to a safe step, a reset to a step that it has looked up, and a retry
    to where its record was made.  The record may be older than the definition that is
    registered now.  A retry looks its step up to see whether the action would be open
    there; one that is forced does not look.  So a recovery lands on a declared step,
    unless it is a forced retry of a record from a step that is declared no more.

    The heart is `planMove_lands`, on the snapshot; `keeps_landed` carries it to the
    one write of the recovery, whatever the operation is answered. -/

namespace Workflow

open Client

variable {ι : Type} {α : ι → Type} {g : Engine} {word : String} {force : Bool}

/-! ## Landings -/

/-- Is this a place for a recovery to lead to: an active execution at a step that the
    registered definition declares? -/
def Engine.Usable (g : Engine) (e : Execution) : Prop :=
  e.status = .active ∧ ∃ d step, g.definitionFor e = .ok (some d) ∧
    e.currentStep = .str step ∧ d.hasStep step = true

/-- Is the execution where a forced retry has brought it: active, under a registered
    definition, at the step from which the last action of a caller was performed? -/
def Engine.Forced (g : Engine) (e : Execution) : Prop :=
  e.status = .active ∧ ∃ d x, g.definitionFor e = .ok (some d) ∧
    e.retryCandidate? = some x ∧ e.currentStep = .str x.fromStep

namespace Engine

/-- How a recovery ends that has moved its execution: with one write, and with what is
    stored since as its result.  What it wrote is usable, or a forced retry. -/
def Landed (g : Engine) (force : Bool) (w₀ : List Write) (t : Trail)
    (r : RecoveryResult) : Prop :=
  ∃ x, t.writes = w₀ ++ [x] ∧ r.execution = x.stored ∧
    (g.Usable x.offered ∨ force = true ∧ r.strategy = "retry_last" ∧ g.Forced x.offered)

/-- A move by the system leaves the action to retry what it was. -/
theorem retryCandidate?_relocate (base : Execution) (source step : String) {action : String}
    (status : Status) (context : Value) (now : Timestamp) (h : isSystemAction action = true) :
    (relocate base source step action status context now).retryCandidate? =
      base.retryCandidate? := by
  unfold Execution.retryCandidate? relocate
  rw [List.reverse_append, List.reverse_singleton, List.singleton_append,
    List.find?_cons_of_neg (by simp [h])]

/-- The move that a mutation makes leads to a usable step, or retries by force. -/
theorem moveMutation_lands {base p : Execution} {m : Moment} {strategy : Strategy}
    {target : Value} {moved : Option Moved}
    (h : (g.moveMutation strategy target force).Decides base m (some p) moved) :
    ∃ x, moved = some x ∧
      (g.Usable p ∨ force = true ∧ x.move.strategy = .retryLast ∧ g.Forced p) := by
  obtain ⟨d, move, step, entries, context, c, _, hdef, hmove, hstep, _, _, hmoved, hp⟩ :=
    moveMutation_decides h
  refine ⟨_, hmoved, ?_⟩
  rw [Option.some.inj hp]
  rcases planMove_lands hdef hmove hstep with hdeclared | ⟨hforce, hretry, r, hr, rfl⟩
  · exact .inl ⟨rfl, d, step, hdef, rfl, hdeclared⟩
  · refine .inr ⟨hforce, hretry, rfl, d, r, hdef, ?_, rfl⟩
    rw [hretry, retryCandidate?_relocate base _ _ _ _ _ (by decide)]
    exact hr

/-- How a recovery ends that has moved its execution: with the one write of the move that
    it decided on the snapshot it read last, and with a report of that move. -/
def Made (g : Engine) (target : Value) (force : Bool) (w₀ : List Write) (t : Trail)
    (r : RecoveryResult) : Prop :=
  ∃ strategy base m p moved names, t.read = some base ∧
    (g.moveMutation strategy target force).Decides base m (some p) (some moved) ∧
    t.writes = w₀ ++ [⟨p, base.version, r.execution⟩] ∧
    r.strategy = moved.move.strategy.text ∧ r.retryAction = moved.retried.map (·.action) ∧
    g.availableActions r.execution = .ok names ∧
    r.retryAvailable = moved.retried.map fun x => names.contains x.action

/-- Whatever a recovery is answered that is not prepared by hand: when it comes to a
    result, it has made a move. -/
theorem keeps_made {on : Target} {target : Value} (hword : word ≠ "manual") (t : Trail) :
    (g.recover on word target force).Keeps (fun _ _ => True) (g.Made target force t.writes)
      (fun _ _ => True) t := by
  refine keeps_bind (keeps_refresh trivial (fun current => ?_) fun _ => trivial)
  split
  · exact trivial
  · rename_i s hs
    refine keeps_bind (keeps_ofExcept (fun blockers _ => ?_) fun _ _ => trivial)
    split
    · exact trivial
    · split
      · -- only the word "manual" stands for a recovery by hand
        rename_i hmanual
        have htext := beq_iff_eq.mp (List.find?_some (p := fun x : Strategy => x.text == word) hs)
        rw [hmanual] at htext
        exact absurd htext.symm hword
      · refine keeps_bind (keeps_mono (keeps_mutate g _ _ _ false _) (fun _ _ _ => trivial)
          (fun t' r hr => ?_) fun _ _ _ => trivial)
        cases hr with
        | @written base p saved m moved hread _ hd hw =>
            obtain ⟨_, _, _, _, _, _, _, _, _, _, _, _, rfl, _⟩ := moveMutation_decides hd
            refine keeps_bind (keeps_ofExcept (fun names hnames => ?_) fun _ _ => trivial)
            exact ⟨s, base, m, p, _, names, hread, hd, hw, rfl, rfl, hnames, rfl⟩
        | unchanged _ _ hd _ =>
            -- a move always proposes something
            obtain ⟨_, _, _, _, _, _, _, _, _, _, _, _, _, hp⟩ := moveMutation_decides hd
            exact nomatch hp

/-- When it comes to a result, it has landed. -/
theorem keeps_landed {on : Target} {target : Value} (hword : word ≠ "manual") (t : Trail) :
    (g.recover on word target force).Keeps (fun _ _ => True) (g.Landed force t.writes)
      (fun _ _ => True) t := by
  refine keeps_mono (keeps_made hword t) (fun _ _ _ => trivial) (fun t' r hr => ?_)
    fun _ _ _ => trivial
  obtain ⟨strategy, base, m, p, moved, _, _, hd, hw, hstrategy, _⟩ := hr
  obtain ⟨x, hx, hlands⟩ := moveMutation_lands hd
  obtain rfl := Option.some.inj hx
  refine ⟨_, hw, rfl, ?_⟩
  rcases hlands with husable | ⟨hforce, hretry, hforced⟩
  · exact .inl husable
  · refine .inr ⟨hforce, ?_, hforced⟩
    rw [hstrategy, hretry]
    rfl

end Engine

/-! ## A recovery beside other clients -/

variable [DecidableEq ι] {c : Climate} {w : World} {on : Target} {target : Value}
  {others : ∀ i, Client (α i)} {es : List (Event (Option ι))}
  {s : System (Option ι) (Beside Engine.RecoveryResult α)} {r : Engine.RecoveryResult}

/-- Whatever is stored, whatever other clients do and whatever trouble saves meet: a
    recovery that is not prepared by hand and comes to a result has committed once, and
    its result is what it committed, an active execution.  That is at a step that the
    registered definition declares, or else the recovery was a forced retry, and that is
    at the step from which the last action of a caller was performed. -/
theorem recovery_lands (hword : word ≠ "manual")
    (hrun : System.Run c ⟨w, System.beside (g.recover on word target force) others⟩ es s)
    (hdone : s.clients none = .done r) :
    (∃ now v p, commitsOf es none = [⟨none, now, ⟨p, v, r.execution⟩⟩]) ∧
    (g.Usable r.execution ∨
      force = true ∧ r.strategy = "retry_last" ∧ g.Forced r.execution) := by
  have hlanded := hrun.keeps_beside (Engine.keeps_landed hword {})
  rw [hdone] at hlanded
  obtain ⟨x, hwrites, hresult, hlands⟩ := hlanded
  obtain ⟨now, hcommits, hstored⟩ := hrun.commitsOf_singleton hwrites
  refine ⟨⟨now, x.expected, x.offered, ?_⟩, ?_⟩
  · rw [hresult]
    exact hcommits
  · -- the stamp of the commit leaves step, status, workflow and history alone
    rw [hresult, hstored]
    exact hlands

/-! ## A review whose workflow is redrawn -/

/-- The review anew, with another first step than before. -/
def redrawnWorkflow : Definition where
  serial := 2
  name   := "review"
  steps  :=
    [ { name := "written", actions := [⟨"submit", "reviewed", none, none, false⟩] },
      { name := "reviewed", actions := [⟨"publish", "published", none, none, false⟩] },
      { name := "published" } ]

/-- A review that was submitted before the redrawing, from a step that is declared no
    more, to one that still is. -/
def submittedReview : Execution :=
  { openReview with
    currentStep := .str "reviewed"
    history     := [⟨"draft", "reviewed", "submit", none, .defaultNow⟩]
    version     := 1 }

/-- The engine that knows the review anew. -/
def redrawnEngine : Engine := { registry := ⟨[redrawnWorkflow]⟩ }

/-- A recovery of the review, beside a client that adds a note. -/
def redrawnDesk (word : String) (force : Bool) :
    System (Option (Fin 1)) (Beside Engine.RecoveryResult fun _ => Execution) :=
  ⟨{ store := .memory ⟨[submittedReview]⟩ },
    System.beside (redrawnEngine.recover (.id (.str "exec-1")) word .null force)
      fun _ => redrawnEngine.mergeContext (.id (.str "exec-1"))
        (.dict [(.str "note", .str "hurry")])⟩

/-- What became of a recovery: the strategy that it chose, and the step that it left its
    execution at. -/
def landing? : Client Engine.RecoveryResult → Option (String × Option String)
  | .done r => some (r.strategy, r.execution.currentStep.toText?)
  | _       => none

theorem landing?_some {client : Client Engine.RecoveryResult} {strategy : String}
    {step : Option String} (h : landing? client = some (strategy, step)) :
    ∃ r, client = .done r ∧ r.strategy = strategy ∧ r.execution.currentStep.toText? = step := by
  cases client with
  | done r =>
      obtain ⟨hstrategy, hstep⟩ := Prod.mk.inj (Option.some.inj h)
      exact ⟨r, rfl, hstrategy, hstep⟩
  | fail f => exact nomatch h
  | ask q next => exact nomatch h

/-- A note that comes between makes the recovery decide anew.  It lands on the new first
    step, which is declared. -/
theorem redrawnDesk_lands :
    let r := (redrawnDesk "auto" false).follow
      [none, none, none, none, some 0, some 0, some 0, some 0, none, none, none, none, none,
        none, none]
    ∃ result, r.2.clients none = .done result ∧ result.strategy = "reset" ∧
      result.execution.currentStep.toText? = some "written" ∧
      redrawnEngine.Usable result.execution ∧
      (commits r.1).map (·.client) = [some 0, none] := by
  intro r
  have hcalm : Climate.calm.Allows (redrawnDesk "auto" false).world :=
    ⟨trivial, fun d h => absurd h List.not_mem_nil⟩
  have hrun : System.Run .calm (redrawnDesk "auto" false) r.1 r.2 := .of_schedule hcalm _
  have hlanding : landing? (r.2.clients none) = some ("reset", some "written") := by
    decide +kernel
  obtain ⟨result, hdone, hstrategy, hstep⟩ := landing?_some hlanding
  refine ⟨result, hdone, hstrategy, hstep, ?_, by decide +kernel⟩
  rcases (recovery_lands (w := (redrawnDesk "auto" false).world) (by decide) hrun hdone).2 with
    husable | ⟨hforce, _⟩
  · exact husable
  · exact nomatch hforce

/-- A retry that is forced brings the review from a declared step to one that is declared
    no more. -/
theorem forced_retry_strands :
    let r := (redrawnDesk "retry_last" true).follow [none, none, none, none, none]
    ∃ result, r.2.clients none = .done result ∧ result.strategy = "retry_last" ∧
      result.execution.currentStep.toText? = some "draft" ∧
      redrawnEngine.Usable submittedReview ∧ ¬redrawnEngine.Usable result.execution := by
  intro r
  have hlanding : landing? (r.2.clients none) = some ("retry_last", some "draft") := by
    decide +kernel
  obtain ⟨result, hdone, hstrategy, hstep⟩ := landing?_some hlanding
  refine ⟨result, hdone, hstrategy, hstep, ?_, ?_⟩
  · exact ⟨rfl, redrawnWorkflow, "reviewed", rfl, rfl, by decide⟩
  · rintro ⟨_, d, step, hd, hcurrent, hdeclared⟩
    -- only one definition is registered, whatever the review names
    have hmem : d ∈ [redrawnWorkflow] := by
      obtain ⟨name, _, hget⟩ := Engine.definitionFor_some hd
      exact List.mem_of_find?_eq_some hget
    rw [hcurrent] at hstep
    obtain rfl : step = "draft" := Option.some.inj hstep
    rw [List.mem_singleton.mp hmem] at hdeclared
    exact absurd hdeclared (by decide)

end Workflow
