import Workflow.Guard.Formula
import Workflow.Proofs.Acceptance
import Workflow.Proofs.Landing

/-! # Retry — after a retry the action is there to be performed

    A retry that is not forced asks the guard of the action on the snapshot that it leaves;
    the engine asks it anew on the snapshot that it finds, at another step and with one more
    checkpoint in its context.  Where guards and conditions only read, and read nothing that
    is reserved, the two contexts are the same to them.  So the action is open again, and
    whether it is accepted depends on the conditions of the step alone.

    The heart is `Reentered`, what a retry makes of a snapshot: `reentered_of_moves` finds
    it, and `Reentered.accepts_iff` tells what becomes of the action there. -/

namespace Workflow

open Client

variable {g : Engine} {base e e' : Execution} {d : Definition} {step : StepDefinition}
  {a : ActionDefinition}

/-! ## The public part of a context -/

namespace Mapping

/-- The entries under keys that are not reserved. -/
def publicPart (m : Mapping) : Mapping := m.filter fun x => !isReserved x.1

/-- What is put under a reserved key is no public entry, and takes the place of none. -/
theorem publicPart_set {key : String} (h : isReservedName key = true) (m : Mapping) (v : Value) :
    (m.set key v).publicPart = m.publicPart := by
  induction m with
  | nil =>
      show ([(Value.str key, v)] : Mapping).filter _ = []
      rw [List.filter_singleton, show isReserved (.str key) = true from h]
      rfl
  | cons x m ih =>
      obtain ⟨k, w⟩ := x
      show ((if (Value.str key).equal k then _ else _ : Mapping)).filter _ = _
      split
      · rename_i hk
        rw [Value.str_equal, beq_iff_eq] at hk
        have hreserved : isReserved k = true := by
          unfold isReserved
          rw [hk]
          exact h
        unfold publicPart
        rw [List.filter_cons_of_neg (by simp [hreserved]),
          List.filter_cons_of_neg (by simp [hreserved])]
      · unfold publicPart at ih ⊢
        have ih : List.filter (fun x => !isReserved x.1) (Mapping.insert m (.str key) v) =
            List.filter (fun x => !isReserved x.1) m := ih
        rw [List.filter_cons, List.filter_cons, ih]

end Mapping

/-- Does the guard come to the same for contexts with the same public part? -/
def Guard.IgnoresReserved (guard : Guard) : Prop :=
  ∀ m m' : Mapping, m.publicPart = m'.publicPart → (guard (.dict m)).1 = (guard (.dict m')).1

/-- Does the condition come to the same for contexts with the same public part? -/
def Condition.IgnoresReserved (x : Condition) : Prop :=
  ∀ m m' : Mapping, m.publicPart = m'.publicPart → x (.dict m) = x (.dict m')

/-- Do the guards and the conditions of a workflow only read, and read nothing reserved? -/
structure Definition.Oblivious (d : Definition) : Prop where
  reads      : d.OnlyReads
  guards     : ∀ step ∈ d.steps, ∀ a ∈ step.actions, ∀ guard ∈ a.guard, guard.IgnoresReserved
  conditions : ∀ step ∈ d.steps, ∀ x ∈ step.conditions, x.IgnoresReserved

namespace Definition.Oblivious

variable {m m' : Mapping}

theorem isAvailable_eq (hd : d.Oblivious) (hstep : step ∈ d.steps) (ha : a ∈ step.actions)
    (h : m.publicPart = m'.publicPart) :
    a.isAvailable (.dict m) = a.isAvailable (.dict m') := by
  unfold ActionDefinition.isAvailable ActionDefinition.check
  cases hguard : a.guard with
  | none => rfl
  | some guard => exact congrArg (·.getD false) (hd.guards step hstep a ha guard hguard m m' h)

theorem satisfiesConditions_eq (hd : d.Oblivious) (hstep : step ∈ d.steps)
    (h : m.publicPart = m'.publicPart) :
    step.satisfiesConditions (.dict m) = step.satisfiesConditions (.dict m') := by
  unfold StepDefinition.satisfiesConditions
  rw [Bool.eq_iff_iff, List.all_eq_true, List.all_eq_true]
  refine forall₂_congr fun x hx => ?_
  unfold Condition.holds
  rw [hd.conditions step hstep x hx m m' h]

end Definition.Oblivious

/-! ## What a retry makes of a snapshot -/

namespace Engine

/-- Is this what a retry that is not forced makes of a snapshot: back at the step of the
    action to retry, which was open there, with nothing but reserved entries changed in the
    context, and with a record of the way back? -/
structure Reentered (g : Engine) (base : Execution) (d : Definition) (step : StepDefinition)
    (a : ActionDefinition) (e : Execution) : Prop where
  defined : g.definitionFor e = .ok (some d)
  active  : e.status = .active
  current : e.currentStep = .str step.name
  found   : d.findStep? step.name = some step ∧ step.findAction? a.name = some a
  isOpen  : a.isAvailable base.context = true
  context : ∃ m m' : Mapping, base.context = .dict m ∧ e.context = .dict m' ∧ m'.publicPart = m.publicPart
  history : ∃ source now, Lax.textOf? base.currentStep = some source ∧
    e.history = base.history ++
      [⟨source, step.name, "recovery:retry_last", some .systemRecovery, now⟩]

/-- An unforced retry goes back to the step of the action to retry. -/
theorem reentered_of_moves {p : Execution} {m : Moment} {strategy : Strategy} {target : Value}
    {moved : Moved}
    (h : (g.moveMutation strategy target false).Decides base m (some p) (some moved))
    (hretry : moved.move.strategy = .retryLast) (v : Int) (now : Timestamp) :
    ∃ d step a x, g.definitionFor base = .ok (some d) ∧ base.retryCandidate? = some x ∧
      moved.retried = some x ∧ x.fromStep = step.name ∧ x.action = a.name ∧
      g.Reentered base d step a (p.committed v now) := by
  obtain ⟨d, move, dest, entries, context, c, _, hdef, hmove, hdest, he, hstows, hmoved, hp⟩ :=
    moveMutation_decides h
  obtain rfl := Option.some.inj hmoved
  rcases planMove_cases hdef hmove with ⟨x, hx, hopen, rfl⟩ | ⟨hother, _⟩
  · obtain rfl := Option.some.inj hdest
    obtain ⟨x', step, a, hx', hstep, ha, havailable⟩ :=
      retryGuardHolds_iff.mp (hopen.resolve_left Bool.false_ne_true)
    obtain rfl := Option.some.inj (hx.symm.trans hx')
    have hname : step.name = x.fromStep := (Definition.findStep?_some hstep).1
    have haction : a.name = x.action :=
      beq_iff_eq.mp (List.find?_some (p := fun b : ActionDefinition => b.name == x.action) ha)
    obtain ⟨stored, rfl⟩ := hstows.set_eq
    refine ⟨d, step, a, x, hdef, hx, hx, hname.symm, haction.symm, ?_⟩
    rw [Option.some.inj hp, ← hname]
    refine
      { defined := hdef
        active  := rfl
        current := rfl
        found   := ⟨hname ▸ hstep, haction ▸ ha⟩
        isOpen  := havailable
        context := ⟨entries, _, he, rfl, Mapping.publicPart_set (by decide) entries stored⟩
        history := ⟨c.capturedStep, m.time, hstows.capturedStep_eq he, rfl⟩ }
  · exact absurd hretry hother

namespace Reentered

variable {w : World} {on : Target} {actor : Value} {ref : Option EntityRef}

theorem named (h : g.Reentered base d step a e) : d.named? e.currentStep = some step := by
  rw [h.current]
  exact h.found.1

theorem step_mem (h : g.Reentered base d step a e) : step ∈ d.steps :=
  List.mem_of_find?_eq_some h.found.1

/-- The guard of the action holds there as it did before, and so the action is among those
    that are open. -/
theorem mem_openActions (h : g.Reentered base d step a e) (hd : d.Oblivious) :
    a.name ∈ StepDefinition.openActions step.actions e.context := by
  obtain ⟨m, m', hbase, he, hsame⟩ := h.context
  have ha : a ∈ step.actions := List.mem_of_find?_eq_some h.found.2
  have havailable : a.isAvailable (.dict m') = true := by
    rw [hd.isAvailable_eq h.step_mem ha hsame, ← hbase]
    exact h.isOpen
  rw [StepDefinition.openActions_eq (hd.reads step h.step_mem), he]
  exact List.mem_map_of_mem (List.mem_filter.mpr ⟨ha, havailable⟩)

/-- The conditions of the step hold there when they did before. -/
theorem satisfiesConditions_eq (h : g.Reentered base d step a e) (hd : d.Oblivious) :
    step.satisfiesConditions e.context = step.satisfiesConditions base.context := by
  obtain ⟨m, m', hbase, he, hsame⟩ := h.context
  rw [he, hbase]
  exact hd.satisfiesConditions_eq h.step_mem hsame

/-- The action is listed as available. -/
theorem available (h : g.Reentered base d step a e) (hd : d.Oblivious) {names : List String}
    (hnames : g.availableActions e = .ok names) : names.contains a.name = true := by
  rw [availableActions_of_named h.defined h.named] at hnames
  rw [← Except.ok.inj hnames]
  exact List.contains_iff_mem.mpr (h.mem_openActions hd)

/-- Nothing else is open there under the name of the action. -/
theorem unique (h : g.Reentered base d step a e) {d' : Definition} {step' : StepDefinition}
    {b : ActionDefinition} (hopen : g.Open (.str a.name) e d' step' b) :
    d' = d ∧ step' = step ∧ b = a := by
  obtain rfl := Option.some.inj (Except.ok.inj (h.defined.symm.trans hopen.definitionFor))
  obtain rfl := Option.some.inj (h.named.symm.trans (named?_iff.mpr hopen.current))
  have hname : a.name = b.name := Option.some.inj hopen.named.1
  exact ⟨rfl, rfl, Option.some.inj ((hname ▸ hopen.named.2).symm.trans h.found.2)⟩

/-- The action is accepted there when the conditions of its step held before, and it is
    that action which is performed. -/
theorem accepts_iff (h : g.Reentered base d step a e) (hd : d.Oblivious)
    (hfind : w.store.find? w.now on.executionId = .ok (some e)) (href : StandsFor actor ref)
    (hgranted : (g.perform on (.str a.name) actor .null).granted w = true) :
    g.Accepts on a.name actor w e' ↔ step.satisfiesConditions base.context = true ∧
      e' = (advance d e step a ref e.context w.now).committed e.version w.now := by
  obtain ⟨m, m', hbase, he, hsame⟩ := h.context
  rw [Engine.accepts_iff hfind he href hgranted, ← h.satisfiesConditions_eq hd, ← he]
  constructor
  · rintro ⟨d', step', b, hopen, rfl⟩
    obtain ⟨rfl, rfl, rfl⟩ := h.unique hopen
    exact ⟨List.all_eq_true.mpr hopen.conditions, rfl⟩
  · rintro ⟨hmet, rfl⟩
    obtain ⟨d', step', b, hopen⟩ := exists_open_iff.mpr
      ⟨h.active, d, step, h.defined, h.named, hmet, h.mem_openActions hd⟩
    obtain ⟨rfl, rfl, rfl⟩ := h.unique hopen
    exact ⟨d', step', b, hopen, rfl⟩

end Reentered

end Engine

/-! ## A retry beside other clients -/

theorem Strategy.text_retryLast {strategy : Strategy} (h : strategy.text = "retry_last") :
    strategy = .retryLast := by
  revert h
  cases strategy <;> decide

variable {ι : Type} [DecidableEq ι] {α : ι → Type} {c : Climate} {w : World} {on : Target}
  {word : String} {target : Value} {others : ∀ i, Client (α i)} {es : List (Event (Option ι))}
  {s : System (Option ι) (Beside Engine.RecoveryResult α)} {r : Engine.RecoveryResult}

open Engine in
/-- Whatever is stored, whatever other clients do and whatever trouble saves meet: a
    recovery that is not forced and comes to a retry has found the action to retry on the
    snapshot that it replaced, and goes back to its step.  Where the guards and the
    conditions of the workflow only read, and nothing reserved, it tells that the action is
    available.  Wherever its result is what is stored, performing that action with nothing
    to add is then accepted just when the conditions of its step hold.  It leads to the
    target of the action, and the two moves have added two records, from where the execution
    was over the step of the action to that target. -/
theorem retry_allows (hword : word ≠ "manual")
    (hrun : System.Run c ⟨w, System.beside (g.recover on word target false) others⟩ es s)
    (hdone : s.clients none = .done r) (hretry : r.strategy = "retry_last") :
    ∃ base d step a x source moved, (Trail.of es none).read = some base ∧
      (∃ now p, commitsOf es none = [⟨none, now, ⟨p, base.version, r.execution⟩⟩]) ∧
      g.definitionFor base = .ok (some d) ∧ base.retryCandidate? = some x ∧
      d.findStep? x.fromStep = some step ∧ step.findAction? x.action = some a ∧
      Lax.textOf? base.currentStep = some source ∧
      r.retryAction = some a.name ∧ r.execution.currentStep = .str step.name ∧
      (d.Oblivious → r.retryAvailable = some true ∧
        step.satisfiesConditions r.execution.context = step.satisfiesConditions base.context ∧
        ∀ on' actor ref w', w'.store.find? w'.now on'.executionId = .ok (some r.execution) →
          StandsFor actor ref → (g.perform on' (.str a.name) actor .null).granted w' = true →
          ((∃ e', g.Accepts on' a.name actor w' e') ↔
            step.satisfiesConditions base.context = true) ∧
          ∀ e', g.Accepts on' a.name actor w' e' → e'.currentStep = .str a.target ∧
            e'.history = base.history ++
              [⟨source, step.name, "recovery:retry_last", some .systemRecovery, moved⟩,
                ⟨step.name, a.target, a.name, ref, w'.now⟩]) := by
  have hmade := hrun.keeps_beside (keeps_made hword {})
  rw [hdone] at hmade
  obtain ⟨strategy, base, m, p, moved, names, hread, hdecides, hwrites, hstrategy, haction,
    hnames, havailable⟩ := hmade
  obtain ⟨now, hcommits, hstored⟩ := hrun.commitsOf_singleton hwrites
  have hretried : moved.move.strategy = .retryLast :=
    Strategy.text_retryLast (hstrategy.symm.trans hretry)
  obtain ⟨d, step, a, x, hdef, hx, hrecord, hstep, hname, hreentered⟩ :=
    reentered_of_moves hdecides hretried base.version now
  have hstored : r.execution = p.committed base.version now := hstored
  rw [← hstored] at hreentered
  obtain ⟨source, made, hsource, hhistory⟩ := hreentered.history
  have hretryAction : r.retryAction = some a.name := by
    rw [haction, hrecord]
    exact congrArg some hname
  refine ⟨base, d, step, a, x, source, made, hread, ⟨now, p, hcommits⟩, hdef, hx,
    hstep ▸ hreentered.found.1, hname ▸ hreentered.found.2, hsource, hretryAction,
    hreentered.current, fun hd => ⟨?_, hreentered.satisfiesConditions_eq hd,
      fun on' actor ref w' hfind href hgranted => ⟨?_, fun e' haccepts => ?_⟩⟩⟩
  · rw [havailable, hrecord, ← hreentered.available hd hnames, ← hname]
    rfl
  · constructor
    · rintro ⟨e', haccepts⟩
      exact ((hreentered.accepts_iff hd hfind href hgranted).mp haccepts).1
    · intro hmet
      exact ⟨_, (hreentered.accepts_iff hd hfind href hgranted).mpr ⟨hmet, rfl⟩⟩
  · obtain ⟨-, rfl⟩ := (hreentered.accepts_iff hd hfind href hgranted).mp haccepts
    refine ⟨rfl, ?_⟩
    show r.execution.history ++ _ = _
    rw [hhistory, List.append_assoc]
    rfl

/-! ## A letter that was lost -/

/-- A letter is sent once it has a stamp, and from where it is written only with an
    address. -/
def letterWorkflow : Definition where
  serial := 1
  name   := "letter"
  steps  :=
    [ { name       := "written", safe := true
        conditions := [(Formula.has (.str "address")).eval.toCondition]
        actions    := [⟨"send", "sent", some (Formula.has (.str "stamp")).eval, none, false⟩] },
      { name := "sent" } ]

/-- The engine for letters. -/
def letterEngine : Engine := { registry := ⟨[letterWorkflow]⟩ }

/-- A letter that was lost on its way. -/
def lostLetter : Execution :=
  { id := "exec-1", workflowName := .str "letter", subject := .subject "Letter" "7"
    currentStep := .str "sent", status := .failed
    context := .dict [(.str "address", .str "Bern"), (.str "stamp", .str "red")]
    history := [⟨"written", "sent", "send", none, .defaultNow⟩], assignedActor := none
    version := 1, createdAt := .defaultNow, updatedAt := .defaultNow }

/-- The recovery of the letter, beside a client that could add a note. -/
def letterDesk : System (Option (Fin 1)) (Beside Engine.RecoveryResult fun _ => Execution) :=
  ⟨{ store := .memory ⟨[lostLetter]⟩ },
    System.beside (letterEngine.recover (.id (.str "exec-1")) "auto" .null false)
      fun _ => letterEngine.mergeContext (.id (.str "exec-1"))
        (.dict [(.str "note", .str "hurry")])⟩

/-- Whether there is an entry under a key that is not reserved shows in the public part. -/
theorem Mapping.any_publicPart {key : String} (h : isReservedName key = false) (m : Mapping) :
    (m.publicPart.any fun x => (Value.str key).equal x.1) =
      m.any fun x => (Value.str key).equal x.1 := by
  unfold publicPart
  rw [List.any_filter]
  refine congrArg (List.any m) (funext fun x => ?_)
  cases hx : (Value.str key).equal x.1 with
  | false => exact Bool.and_false _
  | true =>
      rw [Value.str_equal, beq_iff_eq] at hx
      unfold isReserved
      rw [hx]
      simp [h]

theorem Formula.has_ignoresReserved {key : String} (h : isReservedName key = false) :
    (Formula.has (.str key)).eval.IgnoresReserved := by
  intro m m' hsame
  refine congrArg some ?_
  calc (m.any fun x => (Value.str key).equal x.1)
      = m.publicPart.any fun x => (Value.str key).equal x.1 := (Mapping.any_publicPart h m).symm
    _ = m'.publicPart.any fun x => (Value.str key).equal x.1 := by rw [hsame]
    _ = m'.any fun x => (Value.str key).equal x.1 := Mapping.any_publicPart h m'

theorem letterWorkflow_oblivious : letterWorkflow.Oblivious := by
  constructor
  · intro step hstep a ha guard hguard
    rcases List.mem_cons.mp hstep with rfl | hstep
    · obtain rfl := List.mem_singleton.mp ha
      obtain rfl := Option.some.inj hguard
      exact fun _ => rfl
    · rw [List.mem_singleton.mp hstep] at ha
      exact absurd ha List.not_mem_nil
  · intro step hstep a ha guard hguard
    rcases List.mem_cons.mp hstep with rfl | hstep
    · obtain rfl := List.mem_singleton.mp ha
      obtain rfl := Option.some.inj hguard
      exact Formula.has_ignoresReserved (by decide)
    · rw [List.mem_singleton.mp hstep] at ha
      exact absurd ha List.not_mem_nil
  · intro step hstep x hx
    rcases List.mem_cons.mp hstep with rfl | hstep
    · obtain rfl := List.mem_singleton.mp hx
      exact Formula.has_ignoresReserved (show isReservedName "address" = false by decide)
    · rw [List.mem_singleton.mp hstep] at hx
      exact absurd hx List.not_mem_nil

/-- The letter goes back to where it was written, from where it can be sent again. -/
theorem lostLetter_sent_again :
    let r := letterDesk.follow [none, none, none, none, none]
    ∃ result e', r.2.clients none = .done result ∧ result.strategy = "retry_last" ∧
      result.retryAction = some "send" ∧ result.retryAvailable = some true ∧
      letterEngine.Accepts (.id (.str "exec-1")) "send" .null r.2.world e' ∧
      e'.currentStep = .str "sent" ∧
      e'.history.map (·.action) = ["send", "recovery:retry_last", "send"] := by
  intro r
  have hrun : System.Run .calm letterDesk r.1 r.2 := .of_schedule (Climate.calm_allows rfl) _
  obtain ⟨result, hdone, hstrategy, hfind⟩ : ∃ result, r.2.clients none = .done result ∧
      result.strategy = "retry_last" ∧
      r.2.world.store.find? r.2.world.now (.str "exec-1") = .ok (some result.execution) :=
    ⟨_, rfl, rfl, rfl⟩
  have hgranted : (letterEngine.perform (.id (.str "exec-1")) (.str "send") .null .null).granted
      r.2.world = true := by
    decide +kernel
  obtain ⟨base, d, step, a, x, source, moved, hread, -, hdef, hx, hstep, ha, -, haction, -,
    hallows⟩ := retry_allows (w := letterDesk.world) (by decide) hrun hdone hstrategy
  obtain rfl : base = lostLetter := Option.some.inj (hread.symm.trans rfl)
  obtain rfl : d = letterWorkflow := Option.some.inj (Except.ok.inj (hdef.symm.trans rfl))
  obtain rfl := Option.some.inj (hx.symm.trans rfl)
  obtain rfl := Option.some.inj (hstep.symm.trans rfl)
  obtain rfl := Option.some.inj (ha.symm.trans rfl)
  obtain ⟨havailable, -, haccepts⟩ := hallows letterWorkflow_oblivious
  obtain ⟨haccepted, hresult⟩ :=
    haccepts (.id (.str "exec-1")) .null none r.2.world hfind (.inl ⟨rfl, rfl⟩) hgranted
  obtain ⟨e', he'⟩ := haccepted.mpr (by decide +kernel)
  obtain ⟨hcurrent, hhistory⟩ := hresult e' he'
  exact ⟨result, e', hdone, hstrategy, haction, havailable, he', hcurrent, by rw [hhistory]; rfl⟩

end Workflow
