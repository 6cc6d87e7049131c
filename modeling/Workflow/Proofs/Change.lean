import Workflow.Proofs.Checkpoint
import Workflow.Proofs.Perform
import Workflow.Recovery.Plan

/-! # Change — what each operation can make of a snapshot

    Every operation that writes decides on one snapshot what is to stand in its
    place.  `Change` says once and for all what that can be, operation by operation
    and case by case; whatever is to hold of all stored executions is shown of it.

    The lemmas before it look into the mutations, each of which is opened here and
    nowhere else. -/

namespace Workflow

/-- What a caller may ask for. -/
inductive Operation where
  | create (workflow : String) (subject actor context : Value)
  | perform (t : Target) (action actor additional : Value)
  | mergeContext (t : Target) (values : Value)
  | pause (t : Target)
  | resume (t : Target)
  | createCheckpoint (t : Target) (label : Value)
  | restore (t : Target) (checkpointId : String) (force : Bool)
  | autoRepair (t : Target)
  | recover (t : Target) (strategy : String) (target : Value) (force : Bool)

variable {g : Engine} {base p : Execution} {m : Moment} {o : Option Execution}

namespace Engine

/-! ## Checkpoints that are taken -/

/-- Is this a checkpoint of the snapshot, taken once `s` ids had been drawn, and the
    context what comes of storing it over the given entries? -/
structure Stows (g : Engine) (base : Execution) (m : Moment) (s : Serials)
    (onto : Mapping) (c : Checkpoint) (context : Mapping) : Prop where
  later  : m.before.checkpoints ≤ s.checkpoints
  taken  : ∃ label, (Checkpoint.capture base label).runAt m.time s = (.ok c, m.after)
  stored : Checkpoint.store base c g.settings.recovery.maxCheckpoints onto = .ok context

namespace Stows

variable {s : Serials} {onto entries context : Mapping} {c : Checkpoint}

/-- What comes of storing a checkpoint over entries: they hold the newest documents
    of the snapshot, with the new one the last. -/
theorem context_eq (h : g.Stows base m s onto c context)
    (hclosed : ∀ ds, Checkpoint.stored base = .ok ds → ∀ d ∈ ds, d.Closed) :
    ∃ ds d, Checkpoint.stored base = .ok ds ∧ c.document = .ok d ∧
      context = onto.set checkpointsKey
        (.list (Checkpoint.newest g.settings.recovery.maxCheckpoints (ds ++ [d]))) :=
  Checkpoint.store_ok hclosed h.stored

/-- What such a checkpoint holds, and the id that it has drawn. -/
theorem taken_eq (h : g.Stows base m s onto c context) (he : base.context = .dict entries)
    {step : String} (hstep : base.currentStep = .str step) :
    ∃ label captured, c = .taken base s!"cp-{s.checkpoints + 1}" m.time label step captured ∧
      Lax.mapping "captured_context" (.dict
        (entries.copyTop fun k => !(Value.str checkpointsKey).equal k)) = .ok captured ∧
      m.after = { s with checkpoints := s.checkpoints + 1 } := by
  obtain ⟨label, htaken⟩ := h.taken
  obtain ⟨label', step', captured, _, hs, hcaptured, hc, hafter⟩ :=
    Checkpoint.capture_ok he htaken
  rw [hstep] at hs
  rw [← Checked.ok.inj hs] at hc
  exact ⟨label', captured, hc, hcaptured, hafter⟩

/-- Storing it puts something under the key of the checkpoints and changes nothing else. -/
theorem set_eq (h : g.Stows base m s onto c context) : ∃ v, context = onto.set checkpointsKey v := by
  obtain ⟨ds, _, hdocument⟩ := exceptBind_ok.mp h.stored
  obtain ⟨doc, _, hset⟩ := exceptBind_ok.mp hdocument
  exact ⟨_, (Except.ok.inj hset).symm⟩

/-- It has been taken at the step that the snapshot is at, which reads as a text. -/
theorem capturedStep_eq (h : g.Stows base m s onto c context) (he : base.context = .dict entries) :
    Lax.textOf? base.currentStep = some c.capturedStep := by
  obtain ⟨_, hcapture⟩ := h.taken
  obtain ⟨_, step, _, _, hstep, _, rfl, _⟩ := Checkpoint.capture_ok he hcapture
  unfold Lax.text at hstep
  split at hstep
  · rename_i text htext
    rw [htext, Checked.ok.inj hstep]
    rfl
  · exact nomatch hstep

end Stows

/-- The snapshot after a move by the system to a step. -/
def relocate (base : Execution) (source step action : String) (status : Status)
    (context : Value) (now : Timestamp) : Execution :=
  { base with
    currentStep := .str step
    status      := status
    context     := context
    history     := base.history ++ [⟨source, step, action, some .systemRecovery, now⟩] }

end Engine

/-! ## Contexts that are written -/

section Contexts

variable {entries values : Mapping} {context : Value}

theorem updated_dict (h : (Value.dict entries).updated values = .ok context) :
    context = .dict (entries.merge values) := (Except.ok.inj h).symm

/-- A text that is not reserved is other than the key of the checkpoints. -/
theorem ne_checkpointsKey {key : Value} (htext : key.isText = true)
    (h : isReserved key = false) : ∃ t, key.toText? = some t ∧ t ≠ checkpointsKey := by
  unfold Value.isText at htext
  obtain ⟨t, ht⟩ := Option.isSome_iff_exists.mp htext
  refine ⟨t, ht, ?_⟩
  rintro rfl
  unfold isReserved at h
  rw [ht] at h
  exact nomatch h

/-- Data that passes as a context given from outside holds no checkpoints. -/
theorem under_of_valid {values : Mapping} (h : contextProblems false values = []) :
    values.under checkpointsKey = [] := by
  obtain ⟨hfit, hreserved⟩ := contextProblems_nil.mp h
  refine List.filterMap_eq_nil_iff.mpr fun e he => if_neg fun hkey => ?_
  obtain ⟨t, ht, hne⟩ := ne_checkpointsKey (hfit e he).1 (hreserved rfl e he)
  exact hne (Option.some.inj (ht.symm.trans hkey))

theorem texts_of_valid {values : Mapping} (h : contextProblems false values = []) :
    values.Texts := fun e he => ((contextProblems_nil.mp h).1 e he).1

/-- Merging in what passes as context data leaves the checkpoints alone. -/
theorem under_merge_valid (h : contextProblems false values = []) (entries : Mapping) :
    (entries.merge values).under checkpointsKey = entries.under checkpointsKey := by
  obtain ⟨hfit, hreserved⟩ := contextProblems_nil.mp h
  exact Mapping.under_merge
    (fun e he => ne_checkpointsKey (hfit e he).1 (hreserved rfl e he)) entries

/-- The failure mark stands under a key of its own, and is data if the step is. -/
theorem failedContext_dict {operation : String} {f : Failure} {now : Timestamp}
    (he : base.context = .dict entries)
    (h : Engine.failedContext base operation f now = .ok context) :
    ∃ v, context = .dict (entries.set lastErrorKey v) ∧
      (base.currentStep.Encodes → v.Encodes) := by
  unfold Engine.failedContext at h
  rw [he] at h
  refine ⟨_, (Except.ok.inj h).symm, fun hstep => inherited_encodes.record (by simp) ?_⟩
  intro f hf
  fin_cases hf
  · exact Value.encodes_str _
  · exact Value.encodes_str _
  · exact Value.encodes_str _
  · exact hstep
  · exact Value.encodes_str _

theorem fillContext_dict {d : Definition} {missing : List String}
    (h : Engine.fillContext d (.dict entries) = .ok (context, missing)) :
    context = .dict (Engine.fillMissing d d.requiredKeys entries).1 :=
  (Prod.mk.inj (Except.ok.inj h)).1.symm

/-- Filling in required keys that are not reserved leaves the checkpoints alone. -/
theorem under_fillMissing (d : Definition) {ks : List String}
    (h : ∀ k ∈ ks, isReservedName k = false) (entries : Mapping) :
    Mapping.under (Engine.fillMissing d ks entries).1 checkpointsKey =
      entries.under checkpointsKey := by
  induction ks generalizing entries with
  | nil => rfl
  | cons k ks ih =>
      have hrest := fun k hk => h k (List.mem_cons_of_mem _ hk)
      unfold Engine.fillMissing
      split
      · exact ih hrest entries
      · refine (ih hrest _).trans ?_
        rw [Mapping.under_set]
        refine if_neg ?_
        rintro rfl
        exact nomatch h checkpointsKey List.mem_cons_self

theorem fillMissing_texts {d : Definition} {ks : List String} (h : entries.Texts) :
    Mapping.Texts (Engine.fillMissing d ks entries).1 := by
  induction ks generalizing entries with
  | nil => exact h
  | cons k ks ih =>
      unfold Engine.fillMissing
      split
      · exact ih h
      · exact ih (h.set k _)

/-- Filling in what has a JSON text keeps context data fit. -/
theorem fillMissing_fit {d : Definition} {ks : List String}
    (h : ∀ k ∈ ks, (d.defaultFor k).Encodes) (hfit : entries.Fit) :
    Mapping.Fit (Engine.fillMissing d ks entries).1 := by
  induction ks generalizing entries with
  | nil => exact hfit
  | cons k ks ih =>
      have hrest := fun k hk => h k (List.mem_cons_of_mem _ hk)
      unfold Engine.fillMissing
      split
      · exact ih hrest hfit
      · exact ih hrest (hfit.set k (h k List.mem_cons_self))

end Contexts

/-! ## All that may be written -/

open Engine in
/-- What an operation may write over a snapshot on which it decided at a moment. -/
inductive Change (g : Engine) (base : Execution) (m : Moment) :
    Operation → Execution → Prop where
  | advanced {t : Target} {action actor additional context : Value} {d : Definition}
      {step : StepDefinition} {a : ActionDefinition} {values : Mapping}
      {ref : Option EntityRef} :
      g.Open action base d step a → contextProblems false values = [] →
      StandsFor actor ref → base.context.updated values = .ok context →
      Change g base m (.perform t action actor additional)
        (advance d base step a ref context m.time)
  | marked {t : Target} {action actor additional context : Value} {operation : String}
      {f : Failure} :
      base.status = .active → failedContext base operation f m.time = .ok context →
      Change g base m (.perform t action actor additional)
        { base with status := .failed, context }
  | merged {t : Target} {given context : Value} {values : Mapping} :
      contextProblems false values = [] → base.context.updated values = .ok context →
      Change g base m (.mergeContext t given) { base with context }
  | paused {t : Target} : base.status = .active →
      Change g base m (.pause t) { base with status := .paused }
  | resumed {t : Target} : base.status = .paused →
      Change g base m (.resume t) { base with status := .active }
  | checkpointed {t : Target} {label : Value} {entries context : Mapping} {c : Checkpoint} :
      base.context = .dict entries → g.Stows base m m.before entries c context →
      Change g base m (.createCheckpoint t label) { base with context := .dict context }
  | restored {t : Target} {id : String} {force : Bool} {s : Serials}
      {c backup : Checkpoint} {context : Mapping} :
      (Checkpoint.find base id).runAt m.time m.before = (.ok c, s) →
      g.Stows base m s (c.capturedContext.getD []) backup context →
      Change g base m (.restore t id force)
        { base with
          currentStep := .str c.capturedStep
          status      := c.capturedStatus
          context     := .dict context
          history     := c.capturedHistory }
  | filled {t : Target} {d : Definition} {context : Value} {missing : List String} :
      g.definitionFor base = .ok (some d) →
      fillContext d base.context = .ok (context, missing) →
      (d.named? base.currentStep).isSome → Change g base m (.autoRepair t) { base with context }
  | reset {t : Target} {d : Definition} {context : Value} {missing : List String}
      {initial : String} :
      g.definitionFor base = .ok (some d) →
      fillContext d base.context = .ok (context, missing) →
      d.named? base.currentStep = none → d.initialStep? = some initial →
      Change g base m (.autoRepair t)
        (relocate base ((base.lastTransition?.map (·.toStep)).getD initial) initial
          resetAction (if base.status = .completed then .active else base.status) context
          m.time)
  | moved {t : Target} {word : String} {target : Value} {force : Bool}
      {d : Definition} {strategy : Strategy} {move : Move} {step : String}
      {entries context : Mapping} {c : Checkpoint} :
      Strategy.ofText? word = some strategy → strategy ≠ .manual →
      base.status ≠ .completed → g.definitionFor base = .ok (some d) →
      g.planMove d base strategy target force = .ok move → move.target = some step →
      base.context = .dict entries → g.Stows base m m.before entries c context →
      Change g base m (.recover t word target force)
        (relocate base c.capturedStep step s!"recovery:{move.strategy.text}" .active
          (.dict context) m.time)
  | prepared {t : Target} {word : String} {target : Value} {force : Bool}
      {entries context : Mapping} {c : Checkpoint} :
      Strategy.ofText? word = some .manual → base.context = .dict entries →
      g.Stows base m m.before entries c context →
      Change g base m (.recover t word target force) { base with context := .dict context }

/-! ## What the mutations decide -/

namespace Engine

theorem mergeMutation_decides {values : Mapping}
    (h : (mergeMutation values).Decides base m (some p) ()) :
    ∃ context, base.context.updated values = .ok context ∧ p = { base with context } := by
  obtain ⟨context, hcontext, h⟩ := Draft.runAt_ofExcept_bind_ok.mp h
  obtain ⟨h, _⟩ := Draft.runAt_pure_ok.mp h
  exact ⟨context, hcontext, (Option.some.inj (Prod.mk.inj h).1).symm⟩

theorem statusMutation_decides {expected target : Status} {errors : List String}
    (h : (statusMutation expected target).Decides base m (some p) errors) :
    base.status = expected ∧ p = { base with status := target } := by
  unfold Mutation.Decides statusMutation at h
  split at h
  · rename_i hs
    obtain ⟨h, _⟩ := Draft.runAt_pure_ok.mp h
    exact ⟨hs, (Option.some.inj (Prod.mk.inj h).1).symm⟩
  · obtain ⟨h, _⟩ := Draft.runAt_pure_ok.mp h
    exact nomatch (Prod.mk.inj h).1

theorem checkpointMutation_decides {label : Value} {id : String}
    (h : (g.checkpointMutation label).Decides base m o id) :
    ∃ c entries context, base.context = .dict entries ∧
      g.Stows base m m.before entries c context ∧ c.id = id ∧
      o = some { base with context := .dict context } := by
  obtain ⟨c, s, hc, h⟩ := Draft.runAt_bind_ok.mp h
  obtain ⟨entries, hentries, h⟩ := Draft.runAt_ofExcept_bind_ok.mp h
  obtain ⟨context, hcontext, h⟩ := Draft.runAt_ofExcept_bind_ok.mp h
  obtain ⟨h, hs⟩ := Draft.runAt_pure_ok.mp h
  obtain ⟨ho, hid⟩ := Prod.mk.inj h
  exact ⟨c, entries, context, Execution.entries_ok.mp hentries,
    ⟨Nat.le_refl _, ⟨label, hs ▸ hc⟩, hcontext⟩, hid, ho.symm⟩

/-- A restoration puts the state of a checkpoint in place, with a backup. -/
theorem restoreMutation_decides {id backupId : String} {force : Bool}
    (h : (g.restoreMutation id force).Decides base m o backupId) :
    ∃ c s backup context, (Checkpoint.find base id).runAt m.time m.before = (.ok c, s) ∧
      g.Stows base m s (c.capturedContext.getD []) backup context ∧ backup.id = backupId ∧
      o = some { base with
        currentStep := .str c.capturedStep
        status      := c.capturedStatus
        context     := .dict context
        history     := c.capturedHistory } := by
  unfold Mutation.Decides restoreMutation at h
  obtain ⟨c, s, hc, h⟩ := Draft.runAt_bind_ok.mp h
  obtain ⟨now, s₁, hnow, h⟩ := Draft.runAt_bind_ok.mp h
  obtain ⟨issues, s₂, hissues, h⟩ := Draft.runAt_ite_bind_ok.mp h
  have hs₁ : s = s₁ := (Prod.mk.inj hnow).2
  have hs₂ : s₁ = s₂ := by
    split at hissues
    · exact (Draft.runAt_pure_ok.mp hissues).2
    · rw [Draft.runAt_ofExcept] at hissues
      exact (Prod.mk.inj hissues).2
  dsimp only at h
  split at h
  · exact nomatch h
  · obtain ⟨backup, s₃, hbackup, h⟩ := Draft.runAt_bind_ok.mp h
    obtain ⟨context, hcontext, h⟩ := Draft.runAt_ofExcept_bind_ok.mp h
    obtain ⟨h, hs₃⟩ := Draft.runAt_pure_ok.mp h
    rw [← hs₂, ← hs₁, hs₃] at hbackup
    refine ⟨c, s, backup, context, hc, ⟨?_, ⟨_, hbackup⟩, hcontext⟩,
      (Prod.mk.inj h).2, (Prod.mk.inj h).1.symm⟩
    have hle := Checkpoint.find_counts base id m.time m.before
    rw [hc] at hle
    exact hle

theorem requireDefinition_ok {d : Definition} :
    g.requireDefinition base = .ok d ↔ g.definitionFor base = .ok (some d) := by
  constructor
  · intro h
    obtain ⟨od, hd, h⟩ := exceptBind_ok.mp h
    cases od with
    | none => exact nomatch h
    | some d' => rw [hd, Except.ok.inj h]
  · exact fun hd => exceptBind_ok.mpr ⟨some d, hd, rfl⟩

theorem systemRecord_ok {source target : Option String} {action : String}
    {now : Timestamp} {r : TransitionRecord}
    (h : systemRecord source target action now = .ok r) :
    ∃ a b, source = some a ∧ target = some b ∧
      r = ⟨a, b, action, some .systemRecovery, now⟩ := by
  cases source with
  | none => cases target with
    | none => exact nomatch h
    | some b => exact nomatch h
  | some a => cases target with
    | none => exact nomatch h
    | some b => exact ⟨a, b, rfl, rfl, (Except.ok.inj h).symm⟩

/-- A reset of the step leads to the initial one. -/
theorem resetStep_ok {d : Definition} {now : Timestamp} {s s' : Serials} {resets : List String}
    (h : (resetStep d base).runAt now s = (.ok (p, resets), s')) :
    ∃ initial, d.initialStep? = some initial ∧
      p = relocate base ((base.lastTransition?.map (·.toStep)).getD initial) initial
        resetAction (if base.status = .completed then .active else base.status)
        base.context now := by
  obtain ⟨t, s₁, ht, h⟩ := Draft.runAt_bind_ok.mp h
  obtain ⟨r, hr, h⟩ := Draft.runAt_ofExcept_bind_ok.mp h
  obtain ⟨h, _⟩ := Draft.runAt_pure_ok.mp h
  obtain ⟨source, initial, hsource, hinitial, rfl⟩ := systemRecord_ok hr
  refine ⟨initial, hinitial, ?_⟩
  have ht : now = t := Except.ok.inj (Prod.mk.inj ht).1
  rw [← (Prod.mk.inj h).1, ht]
  unfold relocate
  cases hl : base.lastTransition? with
  | none =>
      rw [hl, hinitial] at hsource
      simp [Option.some.inj hsource]
  | some r =>
      rw [hl] at hsource
      simp [Option.some.inj hsource]

theorem resetStep_reports {d : Definition} {now : Timestamp} {s s' : Serials}
    {resets : List String} (h : (resetStep d base).runAt now s = (.ok (p, resets), s')) :
    resets ≠ [] := by
  obtain ⟨_, _, _, h⟩ := Draft.runAt_bind_ok.mp h
  obtain ⟨_, _, h⟩ := Draft.runAt_ofExcept_bind_ok.mp h
  rw [← (Prod.mk.inj (Draft.runAt_pure_ok.mp h).1).2]
  exact List.cons_ne_nil _ _

/-- A repair fills in what is missing, and resets the step that is not known.  With nothing
    missing and a known step it proposes nothing. -/
theorem repairMutation_decides {repairs : List String}
    (h : g.repairMutation.Decides base m o repairs) :
    ∃ d context missing, g.definitionFor base = .ok (some d) ∧
      fillContext d base.context = .ok (context, missing) ∧
      ((d.named? base.currentStep).isSome ∧
          (o = some { base with context } ∨ o = none ∧ missing = [] ∧ repairs = []) ∨
        d.named? base.currentStep = none ∧ ∃ initial, d.initialStep? = some initial ∧
          o = some (relocate base ((base.lastTransition?.map (·.toStep)).getD initial) initial
            resetAction (if base.status = .completed then .active else base.status)
            context m.time)) := by
  unfold Mutation.Decides repairMutation at h
  obtain ⟨d, hd, h⟩ := Draft.runAt_ofExcept_bind_ok.mp h
  obtain ⟨⟨context, missing⟩, hfill, h⟩ := Draft.runAt_ofExcept_bind_ok.mp h
  obtain ⟨⟨repaired, resets⟩, s, hrepaired, h⟩ := Draft.runAt_ite_bind_ok.mp h
  refine ⟨d, context, missing, requireDefinition_ok.mp hd, hfill, ?_⟩
  have ho : o = some { repaired with context } ∨
      o = none ∧ missing = [] ∧ resets = [] ∧ repairs = [] := by
    dsimp only at h
    split at h
    · rename_i hempty
      obtain ⟨ho, hrepairs⟩ := Prod.mk.inj (Draft.runAt_pure_ok.mp h).1
      obtain ⟨hmissing, hresets⟩ : missing = [] ∧ resets = [] := by
        simpa using hempty
      exact .inr ⟨ho.symm, hmissing, hresets, hrepairs.symm⟩
    · exact .inl (Prod.mk.inj (Draft.runAt_pure_ok.mp h).1).1.symm
  split at hrepaired
  · rename_i hstep
    obtain ⟨hr, _⟩ := Draft.runAt_pure_ok.mp hrepaired
    obtain ⟨rfl, _⟩ := Prod.mk.inj hr
    refine .inl ⟨hstep, ho.imp_right ?_⟩
    exact fun ⟨hnone, hmissing, _, hrepairs⟩ => ⟨hnone, hmissing, hrepairs⟩
  · rename_i hstep
    obtain ⟨initial, hinitial, hr⟩ := resetStep_ok hrepaired
    refine .inr ⟨Option.not_isSome_iff_eq_none.mp hstep, initial, hinitial, ?_⟩
    rcases ho with ho | ⟨_, _, hresets, _⟩
    · rw [ho, hr]
      rfl
    · -- a step that is reset is reported
      rw [hresets] at hrepaired
      exact absurd rfl (resetStep_reports hrepaired)

/-- Nothing blocks the recovery only of what is not completed. -/
theorem staticBlockers_nil (h : g.staticBlockers base = .ok []) : base.status ≠ .completed := by
  intro hcompleted
  obtain ⟨_, _, h⟩ := exceptBind_ok.mp h
  rw [if_pos hcompleted] at h
  exact nomatch Except.ok.inj h

/-- A move is made where nothing blocks it; it takes a checkpoint and goes to the step
    that is planned. -/
theorem moveMutation_decides {strategy : Strategy} {target : Value} {force : Bool}
    {moved : Option Moved}
    (h : (g.moveMutation strategy target force).Decides base m o moved) :
    ∃ d move step entries context c, g.staticBlockers base = .ok [] ∧
      g.definitionFor base = .ok (some d) ∧
      g.planMove d base strategy target force = .ok move ∧ move.target = some step ∧
      base.context = .dict entries ∧ g.Stows base m m.before entries c context ∧
      moved = some ⟨move, step, c.id,
        if move.strategy = .retryLast then base.retryCandidate? else none⟩ ∧
      o = some (relocate base c.capturedStep step s!"recovery:{move.strategy.text}" .active
        (.dict context) m.time) := by
  unfold Mutation.Decides moveMutation at h
  obtain ⟨blockers, hblockers, h⟩ := Draft.runAt_ofExcept_bind_ok.mp h
  dsimp only at h
  split at h
  · exact nomatch h
  · rename_i hnone
    obtain rfl : blockers = [] := by simpa using hnone
    obtain ⟨d, hd, h⟩ := Draft.runAt_ofExcept_bind_ok.mp h
    obtain ⟨move, hmove, h⟩ := Draft.runAt_ofExcept_bind_ok.mp h
    obtain ⟨c, s, hc, h⟩ := Draft.runAt_bind_ok.mp h
    obtain ⟨t, s₁, ht, h⟩ := Draft.runAt_bind_ok.mp h
    obtain ⟨r, hr, h⟩ := Draft.runAt_ofExcept_bind_ok.mp h
    obtain ⟨entries, hentries, h⟩ := Draft.runAt_ofExcept_bind_ok.mp h
    obtain ⟨context, hcontext, h⟩ := Draft.runAt_ofExcept_bind_ok.mp h
    obtain ⟨h, hs⟩ := Draft.runAt_pure_ok.mp h
    obtain ⟨source, step, hsource, hstep, rfl⟩ := systemRecord_ok hr
    obtain ⟨ht, hs₁⟩ := Prod.mk.inj ht
    rw [hs₁, hs] at hc
    refine ⟨d, move, step, entries, context, c, hblockers,
      requireDefinition_ok.mp hd, hmove, hstep, Execution.entries_ok.mp hentries,
      ⟨Nat.le_refl _, ⟨_, hc⟩, hcontext⟩, (Prod.mk.inj h).2.symm, ?_⟩
    rw [← (Prod.mk.inj h).1, Option.some.inj hsource, Except.ok.inj ht]
    rfl

/-! ## Changes by mutations -/

section Changes

variable {t : Target}

/-- What an action proposes with valid data is a change by that action. -/
theorem performMutation_changes {action actor additional : Value} {values : Mapping}
    {ref : Option EntityRef} {r : Option (List String × Rejection)}
    (hvalues : contextProblems false values = []) (href : StandsFor actor ref)
    (h : (g.performMutation action ref values).Decides base m (some p) r) :
    Change g base m (.perform t action actor additional) p := by
  rcases performMutation_decides h with ⟨d, step, a, context, hopen, hcontext, hp, _, _⟩ | ⟨hp, _⟩
  · rw [Option.some.inj hp]
    exact .advanced hopen hvalues href hcontext
  · exact nomatch hp

theorem mergeMutation_changes {given : Value} {values : Mapping}
    (hvalues : contextProblems false values = [])
    (h : (mergeMutation values).Decides base m (some p) ()) :
    Change g base m (.mergeContext t given) p := by
  obtain ⟨context, hcontext, rfl⟩ := mergeMutation_decides h
  exact .merged hvalues hcontext

theorem repairMutation_changes {repairs : List String}
    (h : g.repairMutation.Decides base m (some p) repairs) :
    Change g base m (.autoRepair t) p := by
  obtain ⟨d, context, missing, hdef, hfill, ⟨hstep, ho⟩ | ⟨hstep, initial, hinitial, ho⟩⟩ :=
    repairMutation_decides h
  · rcases ho with ho | ⟨hnone, _⟩
    · rw [Option.some.inj ho]
      exact .filled hdef hfill hstep
    · exact nomatch hnone
  · rw [Option.some.inj ho]
    exact .reset hdef hfill hstep hinitial

/-- What a move proposes is a change by the recovery whose strategy it follows. -/
theorem moveMutation_changes {word : String} {strategy : Strategy} {target : Value} {force : Bool}
    {moved : Option Moved} (hword : Strategy.ofText? word = some strategy)
    (hmanual : strategy ≠ .manual)
    (h : (g.moveMutation strategy target force).Decides base m (some p) moved) :
    Change g base m (.recover t word target force) p := by
  obtain ⟨d, move, step, entries, context, c, hblockers, hdef, hmove, hstep, he, hstows, _, hp⟩ :=
    moveMutation_decides h
  rw [Option.some.inj hp]
  exact .moved hword hmanual (staticBlockers_nil hblockers) hdef hmove hstep he hstows

end Changes

/-! ## Ids that the mutations draw -/

theorem performMutation_counts (g : Engine) (action : Value) (actor : Option EntityRef)
    (additional : Mapping) (base : Execution) :
    (g.performMutation action actor additional base).Counts := by
  refine .bind (.ofExcept _) fun od => ?_
  cases od with
  | none => exact .pure _
  | some d =>
      refine .ite (.pure _) (.bind (.ofExcept _) fun step => ?_)
      refine .bind (.ofExcept _) fun a => .bind (.ofExcept _) fun context => ?_
      exact .bind .now fun now => .pure _

theorem mergeMutation_counts (values : Mapping) (base : Execution) :
    (mergeMutation values base).Counts :=
  .bind (.ofExcept _) fun _ => .pure _

theorem statusMutation_counts (expected target : Status) (base : Execution) :
    (statusMutation expected target base).Counts :=
  .ite (.pure _) (.pure _)

theorem checkpointMutation_counts (g : Engine) (label : Value) (base : Execution) :
    (g.checkpointMutation label base).Counts := by
  refine .bind (Checkpoint.capture_counts base label) fun c => ?_
  exact .bind (.ofExcept _) fun entries => .bind (.ofExcept _) fun context => .pure _

theorem restoreMutation_counts (g : Engine) (id : String) (force : Bool) (base : Execution) :
    (g.restoreMutation id force base).Counts := by
  refine .bind (Checkpoint.find_counts base id) fun c => .bind .now fun now => ?_
  refine .ite_bind (.pure _) (.ofExcept _) fun issues => .ite (.bind (.fail _) fun _ => ?_) ?_
  all_goals
    refine .bind (Checkpoint.capture_counts base _) fun backup => ?_
    exact .bind (.ofExcept _) fun context => .pure _

theorem repairMutation_counts (g : Engine) (base : Execution) :
    (g.repairMutation base).Counts := by
  refine .bind (.ofExcept _) fun d => .bind (.ofExcept _) fun filled => ?_
  refine .ite_bind (.pure _) ?_ fun repaired => .ite (.pure _) (.pure _)
  exact .bind .now fun now => .bind (.ofExcept _) fun r => .pure _

theorem moveMutation_counts (g : Engine) (strategy : Strategy) (target : Value)
    (force : Bool) (base : Execution) : (g.moveMutation strategy target force base).Counts := by
  refine .bind (.ofExcept _) fun blockers => .ite (.bind (.fail _) fun _ => ?_) ?_
  all_goals
    refine .bind (.ofExcept _) fun d => .bind (.ofExcept _) fun move => ?_
    refine .bind (Checkpoint.capture_counts base _) fun c => .bind .now fun now => ?_
    refine .bind (.ofExcept _) fun r => .bind (.ofExcept _) fun entries => ?_
    exact .bind (.ofExcept _) fun context => .pure _

end Engine

end Workflow
