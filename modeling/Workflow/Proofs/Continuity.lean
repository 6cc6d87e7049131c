import Mathlib.Data.List.Chain
import Workflow.Proofs.Settle
import Workflow.Proofs.Sound

/-! # Continuity — operations go on from where an execution stands

    An operation leaves an execution at its step, or adds one record that leads from
    that step to another.  The report on an execution looks for gaps between records, and
    for a step that is not declared, but not at whether the history ends at the step where
    the execution stands.  Where it does not, the next record opens a gap; where it does,
    the execution stands at the end of its history again, and without a gap.

    The heart is `Change.goesOn`, case by case over all that an operation may write;
    `operations_go_on` says it of every operation that goes through, and `histories_whole`
    of any number of clients at such operations. -/

namespace Workflow

open Client Engine

variable {g : Engine} {op : Operation} {d : Definition} {base p e : Execution} {m : Moment}
  {now : Timestamp}

/-! ## Where a history ends -/

namespace Execution

/-- The steps that the records of the execution lead from and to. -/
def legs (e : Execution) : List (String × String) :=
  e.history.map fun r => (r.fromStep, r.toStep)

/-- Does the execution stand where its history ends, or without one where its workflow
    begins? -/
def AtEnd (d : Definition) (e : Execution) : Prop :=
  e.currentStep.toText? = (e.lastTransition?.map (·.toStep)).or d.initialStep?

/-- Histories that tell the same transitions have the same legs. -/
theorem legs_of_sameMoves (h : SameMoves base.history e.history) : e.legs = base.legs := by
  unfold legs
  generalize base.history = rs, e.history = rs' at h
  induction h with
  | nil => rfl
  | cons hr _ ih =>
      obtain ⟨hsource, htarget, _⟩ := hr
      rw [List.map_cons, List.map_cons, ih, hsource, htarget]

theorem atEnd_iff : e.AtEnd d ↔
    e.currentStep.toText? = (e.legs.getLast?.map Prod.snd).or d.initialStep? := by
  unfold AtEnd legs lastTransition?
  rw [List.getLast?_map, Option.map_map]
  rfl

end Execution

namespace Engine

theorem historyGaps_nil_iff {rs : List TransitionRecord} :
    historyGaps rs = [] ↔ rs.IsChain fun r s => r.toStep = s.fromStep := by
  induction rs with
  | nil => exact iff_of_true rfl .nil
  | cons r rs ih =>
      cases rs with
      | nil => exact iff_of_true rfl (.singleton r)
      | cons s rs =>
          rw [historyGaps, List.isChain_cons_cons, ← ih]
          by_cases hrs : r.toStep = s.fromStep
          · rw [if_pos hrs]
            exact (and_iff_right hrs).symm
          · rw [if_neg hrs]
            exact iff_of_false (List.cons_ne_nil _ _) fun h => hrs h.1

/-- Nothing is wrong with a history that begins where its workflow does, and in which each
    leg begins where the one before it ends. -/
theorem historyIssues_nil_iff : historyIssues (some d) e = [] ↔
    (∀ l, e.legs.head? = some l → d.initialStep? = some l.1) ∧
      e.legs.IsChain fun l l' => l.2 = l'.1 := by
  unfold historyIssues Execution.legs
  rw [List.append_eq_nil_iff, historyGaps_nil_iff, List.isChain_map, List.head?_map]
  refine and_congr_left fun _ => ?_
  cases e.history.head? with
  | none => exact iff_of_true rfl fun l hl => nomatch hl
  | some r =>
      constructor
      · intro h l hl
        rw [← Option.some.inj hl]
        by_contra hne
        exact absurd ((if_neg hne).symm.trans h) (List.cons_ne_nil _ _)
      · intro h
        exact if_pos (h _ rfl)

theorem stepIssues_nil_iff : stepIssues (some d) e = [] ↔ (d.named? e.currentStep).isSome := by
  unfold stepIssues
  dsimp only
  split
  · rename_i hnamed
    exact iff_of_true rfl hnamed
  · rename_i hnamed
    exact iff_of_false (List.cons_ne_nil _ _) hnamed

/-- An execution of which nothing is wrong is of a registered workflow, and has neither
    gaps nor an unknown step. -/
theorem whole_of_integrityIssues (h : g.integrityIssues e = .ok []) :
    ∃ d, g.definitionFor e = .ok (some d) ∧ historyIssues (some d) e = [] ∧
      stepIssues (some d) e = [] := by
  obtain ⟨o, ho, h⟩ := exceptBind_ok.mp h
  obtain ⟨h, _⟩ := List.append_eq_nil_iff.mp (Except.ok.inj h)
  obtain ⟨h, hstep⟩ := List.append_eq_nil_iff.mp h
  obtain ⟨_, hhistory⟩ := List.append_eq_nil_iff.mp h
  cases o with
  | none => exact absurd hstep (List.cons_ne_nil _ _)
  | some d => exact ⟨d, ho, hhistory, hstep⟩

end Engine

/-! ## How an operation goes on -/

namespace Operation

/-- Is the operation a recovery that may go by force to the step, from which the last
    action of a caller was performed? -/
def Forces (base : Execution) (step : String) : Operation → Prop
  | .recover _ _ _ force => force = true ∧
      ∃ r, base.retryCandidate? = some r ∧ r.fromStep = step
  | _                    => False

/-- How an operation on an execution has led to another one: it has left it where it was,
    or has added one leg, from there to a step that is declared, or that it was forced
    to. -/
inductive Leads (op : Operation) (d : Definition) (base e : Execution) : Prop where
  | stays : e.currentStep.toText? = base.currentStep.toText? → e.legs = base.legs →
      Leads op d base e
  | moves (source target : String) : base.currentStep.toText? = some source →
      e.currentStep.toText? = some target → e.legs = base.legs ++ [(source, target)] →
      (d.hasStep target = true ∨ op.Forces base target) → Leads op d base e

namespace Leads

/-- Where a history was whole, it is so still, unless a leg was added that does not begin
    where it ended. -/
theorem historyIssues_iff (h : op.Leads d base e) (hbase : historyIssues (some d) base = []) :
    historyIssues (some d) e = [] ↔ e.legs = base.legs ∨ base.AtEnd d := by
  obtain ⟨hhead, hchain⟩ := historyIssues_nil_iff.mp hbase
  rw [historyIssues_nil_iff, Execution.atEnd_iff]
  cases h with
  | stays _ hlegs =>
      rw [hlegs]
      exact iff_of_true ⟨hhead, hchain⟩ (.inl rfl)
  | moves source target hsource _ hlegs _ =>
      have hne : e.legs ≠ base.legs := by
        rw [hlegs]
        simp
      rw [or_iff_right hne, hlegs, hsource, List.isChain_append]
      cases hold : base.legs with
      | nil =>
          -- the leg is the first one
          constructor
          · intro h
            exact (h.1 _ rfl).symm
          · intro h
            refine ⟨fun l hl => ?_, .nil, .singleton _, fun x hx => nomatch hx⟩
            rw [← Option.some.inj hl]
            exact h.symm
      | cons first rest =>
          rw [hold] at hhead hchain
          obtain ⟨last, hlast⟩ : ∃ last, (first :: rest).getLast? = some last :=
            ⟨_, List.getLast?_cons⟩
          rw [hlast]
          constructor
          · intro h
            exact congrArg some (h.2.2.2 last rfl _ rfl).symm
          · intro h
            refine ⟨hhead, hchain, .singleton _, fun x hx y hy => ?_⟩
            rw [← Option.some.inj hx, ← Option.some.inj hy]
            exact (Option.some.inj h).symm

/-- Where an execution stood at the end of its history, it does so still. -/
theorem atEnd (h : op.Leads d base e) (hbase : base.AtEnd d) : e.AtEnd d := by
  rw [Execution.atEnd_iff] at hbase ⊢
  cases h with
  | stays hstep hlegs => rw [hstep, hlegs, hbase]
  | moves source target _ htarget hlegs _ =>
      rw [htarget, hlegs, List.getLast?_concat]
      rfl

/-- A step that was declared is left only for another one, or by force. -/
theorem stepIssues (h : op.Leads d base e) (hbase : stepIssues (some d) base = []) :
    stepIssues (some d) e = [] ∨
      ∃ step, op.Forces base step ∧ e.currentStep.toText? = some step := by
  rw [stepIssues_nil_iff] at hbase ⊢
  unfold Definition.named? at hbase ⊢
  cases h with
  | stays hstep _ =>
      rw [hstep]
      exact .inl hbase
  | moves source target _ htarget _ hlands =>
      rcases hlands with hdeclared | hforced
      · rw [htarget]
        exact .inl hdeclared
      · exact .inr ⟨target, hforced, htarget⟩

/-- The execution stands at a text, if it was at a declared step. -/
theorem atText (h : op.Leads d base e) (hbase : (d.named? base.currentStep).isSome) :
    ∃ step, e.currentStep.toText? = some step := by
  cases h with
  | stays hstep _ =>
      obtain ⟨step, hnamed⟩ := Option.isSome_iff_exists.mp hbase
      exact ⟨step.name, hstep.trans (named?_iff.mp hnamed).1⟩
  | moves source target _ htarget _ _ => exact ⟨target, htarget⟩

/-- It does not matter in which form the execution is shown. -/
theorem of_same (h : op.Leads d base p) (hstep : e.currentStep.toText? = p.currentStep.toText?)
    (hlegs : e.legs = p.legs) : op.Leads d base e := by
  cases h with
  | stays hstep' hlegs' => exact .stays (hstep.trans hstep') (hlegs.trans hlegs')
  | moves source target hsource htarget hlegs' hlands =>
      exact .moves source target hsource (hstep.trans htarget) (hlegs.trans hlegs') hlands

end Leads

end Operation

/-- What is read of a text is that text. -/
theorem Lax.text_of_toText? {v : Value} {path s t : String} (h : Lax.text path v = .ok s)
    (ht : v.toText? = some t) : s = t := by
  have htext : v.isText = true := by
    unfold Value.isText
    rw [ht]
    rfl
  unfold Lax.text at h
  rw [Lax.textOf?_of_isText htext, ht] at h
  exact (Checked.ok.inj h).symm

/-- Every change but a restoration goes on from where the execution stands, if that is a
    step of its workflow. -/
theorem Change.goesOn (h : Change g base m op p) (hop : ¬op.IsRestore)
    (hdef : g.definitionFor base = .ok (some d)) (hissues : d.issues = [])
    (hnamed : (d.named? base.currentStep).isSome) :
    p.workflowName = base.workflowName ∧ op.Leads d base p := by
  have hsame {d' : Definition} (h : g.definitionFor base = .ok (some d')) : d' = d :=
    Option.some.inj (Except.ok.inj (h.symm.trans hdef))
  cases h with
  | @advanced t action actor additional context d' step a values ref hopen _ _ _ =>
      obtain rfl := hsame hopen.definitionFor
      obtain ⟨hcurrent, hstep⟩ := hopen.current
      have hdeclared := Definition.targets_of_issues hissues step
        (Definition.findStep?_some hstep).2 a (List.mem_of_find?_eq_some hopen.named.2)
      refine ⟨rfl, .moves step.name a.target hcurrent rfl ?_ (.inl hdeclared)⟩
      exact List.map_append
  | restored _ _ => exact absurd trivial hop
  | @reset t d' context missing initial hdef' _ hunknown _ =>
      -- a step that is declared is not reset
      obtain rfl := hsame hdef'
      rw [hunknown] at hnamed
      exact absurd hnamed Bool.false_ne_true
  | @moved t word target force d' strategy move dest entries context c _ _ _ hdef' hplan hdest
      he hc =>
      obtain rfl := hsame hdef'
      -- the record begins at the step that is captured, which is the present one
      obtain ⟨step, hstep⟩ := Option.isSome_iff_exists.mp hnamed
      obtain ⟨hcurrent, _⟩ := named?_iff.mp hstep
      obtain ⟨label, hcapture⟩ := hc.taken
      obtain ⟨_, captured, _, _, hcaptured, _, rfl, _⟩ := Checkpoint.capture_ok he hcapture
      obtain rfl := Lax.text_of_toText? hcaptured hcurrent
      refine ⟨rfl, .moves step.name dest hcurrent rfl List.map_append ?_⟩
      refine (planMove_lands hdef hplan hdest).imp_right ?_
      rintro ⟨hforce, _, r, hr, hsource⟩
      exact ⟨hforce, r, hr, hsource⟩
  | _ => exact ⟨rfl, .stays rfl rfl⟩

/-! ## Operations that go through -/

namespace Operation

variable {c : Climate} {w w' : World} {t : Target} {α : Type} {fn : Mutation α} {a : α}

/-- The target of an operation that works on one, and the execution that its result tells
    of, if it has gone through. -/
def outcome? : (op : Operation) → op.Result → Option (Target × Execution)
  | .perform t _ _ _, r    => if r.success then r.execution.map (t, ·) else none
  | .mergeContext t _, e   => some (t, e)
  | .pause t, r            => if r.success then r.execution.map (t, ·) else none
  | .resume t, r           => if r.success then r.execution.map (t, ·) else none
  | .autoRepair t, r       => some (t, r.execution)
  | .recover t _ _ _, r    => some (t, r.execution)
  | _, _                   => none

/-- What has become of a stored snapshot between two worlds: it was left alone, or a change
    of it was saved in its place. -/
inductive Turns (g : Engine) (op : Operation) (base : Execution) (w w' : World) :
    Execution → Prop where
  | left : w'.store = w.store → Turns g op base w w' base
  | changed {m : Moment} {p e : Execution} : Change g base m op p →
      w.store.save w.now p base.version = .ok (e, w'.store) → Turns g op base w w' e

/-- Where saves at worst fail, a mutation turns what is stored. -/
theorem turns_of_mutate (hc : c.Spares) (hallows : c.Allows w) {id : Value}
    (hfind : w.store.find? w.now id = .ok (some base)) {operation : String}
    {failOnError : Bool}
    (hchange : ∀ m p a, fn.Decides base m (some p) a → Change g base m op p)
    (h : (g.mutate id fn operation failOnError).run w = (.ok (e, a), w')) :
    op.Turns g base w w' e := by
  obtain ⟨base', m, o, hfind', hdecides, hends⟩ := settles_spared hc hallows h
  obtain rfl : base = base' := Option.some.inj (Except.ok.inj (hfind.symm.trans hfind'))
  rcases hends with ⟨_, rfl, hstore⟩ | ⟨p, rfl, hsave⟩
  · exact .left hstore
  · exact .changed (hchange m p a hdecides) hsave

/-- An action that succeeds is one mutation, with valid data. -/
theorem run_perform_inv {action actor additional : Value} {r : ActionResult}
    (h : (g.perform t action actor additional).run w = (.ok r, w')) (hr : r.success = true) :
    ∃ values ref e, contextProblems false values = [] ∧ StandsFor actor ref ∧ r = .done e ∧
      (g.mutate t.executionId (g.performMutation action ref values)
        s!"action {action.display}" true).run w = (.ok (e, none), w') := by
  obtain ⟨values, _, hloose, hrest⟩ := run_bind_inv h
  dsimp only at hrest
  split at hrest
  · obtain ⟨hrejected, _⟩ := Prod.mk.inj hrest
    rw [← Except.ok.inj hrejected] at hr
    exact absurd hr Bool.false_ne_true
  · rename_i hproblems
    have hproblems : contextProblems false values = [] := by simpa using hproblems
    have hvalues := (run_ofExcept_inv hloose).1
    by_cases hactor : ∃ ref, StandsFor actor ref
    · obtain ⟨ref, href⟩ := hactor
      rw [g.perform_eq t action href hvalues hproblems] at h
      obtain ⟨⟨e, rejection⟩, w₂, hmutate, htold⟩ := run_bind_inv h
      cases rejection with
      | some x =>
          obtain ⟨hrejected, _⟩ := Prod.mk.inj htold
          rw [← Except.ok.inj hrejected] at hr
          exact absurd hr Bool.false_ne_true
      | none =>
          obtain ⟨hdone, rfl⟩ := Prod.mk.inj htold
          exact ⟨values, ref, e, hproblems, href, (Except.ok.inj hdone).symm, hmutate⟩
    · obtain ⟨f, hfails⟩ := g.perform_fails t action (not_exists.mp hactor) hvalues hproblems
      rw [hfails] at h
      exact nomatch (Prod.mk.inj h).1

/-- A merge is one mutation, with valid data. -/
theorem run_mergeContext_inv {given : Value}
    (h : (g.mergeContext t given).run w = (.ok e, w')) :
    ∃ values, contextProblems false values = [] ∧
      (g.mutate t.executionId (mergeMutation values) "context merge").run w =
        (.ok (e, ()), w') := by
  unfold Engine.mergeContext at h
  dsimp only at h
  split at h
  · exact nomatch (Prod.mk.inj h).1
  · rename_i hproblems
    have hproblems : valueProblems false given = [] := by simpa using hproblems
    obtain ⟨m, rfl, hm⟩ := valueProblems_nil.mp hproblems
    rw [looseMapping_of_valid (contextProblems_nil.mp hm).1] at h
    obtain ⟨⟨e', _⟩, w₁, hmutate, hdone⟩ := run_bind_inv (show
      (g.mutate t.executionId (mergeMutation m) "context merge" >>= fun x => pure x.1).run w =
        (.ok e, w') from h)
    obtain ⟨he, rfl⟩ := Prod.mk.inj hdone
    obtain rfl := Except.ok.inj he
    exact ⟨m, hm, hmutate⟩

/-- A move of the status that succeeds is one mutation. -/
theorem run_setStatus_inv {expected target : Status} {r : ActionResult}
    (h : (g.setStatus t expected target).run w = (.ok r, w')) (hr : r.success = true) :
    ∃ e errors, r = .done e ∧ (g.mutate t.executionId (statusMutation expected target)
      s!"status change to {target.text}").run w = (.ok (e, errors), w') := by
  obtain ⟨⟨e, errors⟩, w₁, hmutate, h⟩ := run_bind_inv h
  dsimp only at h
  split at h
  · obtain ⟨hdone, rfl⟩ := Prod.mk.inj h
    exact ⟨e, errors, (Except.ok.inj hdone).symm, hmutate⟩
  · obtain ⟨hrejected, _⟩ := Prod.mk.inj h
    rw [← Except.ok.inj hrejected] at hr
    exact absurd hr Bool.false_ne_true

/-- A recovery that is prepared by hand stores a checkpoint, and then reads what is stored. -/
theorem run_prepareManual_inv {target : Value} {r : RecoveryResult}
    (h : (g.prepareManual base target).run w = (.ok r, w')) :
    ∃ label e id, (g.mutate base.idValue (g.checkpointMutation label) "checkpoint").run w =
        (.ok (e, id), w') ∧
      w'.store.find? w'.now (.str base.id) = .ok (some r.execution) := by
  obtain ⟨id, w₁, hcreate, h⟩ := run_bind_inv h
  obtain ⟨time, w₂, hclock, hcreate⟩ := run_bind_inv hcreate
  obtain ⟨_, hw₂⟩ := Prod.mk.inj (show (Except.ok w.now, w) = (.ok time, w₂) from hclock)
  rw [← hw₂] at hcreate
  obtain ⟨⟨e, id'⟩, w₃, hmutate, hid⟩ := run_bind_inv hcreate
  obtain ⟨_, hw₃⟩ := Prod.mk.inj hid
  obtain ⟨saved, w₄, hread, h⟩ := run_bind_inv h
  obtain ⟨hsaved, hw₄⟩ := run_refresh_inv hread
  obtain ⟨plan, w₅, hplan, h⟩ := run_bind_inv h
  obtain ⟨step, w₆, hstep, h⟩ := run_bind_inv h
  obtain ⟨hr, hw'⟩ := Prod.mk.inj h
  have hw : w' = w₁ := by
    rw [← hw', (run_ofExcept_inv hstep).2, (run_ofExcept_inv hplan).2, hw₄]
  rw [hw, ← Except.ok.inj hr]
  exact ⟨_, e, id', hw₃ ▸ hmutate, hsaved⟩

/-- A recovery that comes to a result is one mutation: its move or, where it is prepared by
    hand, a checkpoint, after which what is stored is read once more. -/
theorem run_recovery_inv {word : String} {target : Value} {force : Bool} {r : RecoveryResult}
    (hfind : w.store.find? w.now t.executionId = .ok (some base))
    (h : (g.recover t word target force).run w = (.ok r, w')) :
    ∃ strategy, Strategy.ofText? word = some strategy ∧
      (strategy ≠ .manual ∧ (∃ operation moved,
          (g.mutate (.str base.id) (g.moveMutation strategy target force) operation).run w =
            (.ok (r.execution, moved), w')) ∨
        strategy = .manual ∧ ∃ label e id,
          (g.mutate base.idValue (g.checkpointMutation label) "checkpoint").run w =
            (.ok (e, id), w') ∧
          w'.store.find? w'.now (.str base.id) = .ok (some r.execution)) := by
  obtain ⟨current, w₁, hread, h⟩ := run_bind_inv h
  obtain ⟨hfind', hw₁⟩ := run_refresh_inv hread
  obtain rfl : base = current := Option.some.inj (Except.ok.inj (hfind.symm.trans hfind'))
  rw [hw₁] at h
  split at h
  · exact nomatch (Prod.mk.inj h).1
  · rename_i strategy hstrategy
    refine ⟨strategy, hstrategy, ?_⟩
    obtain ⟨blockers, w₂, hblockers, h⟩ := run_bind_inv h
    rw [(run_ofExcept_inv hblockers).2] at h
    split at h
    · exact nomatch (Prod.mk.inj h).1
    · split at h
      · rename_i hmanual
        obtain ⟨label, e, id, hmutate, hsaved⟩ := run_prepareManual_inv h
        exact .inr ⟨hmanual, label, e, id, hmutate, hsaved⟩
      · rename_i hmanual
        obtain ⟨⟨saved, moved⟩, w₃, hmutate, h⟩ := run_bind_inv h
        refine .inl ⟨hmanual, s!"recovery {strategy.text}", moved, ?_⟩
        cases moved with
        | none =>
            obtain ⟨hr, rfl⟩ := Prod.mk.inj h
            rw [← Except.ok.inj hr]
            exact hmutate
        | some x =>
            obtain ⟨names, w₄, hnames, h⟩ := run_bind_inv h
            obtain ⟨hr, rfl⟩ := Prod.mk.inj h
            rw [(run_ofExcept_inv hnames).2, ← Except.ok.inj hr]
            exact hmutate

/-- What an operation that has gone through tells of is what the stored snapshot has turned
    into, or what is read of that. -/
theorem turns_of_outcome {r : op.Result} (hc : c.Spares) (hallows : c.Allows w)
    (hkeyed : w.store.Keyed) (hfind : w.store.find? w.now t.executionId = .ok (some base))
    (hrun : (op.client g).run w = (.ok r, w')) (hout : op.outcome? r = some (t, e)) :
    ∃ e₀, op.Turns g base w w' e₀ ∧ (e = e₀ ∨ ∃ v, w.store.find? w.now v = .ok (some base) ∧
      w'.store.find? w.now v = .ok (some e)) := by
  cases op with
  | perform target action actor additional =>
      obtain ⟨hsuccess, hout⟩ : r.success = true ∧ r.execution.map (target, ·) = some (t, e) := by
        simpa [outcome?] using hout
      obtain ⟨values, ref, saved, hproblems, href, rfl, hmutate⟩ := run_perform_inv hrun hsuccess
      obtain ⟨rfl, rfl⟩ := Prod.mk.inj (Option.some.inj hout)
      exact ⟨saved, turns_of_mutate hc hallows hfind
        (fun m p _ hd => performMutation_changes hproblems href hd) hmutate, .inl rfl⟩
  | mergeContext target given =>
      obtain ⟨rfl, rfl⟩ := Prod.mk.inj (Option.some.inj hout)
      obtain ⟨values, hproblems, hmutate⟩ := run_mergeContext_inv hrun
      exact ⟨r, turns_of_mutate hc hallows hfind
        (fun m p _ hd => mergeMutation_changes hproblems hd) hmutate, .inl rfl⟩
  | pause target =>
      obtain ⟨hsuccess, hout⟩ : r.success = true ∧ r.execution.map (target, ·) = some (t, e) := by
        simpa [outcome?] using hout
      obtain ⟨saved, errors, rfl, hmutate⟩ := run_setStatus_inv hrun hsuccess
      obtain ⟨rfl, rfl⟩ := Prod.mk.inj (Option.some.inj hout)
      refine ⟨saved, turns_of_mutate hc hallows hfind (fun m p _ hd => ?_) hmutate, .inl rfl⟩
      obtain ⟨hactive, rfl⟩ := statusMutation_decides hd
      exact .paused hactive
  | resume target =>
      obtain ⟨hsuccess, hout⟩ : r.success = true ∧ r.execution.map (target, ·) = some (t, e) := by
        simpa [outcome?] using hout
      obtain ⟨saved, errors, rfl, hmutate⟩ := run_setStatus_inv hrun hsuccess
      obtain ⟨rfl, rfl⟩ := Prod.mk.inj (Option.some.inj hout)
      refine ⟨saved, turns_of_mutate hc hallows hfind (fun m p _ hd => ?_) hmutate, .inl rfl⟩
      obtain ⟨hpaused, rfl⟩ := statusMutation_decides hd
      exact .resumed hpaused
  | autoRepair target =>
      obtain ⟨rfl, rfl⟩ := Prod.mk.inj (Option.some.inj hout)
      obtain ⟨⟨saved, repairs⟩, w₁, hmutate, hreport⟩ := run_bind_inv hrun
      obtain ⟨remaining, w₂, hissues, hdone⟩ := run_bind_inv hreport
      obtain ⟨hr, rfl⟩ := Prod.mk.inj hdone
      rw [(run_ofExcept_inv hissues).2, ← Except.ok.inj hr]
      exact ⟨saved, turns_of_mutate hc hallows hfind
        (fun m p _ hd => repairMutation_changes hd) hmutate, .inl rfl⟩
  | recover target word step force =>
      obtain ⟨rfl, rfl⟩ := Prod.mk.inj (Option.some.inj hout)
      have hown : w.store.find? w.now (.str base.id) = .ok (some base) := Store.find?_own hfind
      obtain ⟨strategy, hword, ⟨hmanual, operation, moved, hmutate⟩ |
        ⟨rfl, label, saved, id, hmutate, hread⟩⟩ := run_recovery_inv hfind hrun
      · exact ⟨_, turns_of_mutate hc hallows hown
          (fun m p _ hd => moveMutation_changes hword hmanual hd) hmutate, .inl rfl⟩
      · -- the checkpoint is asked for under the id as it was read
        have hvalue : base.idValue = .str base.id := (Store.shows_of_find? hkeyed hfind).1
        rw [hvalue] at hmutate
        have hnow : w'.now = w.now := by
          rw [← run_now (g.mutate (.str base.id) (g.checkpointMutation label) "checkpoint") w,
            hmutate]
        refine ⟨saved, turns_of_mutate hc hallows hown (fun m p _ hd => ?_) hmutate,
          .inr ⟨_, hown, hnow ▸ hread⟩⟩
        obtain ⟨taken, entries, context, he, hstows, _, hp⟩ := checkpointMutation_decides hd
        rw [Option.some.inj hp]
        exact .prepared hword he hstows
  | create _ _ _ _ => exact nomatch hout
  | createCheckpoint _ _ => exact nomatch hout
  | restore _ _ _ => exact nomatch hout

/-- What is read in the place of a snapshot is what has become of it, or what a row shows
    of that. -/
theorem Turns.read {v : Value} (h : op.Turns g base w w' p) (hkeyed : w.store.Keyed)
    (hfind : w.store.find? w.now v = .ok (some base))
    (hread : w'.store.find? w.now v = .ok (some e)) : e = p ∨ Reread w.now p e := by
  cases h with
  | left hstore =>
      rw [hstore, hfind] at hread
      exact .inl (Option.some.inj (Except.ok.inj hread)).symm
  | @changed m q _ hchange hsave =>
      have howns := hchange.ownsId (Store.shows_of_find? hkeyed hfind).1
      obtain ⟨_, _, old, new, hold, _, hbecomes, hslots⟩ := Store.slot?_save hkeyed howns hsave
      rw [hchange.id_eq.1] at hold
      have hnew : w'.store.slot? base.id = some new := by
        rw [hslots, if_pos hchange.id_eq.1]
      rw [Store.find?_eq_of_follows hfind hold hnew (.inr ⟨p, hbecomes⟩)] at hread
      obtain ⟨x, hshown, hx⟩ := exceptMap_ok.mp hread
      obtain rfl := Option.some.inj hx
      cases hbecomes with
      | value _ => exact .inl (Except.ok.inj hshown).symm
      | row _ hrow => exact .inr (TableRow.reread_of_row hrow hshown)

/-- What has become of a snapshot goes on from it, if that stands at a step of its
    workflow. -/
theorem Turns.goesOn (h : op.Turns g base w w' e) (hop : ¬op.IsRestore)
    (hdef : g.definitionFor base = .ok (some d)) (hissues : d.issues = [])
    (hnamed : (d.named? base.currentStep).isSome) :
    e.workflowName = base.workflowName ∧ op.Leads d base e := by
  cases h with
  | left _ => exact ⟨rfl, .stays rfl rfl⟩
  | changed hchange hsave =>
      obtain ⟨hname, hleads⟩ := hchange.goesOn hop hdef hissues hnamed
      rw [Store.saved_eq hsave]
      exact ⟨hname, hleads.of_same rfl rfl⟩

/-- Is this what an operation has left on its target that has gone through: what its result
    tells of, or what is stored then? -/
def Leaves (op : Operation) (r : op.Result) (w' : World) (t : Target) (e : Execution) : Prop :=
  ∃ told, op.outcome? r = some (t, told) ∧
    (e = told ∨ w'.store.find? w'.now t.executionId = .ok (some e))

/-- A restoration has no part in this. -/
theorem Leaves.not_restore {r : op.Result} (h : op.Leaves r w' t e) : ¬op.IsRestore := by
  obtain ⟨told, hout, _⟩ := h
  cases op with
  | restore _ _ _ => exact nomatch hout
  | _ => exact id

/-- So it is what the stored snapshot has turned into, or what is read of that. -/
theorem Leaves.turns {r : op.Result} (h : op.Leaves r w' t e) (hc : c.Spares)
    (hallows : c.Allows w) (hkeyed : w.store.Keyed)
    (hfind : w.store.find? w.now t.executionId = .ok (some base))
    (hrun : (op.client g).run w = (.ok r, w')) :
    ∃ p, op.Turns g base w w' p ∧ (e = p ∨ Reread w.now p e) := by
  obtain ⟨told, hout, he⟩ := h
  obtain ⟨p, hturns, htold⟩ := turns_of_outcome hc hallows hkeyed hfind hrun hout
  refine ⟨p, hturns, ?_⟩
  have hnow : w'.now = w.now := by
    rw [← run_now (op.client g) w, hrun]
  rcases he with rfl | hstored
  · rcases htold with rfl | ⟨v, hv, hread⟩
    · exact .inl rfl
    · exact hturns.read hkeyed hv hread
  · exact hturns.read hkeyed hfind (hnow ▸ hstored)

end Operation

/-- What a row shows has the names and the legs of what was written to it. -/
theorem Reread.same {name step : String} (h : Reread now p e)
    (hname : p.workflowName.toText? = some name) (hstep : p.currentStep.toText? = some step) :
    e.workflowName.toText? = some name ∧ e.currentStep.toText? = some step ∧
      e.legs = p.legs := by
  obtain ⟨name', hname', hshown⟩ := h.workflow
  obtain ⟨step', hstep', hcurrent⟩ := h.current
  obtain rfl := Lax.text_of_toText? hname' hname
  obtain rfl := Lax.text_of_toText? hstep' hstep
  rw [hshown, hcurrent]
  exact ⟨rfl, rfl, Execution.legs_of_sameMoves (Row.sameMoves_of_records h.history)⟩

/-- Whatever is stored, however it came to be: when nothing is wrong with it by its report,
    then what an operation leaves that goes through on it has a report without history
    issues just when no record was added, or the execution stood at the end of its history;
    and then it stands at the end of its history again.  Its step is declared, unless a
    recovery was forced to where the last action of a caller was performed. -/
theorem operations_go_on {c : Climate} {w w' : World} {t : Target} {r : op.Result}
    (hvalid : ∀ name d, g.registry.get? name = some d → d.issues = [])
    (hc : c.Spares) (hallows : c.Allows w) (hkeyed : w.store.Keyed)
    (hfind : w.store.find? w.now t.executionId = .ok (some base))
    (hintact : g.integrityIssues base = .ok [])
    (hrun : (op.client g).run w = (.ok r, w')) (hleaves : op.Leaves r w' t e) :
    ∃ d, g.definitionFor base = .ok (some d) ∧ g.definitionFor e = .ok (some d) ∧
      (historyIssues (some d) e = [] ↔ e.legs = base.legs ∨ base.AtEnd d) ∧
      (base.AtEnd d → e.AtEnd d) ∧
      (stepIssues (some d) e = [] ∨
        ∃ step, op.Forces base step ∧ e.currentStep.toText? = some step) := by
  obtain ⟨d, hdef, hhistory, hstep⟩ := whole_of_integrityIssues hintact
  obtain ⟨name, hname, hget⟩ := definitionFor_some hdef
  obtain ⟨p, hturns, hsame⟩ := hleaves.turns hc hallows hkeyed hfind hrun
  obtain ⟨hworkflow, hleads⟩ := hturns.goesOn hleaves.not_restore hdef (hvalid name d hget)
    (stepIssues_nil_iff.mp hstep)
  rw [← hworkflow] at hname
  -- what is read of a row goes on in the same way
  obtain ⟨hname, hleads⟩ : e.workflowName.toText? = some name ∧ op.Leads d base e := by
    rcases hsame with rfl | hreread
    · exact ⟨hname, hleads⟩
    · obtain ⟨step, hcurrent⟩ := hleads.atText (stepIssues_nil_iff.mp hstep)
      obtain ⟨hname', hcurrent', hlegs⟩ := hreread.same hname hcurrent
      exact ⟨hname', hleads.of_same (hcurrent'.trans hcurrent.symm) hlegs⟩
  exact ⟨d, hdef, definitionFor_of_name hname hget, hleads.historyIssues_iff hhistory,
    hleads.atEnd, hleads.stepIssues hstep⟩

/-! ## Every run -/

/-- Does the execution stand at the end of a whole history, at a step that its workflow
    declares? -/
def Engine.Whole (g : Engine) (e : Execution) : Prop :=
  ∃ d, g.definitionFor e = .ok (some d) ∧ historyIssues (some d) e = [] ∧
    stepIssues (some d) e = [] ∧ e.AtEnd d

namespace Engine.Whole

/-- It does not matter how the execution is shown. -/
theorem of_same {name step : String} (h : g.Whole p) (hname : p.workflowName.toText? = some name)
    (hstep : p.currentStep.toText? = some step) (hname' : e.workflowName.toText? = some name)
    (hstep' : e.currentStep.toText? = some step) (hlegs : e.legs = p.legs) : g.Whole e := by
  obtain ⟨d, hdef, hhistory, hnamed, hend⟩ := h
  obtain ⟨name', hn, hget⟩ := definitionFor_some hdef
  obtain rfl : name' = name := Option.some.inj (hn.symm.trans hname)
  refine ⟨d, definitionFor_of_name hname' hget, ?_, ?_, ?_⟩
  · rw [historyIssues_nil_iff, hlegs]
    exact historyIssues_nil_iff.mp hhistory
  · rw [stepIssues_nil_iff] at hnamed ⊢
    unfold Definition.named? at hnamed ⊢
    rw [hstep', ← hstep]
    exact hnamed
  · rw [Execution.atEnd_iff] at hend ⊢
    rw [hstep', hlegs, ← hend, hstep]

/-- A row shows a whole history again. -/
theorem durable (g : Engine) : Durable g.Whole := by
  intro p row created hrow h now e he
  obtain ⟨d, hdef, _, hnamed, _⟩ := id h
  obtain ⟨name, hname, _⟩ := definitionFor_some hdef
  obtain ⟨step, hstep⟩ := Option.isSome_iff_exists.mp (stepIssues_nil_iff.mp hnamed)
  have hcurrent := (named?_iff.mp hstep).1
  obtain ⟨hname', hcurrent', hlegs⟩ := (TableRow.reread_of_row hrow he).same hname hcurrent
  exact h.of_same hname hcurrent hname' hcurrent' hlegs

/-- Every change keeps a history whole that neither restores nor goes by force. -/
theorem of_change (hvalid : ∀ name d, g.registry.get? name = some d → d.issues = [])
    (h : Change g base m op p) (hop : ¬op.IsRestore) (hforce : ∀ step, ¬op.Forces base step)
    (hbase : g.Whole base) : g.Whole p := by
  obtain ⟨d, hdef, hhistory, hnamed, hend⟩ := hbase
  obtain ⟨name, hname, hget⟩ := definitionFor_some hdef
  obtain ⟨hworkflow, hleads⟩ := h.goesOn hop hdef (hvalid name d hget)
    (stepIssues_nil_iff.mp hnamed)
  refine ⟨d, definitionFor_of_name (hworkflow ▸ hname) hget,
    (hleads.historyIssues_iff hhistory).mpr (.inr hend), ?_, hleads.atEnd hend⟩
  rcases hleads.stepIssues hnamed with hstep | ⟨step, hforced, _⟩
  · exact hstep
  · exact absurd hforced (hforce step)

/-- What is created stands at the beginning of its workflow. -/
theorem of_creates (h : op.Creates g m e) : g.Whole e := by
  cases op with
  | create workflow subject actor context =>
      obtain ⟨d, initial, subject, actor, values, hd, hinitial, _, he⟩ := h
      obtain ⟨id, s, _, he⟩ := Draft.runAt_bind_ok.mp he
      obtain ⟨now, s', _, he⟩ := Draft.runAt_bind_ok.mp he
      obtain ⟨rfl, _⟩ := Draft.runAt_pure_ok.mp he
      have hname : d.name = workflow :=
        beq_iff_eq.mp (List.find?_some (p := fun x : Definition => x.name == workflow) hd)
      refine ⟨d, definitionFor_of_name rfl (hname ▸ hd), rfl, ?_, hinitial.symm⟩
      exact stepIssues_nil_iff.mpr (Definition.hasStep_of_initialStep? hinitial)
  | _ => exact h.elim

end Engine.Whole

/-- So where all that is stored stands at the end of a whole history, it does so always,
    whatever operations any number of clients are at, in whatever order the store serves
    them and whichever saves fail; only restorations and recoveries by force are left
    aside. -/
theorem histories_whole {ι : Type} [DecidableEq ι] {ops : ι → Operation} {w : World}
    (hvalid : ∀ name d, g.registry.get? name = some d → d.issues = [])
    (hops : ∀ i, ¬(ops i).IsRestore ∧ ∀ base step, ¬(ops i).Forces base step)
    (hwhole : w.store.Every g.Whole) {es : List (Event ι)}
    {s : System ι fun i => (ops i).Result}
    (hrun : System.Run .failing ⟨w, fun i => (ops i).client g⟩ es s) :
    s.world.store.Every g.Whole := by
  refine hrun.every (fun i => (ops i).terms g) (fun i => (ops i).Ends g [])
    (fun i => (ops i).Fails []) Climate.failing_spares (fun _ _ _ h => h)
    (fun i => Operation.keeps_client g (ops i) {}) ?_ ?_ hwhole ?_
  · rintro i t e ⟨m, _, he⟩
    exact .of_creates he
  · rintro i t p v hreads ⟨base, m, hread, _, hchange, _⟩
    obtain ⟨hrestore, hforce⟩ := hops i
    exact .of_change hvalid hchange hrestore (hforce base) (hreads base hread)
  · show w.store.Suits _
    cases w.store with
    | memory _ => trivial
    | table _ => exact Engine.Whole.durable g

/-! ## Tickets that were moved by hand -/

/-- The engine that knows tickets. -/
def ticketEngine : Engine := { registry := ⟨[ticketWorkflow]⟩ }

/-- A ticket that was assigned and is worked on. -/
def assignedTicket : Execution :=
  { id := "exec-1", workflowName := .str "ticket", subject := .subject "Printer" "7"
    currentStep := .str "work", status := .active
    context := .dict [(.str "owner", .str "ann")]
    history := [⟨"open", "work", "assign", none, .defaultNow⟩]
    assignedActor := none, version := 1, createdAt := .defaultNow, updatedAt := .defaultNow }

/-- What a ticket comes to that an action is performed on. -/
def performed (g : Engine) (e : Execution) (action : String) :
    Except Failure ActionResult × World :=
  (g.perform (.id (.str e.id)) (.str action) .null .null).run { store := .memory ⟨[e]⟩ }

/-- The report on the result of an action that went through. -/
def reportAfter? (g : Engine) (r : Except Failure ActionResult × World) : Option (List String) :=
  match r.1 with
  | .ok a => if a.success then a.execution.bind fun e => (g.integrityIssues e).toOption else none
  | _     => none

/-- The ticket is closed from where its history ends, and stands at the end of it again. -/
theorem assignedTicket_goes_on :
    ∃ r w' e, performed ticketEngine assignedTicket "close" = (.ok r, w') ∧
      r.success = true ∧ r.execution = some e ∧ e.legs = [("open", "work"), ("work", "closed")] ∧
      ticketEngine.Whole e := by
  have hlegs : (performed ticketEngine assignedTicket "close").1.toOption.map
      (fun r => (r.success, r.execution.map (·.legs))) =
        some (true, some [("open", "work"), ("work", "closed")]) := by decide +kernel
  cases hrun : performed ticketEngine assignedTicket "close" with
  | mk result w' =>
      rw [hrun] at hlegs
      cases result with
      | error f => exact nomatch hlegs
      | ok r =>
          obtain ⟨hsuccess, hlegs⟩ := Prod.mk.inj (Option.some.inj hlegs)
          obtain ⟨e, he, hlegs⟩ := Option.map_eq_some_iff.mp hlegs
          refine ⟨r, w', e, rfl, hsuccess, he, hlegs, ?_⟩
          let w : World := { store := .memory ⟨[assignedTicket]⟩ }
          let t : Target := .id (.str "exec-1")
          let op : Operation := .perform t (.str "close") .null .null
          have hvalid (name : String) (d : Definition)
              (hd : ticketEngine.registry.get? name = some d) : d.issues = [] := by
            rw [List.mem_singleton.mp (List.mem_of_find?_eq_some hd)]
            decide
          have hallows : Climate.calm.Allows w :=
            ⟨trivial, fun _ hx => absurd hx List.not_mem_nil⟩
          have hfind : w.store.find? w.now t.executionId = .ok (some assignedTicket) := rfl
          have hkeyed : w.store.Keyed := List.forall_mem_singleton.mpr rfl
          have hleaves : op.Leaves r w' t e := by
            refine ⟨e, ?_, .inl rfl⟩
            show (if r.success then r.execution.map (t, ·) else none) = _
            rw [if_pos hsuccess, he]
            rfl
          obtain ⟨d, hdef, hdef', hhistory, hend, hstep⟩ := operations_go_on hvalid
            Climate.calm_spares hallows hkeyed hfind rfl
            (show (op.client ticketEngine).run w = (.ok r, w') from hrun) hleaves
          obtain rfl : ticketWorkflow = d := Option.some.inj (Except.ok.inj hdef)
          refine ⟨ticketWorkflow, hdef', hhistory.mpr (.inr rfl), ?_, hend rfl⟩
          rcases hstep with hstep | ⟨_, hforced, _⟩
          · exact hstep
          · exact hforced.elim

/-- The workflow anew, with a step before its first one. -/
def ticketWorkflowAnew : Definition :=
  { ticketWorkflow with
    serial := 2
    steps  := { name := "filed", actions := [⟨"open", "open", none, none, false⟩] } ::
      ticketWorkflow.steps }

/-- A ticket that was put back to its first step without a record. -/
def displacedTicket : Execution := { assignedTicket with currentStep := .str "open" }

/-- A ticket without records, at what was the first step when it was opened. -/
def openedTicket : Execution := { displacedTicket with history := [] }

/-- Nothing is wrong by their reports with a ticket that was displaced, nor with one whose
    workflow has been given another first step.  After an action there is. -/
theorem displacedTickets_broken :
    let anew : Engine := { registry := ⟨[ticketWorkflowAnew]⟩ }
    ticketEngine.integrityIssues displacedTicket = .ok [] ∧
      reportAfter? ticketEngine (performed ticketEngine displacedTicket "assign") =
        some ["History gap between steps work and open"] ∧
      anew.integrityIssues openedTicket = .ok [] ∧
      reportAfter? anew (performed anew openedTicket "assign") =
        some ["History doesn't start from initial step"] := by
  refine ⟨rfl, ?_, rfl, ?_⟩
  · decide +kernel
  · decide +kernel

end Workflow
