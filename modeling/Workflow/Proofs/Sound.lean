import Workflow.Proofs.Definition
import Workflow.Proofs.Operation
import Workflow.Proofs.Row
import Workflow.Proofs.System
import Workflow.Proofs.Visits

/-! # Sound — every stored execution is one that its workflow allows

    A sound execution is at the end of a way through its workflow, completed only at
    a final step, with context data that passes its checks.  Operations move it
    along, and also put old states in place: a checkpoint that is restored, a step
    that the history names.  So soundness asks the same of all that is stored as a
    checkpoint.

    The heart is `Sound.of_change`, case by case over all that an operation may
    write; that everything stored is sound follows for any number of clients. -/

namespace Workflow

variable {g : Engine} {base p : Execution} {m : Moment} {op : Operation} {d : Definition}
  {step : String} {entries : Mapping}

/-! ## Sound executions -/

/-- Is the value a list of documents of checkpoints of what an execution can be? -/
def Definition.Vouches (d : Definition) (v : Value) : Prop :=
  ∃ docs, v = .list docs ∧ ∀ doc ∈ docs, ∃ (c : Checkpoint) (v : Value),
    doc = .record (c.columns v) ∧ v.Plain ∧ v.Encodes ∧
      d.Standing c.capturedStep c.capturedStatus c.capturedHistory

/-- Is the execution one that a definition allows, at a step and with the given
    entries as context? -/
structure SoundAt (d : Definition) (step : String) (entries : Mapping) (e : Execution) :
    Prop where
  current  : e.currentStep = .str step
  context  : e.context = .dict entries
  fit      : entries.Fit
  standing : d.Standing step e.status e.history
  vouched  : ∀ v ∈ entries.under checkpointsKey, d.Vouches v

/-- Is the execution one that its definition allows? -/
def Sound (r : Registry) (e : Execution) : Prop :=
  ∃ name d step entries, e.workflowName = .str name ∧ r.get? name = some d ∧
    SoundAt d step entries e

theorem Sound.committed {r : Registry} {e : Execution} (h : Sound r e) (v : Int)
    (now : Timestamp) : Sound r (e.committed v now) := by
  obtain ⟨name, d, step, entries, hname, hd, hsound⟩ := h
  exact ⟨name, d, step, entries, hname, hd, hsound.current, hsound.context, hsound.fit,
    hsound.standing, hsound.vouched⟩

/-! ## Moves -/

theorem rollbackPoints_declared (hd : g.definitionFor base = .ok (some d))
    {points : List RollbackPoint} (h : g.rollbackPoints base = .ok points) :
    ∀ x ∈ points, d.hasStep x.step = true := by
  obtain ⟨od, hod, h⟩ := exceptBind_ok.mp h
  rw [hd] at hod
  rw [← Except.ok.inj hod] at h
  intro x hx
  cases hh : base.history with
  | nil =>
      rw [hh] at h
      rw [← Except.ok.inj h] at hx
      exact absurd hx List.not_mem_nil
  | cons r rs =>
      rw [hh] at h
      dsimp only at h
      split at h
      · rw [← Except.ok.inj h] at hx
        obtain ⟨s, hs, hname⟩ := List.mem_map.mp (Definition.rollbackPoints_place hx).1
        exact Definition.hasStep_iff.mpr ⟨s, (List.mem_filter.mp hs).1, hname⟩
      · exact nomatch h

theorem retryCandidate?_mem {r : TransitionRecord} (h : base.retryCandidate? = some r) :
    r ∈ base.history := List.mem_reverse.mp (List.mem_of_find?_eq_some h)

theorem planReturn_declared (hd : g.definitionFor base = .ok (some d)) {move : Engine.Move}
    {target : String} (h : g.planReturn d base = .ok move) (ht : move.target = some target) :
    d.hasStep target = true := by
  obtain ⟨points, hpoints, h⟩ := exceptBind_ok.mp h
  cases points with
  | nil =>
      rw [← Except.ok.inj h] at ht
      exact Definition.hasStep_of_initialStep? ht
  | cons x points =>
      rw [← Except.ok.inj h] at ht
      rw [← Option.some.inj ht]
      exact rollbackPoints_declared hd hpoints x List.mem_cons_self

/-- The action to retry is open on re-entry when the step and the action of its record are
    found and the guard of that action holds for the present context. -/
theorem retryGuardHolds_iff :
    Engine.retryGuardHolds d base = true ↔ ∃ r step a, base.retryCandidate? = some r ∧
      d.findStep? r.fromStep = some step ∧ step.findAction? r.action = some a ∧
      a.isAvailable base.context = true := by
  unfold Engine.retryGuardHolds
  cases hr : base.retryCandidate? with
  | none => simp
  | some r =>
      cases hstep : d.findStep? r.fromStep with
      | none => simp [hstep]
      | some step =>
          cases ha : step.findAction? r.action with
          | none => simp [hstep, ha]
          | some a => simp [hstep, ha]

/-- An action that is open on re-entry belongs to a declared step. -/
theorem retryGuardHolds_declared {r : TransitionRecord} (hr : base.retryCandidate? = some r)
    (h : Engine.retryGuardHolds d base = true) : d.hasStep r.fromStep = true := by
  obtain ⟨r', step, _, hr', hstep, _⟩ := retryGuardHolds_iff.mp h
  obtain rfl := Option.some.inj (hr.symm.trans hr')
  unfold Definition.hasStep
  rw [hstep]
  rfl

theorem planRetry_ok {force : Bool} {move : Engine.Move} :
    Engine.planRetry d base force = .ok move ↔ ∃ r, base.retryCandidate? = some r ∧
      (force = true ∨ Engine.retryGuardHolds d base = true) ∧
      move = ⟨.retryLast, some r.fromStep⟩ := by
  unfold Engine.planRetry
  cases base.retryCandidate? with
  | none => simp
  | some r =>
      have hclosed : (!force && !Engine.retryGuardHolds d base) = true ↔
          ¬(force = true ∨ Engine.retryGuardHolds d base = true) := by simp
      dsimp only
      by_cases hopen : force = true ∨ Engine.retryGuardHolds d base = true
      · rw [if_neg (fun h => hclosed.mp h hopen)]
        constructor
        · intro h
          exact ⟨r, rfl, hopen, (Except.ok.inj h).symm⟩
        · rintro ⟨_, hr, -, rfl⟩
          rw [Option.some.inj hr]
      · rw [if_pos (hclosed.mpr hopen)]
        exact iff_of_false (fun h => nomatch h) fun h => hopen h.choose_spec.2.1

/-- A move is a retry of the last action of a caller, open on re-entry unless the retry is
    forced, or one of another strategy, to a declared step. -/
theorem planMove_cases (hd : g.definitionFor base = .ok (some d)) {strategy : Strategy}
    {given : Value} {force : Bool} {move : Engine.Move}
    (h : g.planMove d base strategy given force = .ok move) :
    (∃ r, base.retryCandidate? = some r ∧
      (force = true ∨ Engine.retryGuardHolds d base = true) ∧
      move = ⟨.retryLast, some r.fromStep⟩) ∨
    (move.strategy ≠ .retryLast ∧ ∀ target, move.target = some target →
      d.hasStep target = true) := by
  have hreturn (h : g.planReturn d base = .ok move) : move.strategy ≠ .retryLast ∧
      ∀ target, move.target = some target → d.hasStep target = true := by
    refine ⟨?_, fun target ht => planReturn_declared hd h ht⟩
    obtain ⟨points, _, h⟩ := exceptBind_ok.mp h
    cases points with
    | nil => exact Except.ok.inj h ▸ (fun hs => nomatch hs)
    | cons x points => exact Except.ok.inj h ▸ (fun hs => nomatch hs)
  cases strategy with
  | auto =>
      have h : g.planAuto d base force = .ok move := h
      unfold Engine.planAuto at h
      split at h
      · rename_i r hr
        split at h
        · rename_i hopen
          exact .inl ⟨r, hr, Bool.or_eq_true_iff.mp hopen.2, (Except.ok.inj h).symm⟩
        · exact .inr (hreturn h)
      · exact .inr (hreturn h)
  | rollback =>
      obtain ⟨points, hpoints, h⟩ := exceptBind_ok.mp h
      cases points with
      | nil => exact nomatch h
      | cons x points =>
          rw [← Except.ok.inj h]
          refine .inr ⟨(fun hs => nomatch hs), fun target ht => ?_⟩
          rw [← Option.some.inj ht]
          exact rollbackPoints_declared hd hpoints x List.mem_cons_self
  | reset =>
      have h : Engine.planReset d base given = .ok move := h
      unfold Engine.planReset at h
      split at h
      · exact nomatch h
      · split at h
        · rename_i s hs
          rw [← Except.ok.inj h]
          refine .inr ⟨(fun hs => nomatch hs), fun target ht => ?_⟩
          obtain ⟨name, _, hs⟩ := Option.bind_eq_some_iff.mp hs
          rw [← Option.some.inj ht]
          exact Definition.hasStep_iff.mpr ⟨s, (Definition.findStep?_some hs).2, rfl⟩
        · exact nomatch h
  | retryLast => exact .inl (planRetry_ok.mp h)
  | manual => exact .inl (planRetry_ok.mp h)

/-- A move leads to a declared step, or is a retry that is forced: that one leads to
    where the record was made that it retries. -/
theorem planMove_lands (hd : g.definitionFor base = .ok (some d)) {strategy : Strategy}
    {given : Value} {force : Bool} {move : Engine.Move} {target : String}
    (h : g.planMove d base strategy given force = .ok move) (ht : move.target = some target) :
    d.hasStep target = true ∨ force = true ∧ move.strategy = .retryLast ∧
      ∃ r, base.retryCandidate? = some r ∧ r.fromStep = target := by
  rcases planMove_cases hd h with ⟨r, hr, hopen, rfl⟩ | ⟨_, hdeclared⟩
  · obtain rfl := Option.some.inj ht
    rcases hopen with hforce | hguard
    · exact .inr ⟨hforce, rfl, r, hr, rfl⟩
    · exact .inl (retryGuardHolds_declared hr hguard)
  · exact .inl (hdeclared target ht)

/-- A move leads to a declared step, when the history comes from declared steps. -/
theorem planMove_declared (hd : g.definitionFor base = .ok (some d))
    (hhistory : ∀ r ∈ base.history, d.hasStep r.fromStep = true) {strategy : Strategy}
    {given : Value} {force : Bool} {move : Engine.Move} {target : String}
    (h : g.planMove d base strategy given force = .ok move) (ht : move.target = some target) :
    d.hasStep target = true := by
  rcases planMove_lands hd h ht with hdeclared | ⟨_, _, r, hr, rfl⟩
  · exact hdeclared
  · exact hhistory r (retryCandidate?_mem hr)

/-! ## What operations write -/

/-- What is stored as checkpoints of a sound execution is vouched for. -/
theorem SoundAt.stored (h : SoundAt d step entries base) {ds : List Value}
    (hds : Checkpoint.stored base = .ok ds) : d.Vouches (.list ds) := by
  rcases Checkpoint.stored_ok h.context h.fit hds with rfl | hds
  · exact ⟨[], rfl, fun doc hdoc => absurd hdoc List.not_mem_nil⟩
  · rw [Mapping.field?_eq_head?] at hds
    exact h.vouched _ (List.mem_of_mem_head? hds)

/-- What is put in the place of the checkpoints has to be vouched for as well. -/
theorem Definition.vouches_set (h : ∀ x ∈ entries.under checkpointsKey, d.Vouches x) {v : Value}
    (hv : d.Vouches v) :
    ∀ x ∈ (entries.set checkpointsKey v).under checkpointsKey, d.Vouches x := by
  rw [Mapping.under_set, if_pos rfl]
  exact List.forall_mem_cons.mpr ⟨hv, fun x hx => h x (List.mem_of_mem_tail hx)⟩

/-- A checkpoint of a sound execution, stored over fit entries, leaves them fit, and
    what it puts there is vouched for. -/
theorem Engine.Stows.sound {s : Serials} {onto context : Mapping} {c : Checkpoint}
    (h : g.Stows base m s onto c context) (hbase : SoundAt d step entries base)
    (honto : onto.Fit) :
    context.Fit ∧ c.capturedStep = step ∧
      ∃ v, context = onto.set checkpointsKey v ∧ d.Vouches v := by
  have hstored {ds : List Value} (hds : Checkpoint.stored base = .ok ds) :=
    Checkpoint.stored_encode hbase.context hbase.fit hds
  obtain ⟨ds, doc, hds, hdoc, rfl⟩ := h.context_eq fun ds hds d hd => (hstored hds d hd).closed
  obtain ⟨label, captured, rfl, hcaptured, _⟩ := h.taken_eq hbase.context hbase.current
  obtain ⟨v, hv, rfl⟩ := Checkpoint.document_columns hdoc
  -- What is captured is a copy of part of the context, which is fit.
  have hfit : captured.Fit := by
    refine Checkpoint.mapping_fit ?_ hcaptured
    rw [Mapping.copyTop_of_closed fun e he _ => (hbase.fit e he).2.closed]
    exact (hbase.fit.filter _).encodes
  have hencodes : v.Encodes := by
    refine Checkpoint.contextDocument_encodes (fun m hm => ?_) hv
    obtain rfl : captured = m := Option.some.inj hm
    exact hfit
  obtain ⟨_, hlist, hvouched⟩ := hbase.stored hds
  refine ⟨honto.set _ (Value.encodes_list.mpr fun x hx => ?_), rfl, _, rfl, _, rfl,
    fun x hx => ?_⟩
  · rcases List.mem_append.mp (Checkpoint.mem_of_mem_newest hx) with hx | hx
    · exact hstored hds x hx
    · rw [List.mem_singleton.mp hx]
      exact Checkpoint.columns_inherit inherited_encodes hencodes
  · rcases List.mem_append.mp (Checkpoint.mem_of_mem_newest hx) with hx | hx
    · exact hvouched x (Value.list.inj hlist ▸ hx)
    · rw [List.mem_singleton.mp hx]
      exact ⟨_, v, rfl, Checkpoint.contextDocument_plain hv, hencodes, hbase.standing⟩

/-- Stored over its own entries it leaves all of them vouched for. -/
theorem SoundAt.stowed {s : Serials} {own context : Mapping} {c : Checkpoint}
    (h : SoundAt d step entries base) (he : base.context = .dict own)
    (hc : g.Stows base m s own c context) :
    context.Fit ∧ c.capturedStep = step ∧ ∀ x ∈ context.under checkpointsKey, d.Vouches x := by
  obtain rfl := Value.dict.inj (h.context.symm.trans he)
  obtain ⟨hfit, hstep, v, rfl, hv⟩ := hc.sound h h.fit
  exact ⟨hfit, hstep, Definition.vouches_set h.vouched hv⟩

/-- So does data that passes the checks, merged into them. -/
theorem SoundAt.merged {values : Mapping} (h : SoundAt d step entries base)
    (hvalues : contextProblems false values = []) : (entries.merge values).Fit ∧
      ∀ x ∈ (entries.merge values).under checkpointsKey, d.Vouches x := by
  refine ⟨h.fit.merge (contextProblems_nil.mp hvalues).1, ?_⟩
  rw [under_merge_valid hvalues]
  exact h.vouched

/-- Of what is stored as checkpoints only what the execution could be is found, and it can
    be again. -/
theorem SoundAt.found {id : String} {now : Timestamp} {s s' : Serials} {c : Checkpoint}
    (h : SoundAt d step entries base)
    (hc : (Checkpoint.find base id).runAt now s = (.ok c, s')) :
    d.Standing c.capturedStep c.capturedStatus c.capturedHistory ∧
      (Value.dict (c.capturedContext.getD [])).Plain ∧ (c.capturedContext.getD []).Fit := by
  obtain ⟨_, ds, doc, freshId, hds, hdoc, hread⟩ :=
    Checkpoint.find_ok (fun ds hds x hx =>
      (Checkpoint.stored_encode h.context h.fit hds x hx).closed) hc
  obtain ⟨_, hlist, hvouched⟩ := h.stored hds
  obtain ⟨c', v, rfl, hplain, hv, hstanding⟩ := hvouched doc (Value.list.inj hlist ▸ hdoc)
  obtain ⟨_, hstep, hstatus, hcaptured, hfit, hmoves⟩ := Checkpoint.of_read hplain hv hread
  rw [hstep, hstatus]
  exact ⟨hstanding.of_sameMoves hmoves, hcaptured, hfit⟩

/-- Whatever an operation may write over a sound execution is sound. -/
theorem Sound.of_change (hvalid : ∀ name d, g.registry.get? name = some d → d.Valid)
    (h : Change g base m op p) (hbase : Sound g.registry base) : Sound g.registry p := by
  obtain ⟨name, d, step, entries, hname, hd, hbase⟩ := hbase
  -- What the operation takes for the definition of the workflow is that definition.
  have hsame {d' : Definition} (h : g.definitionFor base = .ok (some d')) : d' = d := by
    obtain ⟨name', hname', hd'⟩ := Engine.definitionFor_some h
    rw [hname] at hname'
    rw [← Option.some.inj hname', hd] at hd'
    exact (Option.some.inj hd').symm
  cases h with
  | @advanced t action actor additional context d' source a values ref hopen hvalues _ hcontext =>
      obtain ⟨name', hname', hd'⟩ := hopen.registered
      rw [hname] at hname'
      rw [← Option.some.inj hname', hd] at hd'
      obtain rfl := Option.some.inj hd'
      rw [hbase.context] at hcontext
      have hat : source.name = step := by
        have hcurrent := hopen.current.1
        rw [hbase.current] at hcurrent
        exact (Option.some.inj hcurrent).symm
      have hdeclared := (hvalid name d hd).targets source
        (Definition.findStep?_some hopen.current.2).2 a (List.mem_of_find?_eq_some hopen.named.2)
      have hmoved : d.Standing a.target
          (if d.isFinalStep a.target then .completed else base.status)
          (base.history ++ [⟨source.name, a.target, a.name, ref, m.time⟩]) := by
        refine hbase.standing.move (r := ⟨source.name, a.target, a.name, ref, m.time⟩) hat
          hdeclared fun h => ?_
        split at h
        · assumption
        · rw [hopen.active] at h
          exact nomatch h
      obtain ⟨hfit, hvouched⟩ := hbase.merged hvalues
      exact ⟨name, d, a.target, _, hname, hd, rfl, updated_dict hcontext, hfit, hmoved, hvouched⟩
  | @marked t action actor additional context operation f _ hcontext =>
      obtain ⟨v, rfl, hv⟩ := failedContext_dict hbase.context hcontext
      refine ⟨name, d, step, _, hname, hd, hbase.current, rfl, hbase.fit.set _ (hv ?_),
        hbase.standing.withStatus (fun h => nomatch h), ?_⟩
      · rw [hbase.current]
        exact Value.encodes_str step
      · rw [Mapping.under_set, if_neg (by decide)]
        exact hbase.vouched
  | @merged t given context values hvalues hcontext =>
      rw [hbase.context] at hcontext
      obtain ⟨hfit, hvouched⟩ := hbase.merged hvalues
      exact ⟨name, d, step, _, hname, hd, hbase.current, updated_dict hcontext, hfit,
        hbase.standing, hvouched⟩
  | paused _ =>
      exact ⟨name, d, step, entries, hname, hd, hbase.current, hbase.context, hbase.fit,
        hbase.standing.withStatus (fun h => nomatch h), hbase.vouched⟩
  | resumed _ =>
      exact ⟨name, d, step, entries, hname, hd, hbase.current, hbase.context, hbase.fit,
        hbase.standing.withStatus (fun h => nomatch h), hbase.vouched⟩
  | @checkpointed t label own context c he hc =>
      obtain ⟨hfit, _, hvouched⟩ := hbase.stowed he hc
      exact ⟨name, d, step, _, hname, hd, hbase.current, rfl, hfit, hbase.standing, hvouched⟩
  | @restored t id force s c backup context hc hbackup =>
      obtain ⟨hstanding, hcaptured, hcapturedfit⟩ := hbase.found hc
      obtain ⟨hfit, _, v, rfl, hv⟩ := hbackup.sound hbase hcapturedfit
      refine ⟨name, d, c.capturedStep, _, hname, hd, rfl, rfl, hfit, hstanding, ?_⟩
      rw [Mapping.under_set_of_plain hcaptured]
      exact List.forall_mem_singleton.mpr hv
  | @filled t d' context missing hdef hfill _ =>
      obtain rfl := hsame hdef
      rw [hbase.context] at hfill
      have hall := fun k hk => (hvalid name d' hd).defaultFor (k := k) hk
      refine ⟨name, d', step, _, hname, hd, hbase.current, fillContext_dict hfill,
        fillMissing_fit (fun k hk => (hall k hk).2) hbase.fit, hbase.standing, ?_⟩
      rw [under_fillMissing d' fun k hk => (hall k hk).1]
      exact hbase.vouched
  | @reset t d' context missing initial hdef _ hstep _ =>
      -- The step of a sound execution is known.
      obtain rfl := hsame hdef
      rw [hbase.current] at hstep
      have hdeclared := hbase.standing.hasStep
      unfold Definition.hasStep at hdeclared
      rw [show d'.findStep? step = none from hstep] at hdeclared
      exact nomatch hdeclared
  | @moved t word target force d' strategy move dest own context c _ _ _ hdef hmove hdest he
      hc =>
      obtain rfl := hsame hdef
      obtain ⟨hfit, hstep, hvouched⟩ := hbase.stowed he hc
      have hdeclared := planMove_declared hdef
        (fun r hr => hbase.standing.hasStep_of_mem hr) hmove hdest
      have hmoved : d'.Standing dest .active (base.history ++
          [⟨c.capturedStep, dest, s!"recovery:{move.strategy.text}", some .systemRecovery,
            m.time⟩]) := by
        refine hbase.standing.move (r := ⟨c.capturedStep, dest,
          s!"recovery:{move.strategy.text}", some .systemRecovery, m.time⟩) hstep hdeclared ?_
        exact fun h => nomatch h
      exact ⟨name, d', dest, _, hname, hd, rfl, rfl, hfit, hmoved, hvouched⟩
  | @prepared t word target force own context c _ he hc =>
      obtain ⟨hfit, _, hvouched⟩ := hbase.stowed he hc
      exact ⟨name, d, step, _, hname, hd, hbase.current, rfl, hfit, hbase.standing, hvouched⟩

/-- What is created is sound. -/
theorem Sound.of_creates {e : Execution} (h : op.Creates g m e) : Sound g.registry e := by
  cases op with
  | create workflow subject actor context =>
      obtain ⟨d, initial, subject, actor, values, hd, hinitial, hvalues, he⟩ := h
      obtain ⟨id, s, _, he⟩ := Draft.runAt_bind_ok.mp he
      obtain ⟨now, s', _, he⟩ := Draft.runAt_bind_ok.mp he
      obtain ⟨rfl, _⟩ := Draft.runAt_pure_ok.mp he
      have hname : d.name = workflow :=
        beq_iff_eq.mp (List.find?_some (p := fun x : Definition => x.name == workflow) hd)
      refine ⟨d.name, d, initial, values, rfl, hname ▸ hd, rfl, rfl,
        (contextProblems_nil.mp hvalues).1, ⟨⟨initial, hinitial, rfl⟩, (fun h => nomatch h)⟩, ?_⟩
      rw [under_of_valid hvalues]
      exact fun v hv => absurd hv List.not_mem_nil
  | _ => exact h.elim

/-! ## Rows -/

theorem Definition.Vouches.plain {v : Value} (h : d.Vouches v) : v.Plain := by
  obtain ⟨docs, rfl, hdocs⟩ := h
  refine .list fun doc hdoc => ?_
  obtain ⟨c, v, rfl, hplain, _⟩ := hdocs doc hdoc
  exact Checkpoint.columns_inherit inherited_plain hplain

/-- What a row shows that a sound execution was written to is sound: its context has
    become a document, and the stored checkpoints in it were documents before. -/
theorem Sound.durable (r : Registry) : Durable (Sound r) := by
  rintro e row created hrow ⟨name, d, step, entries, hname, hd, hsound⟩ now e' he'
  have hreread := TableRow.reread_of_row hrow he'
  obtain ⟨fs, hfs, hcontext⟩ := hreread.context
  rw [hsound.context] at hfs
  have hfit : Mapping.Fit fs :=
    (Document.plain_of_ofValue hfs).fit (Document.encodes_of_ofValue hsound.fit.encodes hfs)
  have hstanding : d.Standing step e'.status e'.history := by
    rw [hreread.status]
    exact hsound.standing.of_sameMoves (Row.sameMoves_of_records hreread.history)
  refine ⟨name, d, step, fs, hreread.workflowName_eq hname, hd,
    hreread.currentStep_eq hsound.current, hcontext, hfit, hstanding, fun x hx => ?_⟩
  -- What stands there is the document of what stood there, which was a document before.
  rw [Document.under_of_ofValue_of_plain (fun x hx => (hsound.fit x hx).1) hfs
    fun v hv => (hsound.vouched v hv).plain] at hx
  exact hsound.vouched x (List.mem_of_getLast? (Option.mem_toList.mp hx))

/-! ## Every run -/

/-- Does the execution, at a step, fit the definition of its workflow? -/
structure Fits (d : Definition) (step : String) (e : Execution) : Prop where
  current  : e.currentStep = .str step
  declared : d.hasStep step = true
  chained  : e.history.IsChain fun r r' => r.toStep = r'.fromStep
  fresh    : e.history = [] → d.initialStep? = some step
  first    : ∀ r, e.history.head? = some r → d.initialStep? = some r.fromStep
  last     : ∀ r, e.history.getLast? = some r → r.toStep = step
  final    : e.status = .completed → d.isFinalStep step = true
  context  : valueProblems true e.context = []

theorem SoundAt.fits {e : Execution} (h : SoundAt d step entries e) : Fits d step e := by
  obtain ⟨initial, hinitial, hway⟩ := h.standing.way
  refine ⟨h.current, h.standing.hasStep, hway.isChain, fun hnil => ?_, fun r hr => ?_,
    fun r hr => hway.last hr, h.standing.final, ?_⟩
  · rw [hnil] at hway
    rw [hinitial, show initial = step from hway]
  · rw [hinitial, hway.head hr]
  · rw [h.context]
    exact contextProblems_nil.mpr ⟨h.fit, fun h => nomatch h⟩

/-- What is declared there. -/
def ticketWorkflow : Definition :=
  { serial := 1, name := "ticket"
    steps :=
      [ { name := "open", actions := [⟨"assign", "work", none, none, false⟩] },
        { name := "work", actions := [⟨"close", "closed", none, none, false⟩], safe := true },
        { name := "closed" } ]
    requirements := [⟨"owner", .str "nobody"⟩] }

end Workflow
