import Workflow.Proofs.Blockers
import Workflow.Proofs.Chronicle
import Workflow.Proofs.Table
import Workflow.Recovery.Diagnostics

/-! # Diagnosis — when there is a report on an execution

    The diagnostics collect what is said of an execution elsewhere, and a part that fails
    fails the whole.  Whatever the state of the execution and of its subject, blockers,
    findings, plan and report can be told.  Only the listing of the stored checkpoints
    depends on what stands in the context: it is made when they are a list, or nothing,
    and each of them is read and has a time with a zone.

    What is collected is plain data, so it is its own JSON form and the report shows it
    as it is: `Json.keepsForm_of_plain`, and the lemmas of the parts before it. -/

namespace Workflow

namespace Json

/-- Is the value its own JSON form when its integers are short, and without one else? -/
def KeepsForm (v : Value) : Prop := ∀ w, plain v = .ok w ↔ v.isShort = true ∧ w = v

theorem keepsForm_scalar {s : Scalar} (h : plainScalar s = .scalar s) :
    KeepsForm (.scalar s) := by
  intro w
  rw [plain, Value.isShort, h]
  cases isLong s with
  | false => exact ⟨fun hw => ⟨rfl, (Except.ok.inj hw).symm⟩, fun hw => hw.2 ▸ rfl⟩
  | true  => exact iff_of_false (fun hw => by cases hw) fun hw => Bool.noConfusion hw.1

theorem plainItems_iff {xs : List Value} (h : ∀ x ∈ xs, KeepsForm x) (ys : List Value) :
    plainItems xs = .ok ys ↔ Value.areAllShort xs = true ∧ ys = xs := by
  induction xs generalizing ys with
  | nil => exact ⟨fun h => ⟨rfl, (Except.ok.inj h).symm⟩, fun h => h.2.symm ▸ rfl⟩
  | cons x xs ih =>
      obtain ⟨hx, hxs⟩ := List.forall_mem_cons.mp h
      rw [plainItems, Value.areAllShort, Bool.and_eq_true]
      constructor
      · intro h₁
        obtain ⟨y, hy, h₂⟩ := exceptBind_ok.mp h₁
        obtain ⟨zs, hzs, h₃⟩ := exceptBind_ok.mp h₂
        obtain ⟨hshort, hyx⟩ := (hx y).mp hy
        obtain ⟨hshorts, hzsx⟩ := (ih hxs zs).mp hzs
        rw [← Except.ok.inj h₃, hyx, hzsx]
        exact ⟨⟨hshort, hshorts⟩, rfl⟩
      · rintro ⟨⟨hshort, hshorts⟩, rfl⟩
        exact exceptBind_ok.mpr ⟨x, (hx x).mpr ⟨hshort, rfl⟩,
          exceptBind_ok.mpr ⟨xs, (ih hxs xs).mpr ⟨hshorts, rfl⟩, rfl⟩⟩

theorem plainEntries_iff {es : Mapping} (hkeys : ∀ e ∈ es, ∃ k, e.1 = .str k)
    (h : ∀ e ∈ es, KeepsForm e.2) (fs : Mapping) :
    plainEntries es = .ok fs ↔ Value.holdShort es = true ∧ fs = es := by
  induction es generalizing fs with
  | nil => exact ⟨fun h => ⟨rfl, (Except.ok.inj h).symm⟩, fun h => h.2.symm ▸ rfl⟩
  | cons e es ih =>
      obtain ⟨k, v⟩ := e
      obtain ⟨hv, hes⟩ := List.forall_mem_cons.mp h
      obtain ⟨⟨t, ht⟩, hkeys⟩ := List.forall_mem_cons.mp hkeys
      have hk : keyText k = .ok t := by
        rw [show k = .str t from ht]
        rfl
      rw [plainEntries, Value.holdShort, Bool.and_eq_true]
      constructor
      · intro h₁
        obtain ⟨key, hkey, h₂⟩ := exceptBind_ok.mp h₁
        obtain ⟨x, hx, h₃⟩ := exceptBind_ok.mp h₂
        obtain ⟨zs, hzs, h₄⟩ := exceptBind_ok.mp h₃
        obtain ⟨hshort, hxv⟩ := (hv x).mp hx
        obtain ⟨hshorts, hzses⟩ := (ih hkeys hes zs).mp hzs
        rw [hk] at hkey
        rw [← Except.ok.inj h₄, ← Except.ok.inj hkey, hxv, hzses, ← show k = .str t from ht]
        exact ⟨⟨hshort, hshorts⟩, rfl⟩
      · rintro ⟨⟨hshort, hshorts⟩, rfl⟩
        refine exceptBind_ok.mpr ⟨t, hk, exceptBind_ok.mpr ⟨v, (hv v).mpr ⟨hshort, rfl⟩,
          exceptBind_ok.mpr ⟨es, (ih hkeys hes es).mpr ⟨hshorts, rfl⟩, ?_⟩⟩⟩
        rw [show k = .str t from ht]
        rfl

/-- Plain data is its own JSON form when its integers are short; else it has none. -/
theorem keepsForm_of_plain {v : Value} (h : v.Plain) : KeepsForm v := by
  induction h with
  | null     => exact keepsForm_scalar rfl
  | bool b   => cases b <;> exact keepsForm_scalar rfl
  | int i    => exact keepsForm_scalar rfl
  | float hx => exact keepsForm_scalar rfl
  | str s    => exact keepsForm_scalar rfl
  | @list xs _ ih =>
      intro w
      rw [plain, Value.isShort, exceptMap_ok]
      constructor
      · rintro ⟨ys, hys, rfl⟩
        obtain ⟨hshort, rfl⟩ := (plainItems_iff ih ys).mp hys
        exact ⟨hshort, rfl⟩
      · rintro ⟨hshort, rfl⟩
        exact ⟨xs, (plainItems_iff ih xs).mpr ⟨hshort, rfl⟩, rfl⟩
  | @dict es hkeys hnodup _ ih =>
      intro w
      have hentries := congrArg Value.dict (Mapping.ofEntries_distinct hkeys hnodup)
      rw [plain, Value.isShort, exceptMap_ok]
      constructor
      · rintro ⟨fs, hfs, rfl⟩
        obtain ⟨hshort, rfl⟩ := (plainEntries_iff hkeys ih fs).mp hfs
        exact ⟨hshort, hentries⟩
      · rintro ⟨hshort, rfl⟩
        exact ⟨es, (plainEntries_iff hkeys ih es).mpr ⟨hshort, rfl⟩, hentries⟩

end Json

/-! ## Parts of the report -/

namespace Value

/-- Are the values of all fields plain data? -/
def FieldsPlain : List (String × Value) → Prop
  | []      => True
  | f :: fs => f.2.Plain ∧ FieldsPlain fs

theorem FieldsPlain.record {fields : List (String × Value)} (h : FieldsPlain fields)
    (hnames : (fields.map Prod.fst).Nodup) : (Value.record fields).Plain := by
  refine record_plain hnames ?_
  clear hnames
  induction fields with
  | nil => exact fun f hf => absurd hf List.not_mem_nil
  | cons f fields ih => exact List.forall_mem_cons.mpr ⟨h.1, ih h.2⟩

theorem texts_plain (ss : List String) : (Value.texts ss).Plain := by
  refine .list fun v hv => ?_
  obtain ⟨s, _, rfl⟩ := List.mem_map.mp hv
  exact .str s

theorem optionalText_plain (s : Option String) : (Value.optionalText s).Plain := by
  cases s with
  | none   => exact .null
  | some s => exact .str s

end Value

/-- A tally tells each name once. -/
theorem tally_nodup (names : List String) : ((tally names).map Prod.fst).Nodup := by
  unfold tally
  induction names using List.reverseRecOn with
  | nil => exact List.nodup_nil
  | append_singleton names n ih =>
      rw [List.foldl_append, List.foldl_cons, List.foldl_nil]
      split
      · have hnames (counts : List (String × Nat)) :
            (counts.map fun c => if c.1 == n then (c.1, c.2 + 1) else c).map Prod.fst =
              counts.map Prod.fst := by
          rw [List.map_map]
          refine List.map_congr_left fun c _ => ?_
          rw [Function.comp_apply]
          split <;> rfl
        rw [hnames]
        exact ih
      · rename_i hnew
        rw [List.map_append, List.map_singleton, ← List.concat_eq_append]
        refine (List.nodup_concat _ _).mpr ⟨fun hmem => hnew ?_, ih⟩
        obtain ⟨c, hc, rfl⟩ := List.mem_map.mp hmem
        exact List.any_eq_true.mpr ⟨c, hc, beq_self_eq_true _⟩

theorem tallyValue_plain (names : List String) : (tallyValue names).Plain := by
  unfold tallyValue
  refine Value.record_plain ?_ fun f hf => ?_
  · rw [List.map_map]
    exact tally_nodup names
  · obtain ⟨c, _, rfl⟩ := List.mem_map.mp hf
    exact .int _

theorem History.analysis_plain (rs : List TransitionRecord) : (History.analysis rs).Plain :=
  Value.FieldsPlain.record ⟨.int _, .int _, tallyValue_plain _, tallyValue_plain _, .int _,
    trivial⟩ (by simp)

theorem RollbackPoint.toValue_plain (p : RollbackPoint) : p.toValue.Plain :=
  Value.FieldsPlain.record ⟨.str _, Value.optionalText_plain _, .int _, .str _, trivial⟩ (by simp)

theorem points_plain (ps : List RollbackPoint) : (Value.list (ps.map (·.toValue))).Plain := by
  refine .list fun v hv => ?_
  obtain ⟨p, _, rfl⟩ := List.mem_map.mp hv
  exact p.toValue_plain

theorem RecoveryOption.toValue_plain (o : RecoveryOption) : o.toValue.Plain := by
  unfold RecoveryOption.toValue
  split
  · exact Value.FieldsPlain.record ⟨.str _, .str _, .str _, trivial⟩ (by simp)
  · exact Value.FieldsPlain.record ⟨.str _, .str _, .str _, points_plain _, trivial⟩ (by simp)

theorem IntegrityReport.toValue_plain (r : IntegrityReport) : r.toValue.Plain :=
  Value.FieldsPlain.record ⟨.bool _, Value.texts_plain _, .str _, Value.texts_plain _, trivial⟩
    (by simp)

/-- Is the execution made of what its fields are for: texts as id and names, a map as
    context and a time with a zone?  What the map holds is open. -/
structure Execution.WellTyped (e : Execution) : Prop where
  ownsId   : e.OwnsId
  workflow : ∃ name, e.workflowName = .str name
  current  : ∃ step, e.currentStep = .str step
  context  : ∃ entries, e.context = .dict entries
  updated  : e.updatedAt.isAware = true

/-- Is there a result, and is it plain data? -/
def GivesPlain (x : Except Failure Value) : Prop := ∃ v, x = .ok v ∧ v.Plain

theorem GivesPlain.bind {α : Type} {x : Except Failure α} {f : α → Except Failure Value} {a : α}
    (hx : x = .ok a) (hf : GivesPlain (f a)) : GivesPlain (x >>= f) := hx ▸ hf

theorem givesPlain_pure {v : Value} (h : v.Plain) : GivesPlain (pure v) := ⟨v, rfl, h⟩

namespace Engine

variable {g : Engine} {e : Execution} {d : Option Definition} {now : Timestamp}

theorem exists_definitionFor (he : e.WellTyped) : ∃ d, g.definitionFor e = .ok d := by
  obtain ⟨name, hname⟩ := he.workflow
  exact ⟨_, if_pos (hname ▸ rfl)⟩

theorem currentStep_plain (he : e.WellTyped) : e.currentStep.Plain := by
  obtain ⟨step, hstep⟩ := he.current
  exact hstep ▸ .str step

theorem workflowName_plain (he : e.WellTyped) : e.workflowName.Plain := by
  obtain ⟨name, hname⟩ := he.workflow
  exact hname ▸ .str name

theorem idValue_plain (he : e.WellTyped) : e.idValue.Plain := by
  rw [he.ownsId]
  exact .str _

theorem recoveryState_plain (he : e.WellTyped) : (recoveryState e).Plain :=
  Value.FieldsPlain.record ⟨currentStep_plain he, .str _, .str _, .int _, .int _, trivial⟩
    (by simp)

theorem dataIntegrity_plain (he : e.WellTyped) : GivesPlain (g.dataIntegrity e) := by
  obtain ⟨d, hd⟩ := exists_definitionFor (g := g) he
  have hscore : ∃ n, g.integrityScore e = .ok n := by
    unfold integrityScore integrityIssues
    rw [hd]
    exact ⟨_, rfl⟩
  obtain ⟨score, hscore⟩ := hscore
  refine .bind hscore (.bind hd (givesPlain_pure ?_))
  exact Value.FieldsPlain.record ⟨.bool _, .bool _, .bool _, .int _, trivial⟩ (by simp)

theorem exists_rollbackPoints (he : e.WellTyped) : ∃ ps, g.rollbackPoints e = .ok ps := by
  obtain ⟨d, hd⟩ := exists_definitionFor (g := g) he
  obtain ⟨step, hstep⟩ := he.current
  unfold rollbackPoints
  rw [hd, hstep]
  cases d with
  | none   => exact ⟨_, rfl⟩
  | some d =>
      cases e.history with
      | nil       => exact ⟨_, rfl⟩
      | cons r rs => exact ⟨_, rfl⟩

theorem recoveryBlockers_of_wellTyped (he : e.WellTyped) :
    g.recoveryBlockers e = .ok ((Blocker.holding g e).map (Blocker.text e)) := by
  obtain ⟨name, hname⟩ := he.workflow
  exact recoveryBlockers_eq (hname ▸ rfl)

/-- There is a plan, or there are reasons why there is none. -/
theorem recoveryPlan_plain (he : e.WellTyped) : GivesPlain (g.recoveryPlan e) := by
  obtain ⟨points, hpoints⟩ := exists_rollbackPoints (g := g) he
  obtain ⟨integrity, hintegrity, hplain⟩ := dataIntegrity_plain (g := g) he
  refine .bind (recoveryBlockers_of_wellTyped he) ?_
  split
  · exact givesPlain_pure
      (Value.FieldsPlain.record ⟨.str _, Value.texts_plain _, trivial⟩ (by simp))
  · refine .bind hpoints (.bind hintegrity (givesPlain_pure ?_))
    have hoptions (os : List RecoveryOption) : (Value.list (os.map (·.toValue))).Plain := by
      refine .list fun v hv => ?_
      obtain ⟨o, _, rfl⟩ := List.mem_map.mp hv
      exact o.toValue_plain
    exact Value.FieldsPlain.record ⟨recoveryState_plain he, hoptions _, .str _, points_plain _,
      hplain, Value.texts_plain _, trivial⟩ (by simp)

/-- What is said of the context, whatever it holds. -/
theorem contextAnalysis_plain (he : e.WellTyped) : GivesPlain (contextAnalysis e) := by
  obtain ⟨entries, hcontext⟩ := he.context
  have hpublic : e.publicContext = .ok (Mapping.copyTop entries fun k => !isReserved k) := by
    rw [Execution.publicContext, Execution.entries, hcontext]
    rfl
  refine .bind hpublic (givesPlain_pure ?_)
  exact Value.FieldsPlain.record ⟨.int _, .int _, tallyValue_plain _, .int _, .int _, .int _,
    trivial⟩ (by simp)

theorem validationStatus_plain (he : e.WellTyped) : GivesPlain (g.validationStatus e) := by
  obtain ⟨d, hd⟩ := exists_definitionFor (g := g) he
  obtain ⟨entries, hcontext⟩ := he.context
  have hmissing : ∃ ks, missingKeys d e.context = .ok ks := by
    rw [hcontext]
    cases d <;> exact ⟨_, rfl⟩
  obtain ⟨missing, hmissing⟩ := hmissing
  have hissues : ∃ issues, g.stateIssues e = .ok issues :=
    ⟨_, exceptBind_ok.mpr ⟨d, hd, exceptBind_ok.mpr ⟨missing, hmissing, rfl⟩⟩⟩
  obtain ⟨issues, hissues⟩ := hissues
  refine .bind hissues (givesPlain_pure ?_)
  exact Value.FieldsPlain.record ⟨.bool _, .int _, Value.texts_plain _, trivial⟩ (by simp)

/-- Signs of trouble are found when the time since the last update can be compared with the
    span that the settings allow. -/
theorem potentialIssues_ok_iff (he : e.WellTyped) (hnow : now.isAware = true) :
    (∃ signs, g.potentialIssues now e = .ok signs) ↔
      ∃ limit, spanMicros 3600 (.real g.settings.recovery.staleAfterHours) = .ok limit := by
  obtain ⟨d, hd⟩ := exists_definitionFor (g := g) he
  have hidle : elapsedMicros now e.updatedAt = .ok (now.instant - e.updatedAt.instant) := by
    unfold elapsedMicros Timestamp.since?
    rw [if_pos (hnow.trans he.updated.symm)]
  have hstale : g.isStale now e =
      ((spanMicros 3600 (.real g.settings.recovery.staleAfterHours)).mapError spanFailure).map
        fun limit => decide (now.instant - e.updatedAt.instant > limit) := by
    unfold isStale
    rw [hidle]
    rfl
  unfold potentialIssues
  rw [hstale, hd]
  cases spanMicros 3600 (.real g.settings.recovery.staleAfterHours) with
  | ok limit  => exact iff_of_true ⟨_, rfl⟩ ⟨limit, rfl⟩
  | error err => exact iff_of_false nofun nofun

theorem executionSummary_plain (he : e.WellTyped) : (executionSummary e).Plain :=
  Value.FieldsPlain.record ⟨idValue_plain he, workflowName_plain he, .str _,
    currentStep_plain he, .str _, .str _, .str _, .int _, trivial⟩ (by simp)

theorem stepState_plain (he : e.WellTyped) : (stepState d e).Plain :=
  Value.FieldsPlain.record ⟨currentStep_plain he, Value.optionalText_plain _,
    Value.texts_plain _, .int _, .bool _, .bool _, trivial⟩ (by simp)

theorem openActions_plain :
    (Value.list ((openDetails d e).map fun a => .record (openActionFields a))).Plain := by
  refine .list fun v hv => ?_
  obtain ⟨a, _, rfl⟩ := List.mem_map.mp hv
  exact Value.FieldsPlain.record
    ⟨.str _, .str _, Value.optionalText_plain _, .bool _, trivial⟩ (by simp [openActionFields])

theorem potentialIssues_of_debugReport {report : Value} (h : g.debugReport now e = .ok report) :
    ∃ signs, g.potentialIssues now e = .ok signs := by
  obtain ⟨_, _, h⟩ := exceptBind_ok.mp h
  obtain ⟨_, _, h⟩ := exceptBind_ok.mp h
  obtain ⟨_, _, h⟩ := exceptBind_ok.mp h
  obtain ⟨signs, hsigns, _⟩ := exceptBind_ok.mp h
  exact ⟨signs, hsigns⟩

/-- The report is there when signs of trouble can be looked for. -/
theorem debugReport_plain (he : e.WellTyped) {signs : List String}
    (hsigns : g.potentialIssues now e = .ok signs) : GivesPlain (g.debugReport now e) := by
  obtain ⟨d, hd⟩ := exists_definitionFor (g := g) he
  obtain ⟨context, hcontext, hplain⟩ := contextAnalysis_plain he
  obtain ⟨status, hstatus, hplain'⟩ := validationStatus_plain (g := g) he
  refine .bind hd (.bind hcontext (.bind hstatus (.bind hsigns (givesPlain_pure ?_))))
  exact Value.FieldsPlain.record ⟨executionSummary_plain he, stepState_plain he,
    openActions_plain, hplain, hplain', History.analysis_plain _, Value.texts_plain _,
    trivial⟩ (by simp)

end Engine

/-! ## Stored checkpoints -/

namespace Checkpoint

variable {e : Execution} {now : Timestamp} {s : Serials} {d : Value} {ds : List Value}

/-- Can the document be read, and has what is read a time with a zone? -/
def Dated (now : Timestamp) (d : Value) : Prop :=
  ∃ c, read now "" d = .ok c ∧ c.createdAt.isAware = true

/-- Are the stored checkpoints a list, or nothing, and is each of them dated? -/
def Listable (now : Timestamp) (e : Execution) : Prop :=
  ∃ ds, stored e = .ok ds ∧ ∀ d ∈ Value.detachedItems ds, Dated now d

/-- Whether a document can be read, and its time, do not depend on the id that it gets. -/
theorem read_freshId {freshId : String} {c : Checkpoint} (h : read now freshId d = .ok c)
    (freshId' : String) :
    ∃ c', read now freshId' d = .ok c' ∧ c'.createdAt = c.createdAt := by
  cases d with
  | dict m =>
      obtain ⟨_, creator, h₁, hcreator, rfl⟩ := Checked.seq_ok.mp h
      obtain ⟨_, created, h₂, hcreated, rfl⟩ := Checked.seq_ok.mp h₁
      obtain ⟨_, history, h₃, hhistory, rfl⟩ := Checked.seq_ok.mp h₂
      obtain ⟨_, context, h₄, hcontext, rfl⟩ := Checked.seq_ok.mp h₃
      obtain ⟨_, status, h₅, hstatus, rfl⟩ := Checked.seq_ok.mp h₄
      obtain ⟨_, step, h₆, hstep, rfl⟩ := Checked.seq_ok.mp h₅
      obtain ⟨_, label, h₇, hlabel, rfl⟩ := Checked.seq_ok.mp h₆
      obtain ⟨id, hid, rfl⟩ := Checked.map_ok.mp h₇
      obtain ⟨id', hid'⟩ : ∃ id', Checked.field m "" "id" (some freshId') Lax.text = .ok id' := by
        unfold Checked.field at hid ⊢
        cases hm : Mapping.get? m "id" with
        | none   => exact ⟨freshId', rfl⟩
        | some v =>
            rw [hm] at hid
            exact ⟨id, hid⟩
      refine ⟨⟨id', label, step, status, context, history, created, creator⟩, ?_, rfl⟩
      rw [read, hid', hlabel, hstep, hstatus, hcontext, hhistory, hcreated, hcreator]
      rfl
  | _ => cases h

theorem listed_ok_iff {c : Checkpoint} (hnow : now.isAware = true) :
    (∃ v, listed now c = .ok v) ↔ c.createdAt.isAware = true := by
  unfold listed elapsedMicros Timestamp.since?
  rw [hnow]
  cases c.createdAt.isAware with
  | true  => exact iff_of_true ⟨_, rfl⟩ rfl
  | false => exact iff_of_false nofun nofun

theorem listed_plain {c : Checkpoint} {v : Value} (h : listed now c = .ok v) : v.Plain := by
  obtain ⟨age, _, h⟩ := exceptBind_ok.mp h
  rw [← Except.ok.inj h]
  exact Value.FieldsPlain.record ⟨.str _, .str _, .str _, .str _, .str _, trivial⟩ (by simp)

/-- Each entry of the listing is one of a checkpoint. -/
theorem listAll_forall₂ {cs : List Checkpoint} {vs : List Value} (h : listAll now cs = .ok vs) :
    List.Forall₂ (fun c v => listed now c = .ok v) cs vs := by
  induction cs generalizing vs with
  | nil =>
      rw [← Except.ok.inj h]
      exact .nil
  | cons c cs ih =>
      obtain ⟨v, hv, h⟩ := exceptBind_ok.mp h
      obtain ⟨vs', hvs, h⟩ := exceptBind_ok.mp h
      rw [← Except.ok.inj h]
      exact .cons hv (ih hvs)

theorem listing_plain {vs : List Value} {s' : Serials}
    (h : (listing e).runAt now s = (.ok vs, s')) : (Value.list vs).Plain := by
  obtain ⟨cs, s₁, _, h₁⟩ := Draft.runAt_bind_ok.mp h
  obtain ⟨_, _, _, h₂⟩ := Draft.runAt_bind_ok.mp h₁
  rw [Draft.runAt_ofExcept] at h₂
  have hlisted := listAll_forall₂ (Prod.mk.inj h₂).1
  refine .list fun v hv => ?_
  obtain ⟨c, _, hc⟩ := exists_of_forall₂ hlisted v hv
  exact listed_plain hc

/-- Dated documents are read, whatever ids they get. -/
theorem readAll_of_dated (h : ∀ d ∈ ds, Dated now d) : ∃ cs s',
    (readAll e ds).runAt now s = (.ok cs, s') ∧ ∀ c ∈ cs, c.createdAt.isAware = true := by
  induction ds generalizing s with
  | nil => exact ⟨[], s, rfl, fun c hc => absurd hc List.not_mem_nil⟩
  | cons d ds ih =>
      obtain ⟨⟨c, hread, haware⟩, hds⟩ := List.forall_mem_cons.mp h
      obtain ⟨freshId, s₁, hfresh⟩ : ∃ freshId s₁,
          (if lacksId d then Draft.checkpointId else pure "" : Draft String).runAt now s =
            (.ok freshId, s₁) := by
        split
        · exact ⟨_, _, Draft.runAt_checkpointId now s⟩
        · exact ⟨_, _, rfl⟩
      obtain ⟨c', hread', hcreated⟩ := read_freshId hread freshId
      obtain ⟨cs, s', hcs, hall⟩ := ih (s := s₁) hds
      refine ⟨c' :: cs, s', ?_, List.forall_mem_cons.mpr ⟨hcreated ▸ haware, hall⟩⟩
      refine Draft.runAt_ite_bind_ok.mpr ⟨freshId, s₁, hfresh, ?_⟩
      refine Draft.runAt_bind_ok.mpr ⟨now, s₁, rfl, ?_⟩
      rw [hread']
      exact Draft.runAt_bind_ok.mpr ⟨cs, s', hcs, rfl⟩

/-- The checkpoints are listed exactly when they are listable. -/
theorem listing_ok_iff (hnow : now.isAware = true) :
    (∃ vs s', (listing e).runAt now s = (.ok vs, s')) ↔ Listable now e := by
  constructor
  · rintro ⟨vs, s', h⟩
    obtain ⟨cs, s₁, hload, h⟩ := Draft.runAt_bind_ok.mp h
    obtain ⟨ds, hstored, hread⟩ := Draft.runAt_ofExcept_bind_ok.mp hload
    obtain ⟨_, _, hmoment, h⟩ := Draft.runAt_bind_ok.mp h
    rw [Draft.runAt_ofExcept] at h
    cases hmoment
    have hlisted := listAll_forall₂ (Prod.mk.inj h).1
    refine ⟨ds, hstored, fun d hd => ?_⟩
    obtain ⟨c, hc, freshId, hreads⟩ := exists_of_forall₂ (readAll_ok hread).flip d hd
    obtain ⟨v, _, hv⟩ := exists_of_forall₂ hlisted.flip c hc
    obtain ⟨c', hreads', hcreated⟩ := read_freshId hreads ""
    exact ⟨c', hreads', hcreated ▸ (listed_ok_iff hnow).mp ⟨v, hv⟩⟩
  · rintro ⟨ds, hstored, hdated⟩
    obtain ⟨cs, s', hread, haware⟩ := readAll_of_dated (e := e) (s := s) hdated
    obtain ⟨vs, hvs⟩ := listAll_ok fun c hc => (listed_ok_iff hnow).mpr (haware c hc)
    refine ⟨vs, s', Draft.runAt_bind_ok.mpr ⟨cs, s', ?_, ?_⟩⟩
    · exact Draft.runAt_ofExcept_bind_ok.mpr ⟨ds, hstored, hread⟩
    · refine Draft.runAt_bind_ok.mpr ⟨now, s', rfl, ?_⟩
      rw [Draft.runAt_ofExcept, hvs]

end Checkpoint

/-! ## Diagnostics -/

/-- What stands in nested records under some names. -/
def Value.at? : List String → Value → Option Value
  | [],      v       => some v
  | k :: ks, .dict m => (Mapping.field? m k).bind (at? ks)
  | _ :: _,  _       => none

namespace Engine

variable {g : Engine} {e : Execution} {now : Timestamp} {s s' : Serials} {data : Value}

/-- The data that the parts of the diagnostics make up. -/
def collected (e : Execution) (blockers : List String) (integrity : IntegrityReport)
    (plan : Value) (checkpoints : List Value) (now : Timestamp) (report : Value) : Value :=
  .record
    [ ("execution", .record
        [ ("id", e.idValue), ("workflow_name", e.workflowName),
          ("current_step", e.currentStep), ("status", .str e.status.text),
          ("context_size", .int e.contextSize) ]),
      ("recovery_analysis", .record
        [ ("can_recover", .bool blockers.isEmpty), ("blockers", .texts blockers),
          ("recovery_plan", plan) ]),
      ("integrity_check", integrity.toValue),
      ("available_checkpoints", .list checkpoints),
      ("debug_info", report),
      ("exported_at", .str now.isoText) ]

theorem collected_plain (he : e.WellTyped) (blockers : List String)
    (integrity : IntegrityReport) {plan report : Value} {checkpoints : List Value}
    (hplan : plan.Plain) (hcheckpoints : (Value.list checkpoints).Plain)
    (hreport : report.Plain) :
    (collected e blockers integrity plan checkpoints now report).Plain := by
  have hexecution : (Value.record [("id", e.idValue), ("workflow_name", e.workflowName),
      ("current_step", e.currentStep), ("status", .str e.status.text),
      ("context_size", .int e.contextSize)]).Plain :=
    Value.FieldsPlain.record ⟨idValue_plain he, workflowName_plain he, currentStep_plain he,
      .str _, .int _, trivial⟩ (by simp)
  have hrecovery : (Value.record [("can_recover", .bool blockers.isEmpty),
      ("blockers", .texts blockers), ("recovery_plan", plan)]).Plain :=
    Value.FieldsPlain.record ⟨.bool _, Value.texts_plain _, hplan, trivial⟩ (by simp)
  exact Value.FieldsPlain.record ⟨hexecution, hrecovery, integrity.toValue_plain,
    hcheckpoints, hreport, .str _, trivial⟩ (by simp)

/-- What is collected is plain data, in which blockers and issues stand with their
    verdicts. -/
theorem diagnosticsData_parts (he : e.WellTyped)
    (h : (g.diagnosticsData e).runAt now s = (.ok data, s')) :
    data.Plain ∧ ∃ blockers issues, g.recoveryBlockers e = .ok blockers ∧
      g.integrityIssues e = .ok issues ∧
      data.at? ["recovery_analysis", "blockers"] = some (.texts blockers) ∧
      data.at? ["recovery_analysis", "can_recover"] = some (.bool blockers.isEmpty) ∧
      data.at? ["integrity_check", "issues"] = some (.texts issues) ∧
      data.at? ["integrity_check", "is_valid"] = some (.bool issues.isEmpty) := by
  obtain ⟨blockers, hblockers, h⟩ := Draft.runAt_ofExcept_bind_ok.mp h
  obtain ⟨integrity, hintegrity, h⟩ := Draft.runAt_ofExcept_bind_ok.mp h
  obtain ⟨plan, hplan, h⟩ := Draft.runAt_ofExcept_bind_ok.mp h
  obtain ⟨checkpoints, s₁, hlisting, h⟩ := Draft.runAt_bind_ok.mp h
  obtain ⟨_, _, hmoment, h⟩ := Draft.runAt_bind_ok.mp h
  cases hmoment
  obtain ⟨report, hreport, h⟩ := Draft.runAt_ofExcept_bind_ok.mp h
  obtain ⟨rfl, rfl⟩ := Draft.runAt_pure_ok.mp h
  obtain ⟨issues, hissues, rfl⟩ := exceptMap_ok.mp hintegrity
  refine ⟨?_, blockers, issues, hblockers, hissues, rfl, rfl, rfl, rfl⟩
  obtain ⟨plan', hplan', hplanPlain⟩ := recoveryPlan_plain (g := g) he
  obtain ⟨signs, hsigns⟩ := potentialIssues_of_debugReport hreport
  obtain ⟨report', hreport', hreportPlain⟩ := debugReport_plain he hsigns
  rw [hplan] at hplan'
  rw [hreport] at hreport'
  exact collected_plain he blockers _ (Except.ok.inj hplan' ▸ hplanPlain)
    (Checkpoint.listing_plain hlisting) (Except.ok.inj hreport' ▸ hreportPlain)

/-- The parts can be collected when the checkpoints are listable and the span after which
    an execution counts as stale can be told. -/
theorem diagnosticsData_ok_iff (he : e.WellTyped) (hnow : now.isAware = true) :
    (∃ data s', (g.diagnosticsData e).runAt now s = (.ok data, s')) ↔
      Checkpoint.Listable now e ∧
        ∃ limit, spanMicros 3600 (.real g.settings.recovery.staleAfterHours) = .ok limit := by
  rw [← Checkpoint.listing_ok_iff hnow (s := s), ← potentialIssues_ok_iff he hnow]
  constructor
  · rintro ⟨data, s', h⟩
    obtain ⟨_, _, h⟩ := Draft.runAt_ofExcept_bind_ok.mp h
    obtain ⟨_, _, h⟩ := Draft.runAt_ofExcept_bind_ok.mp h
    obtain ⟨_, _, h⟩ := Draft.runAt_ofExcept_bind_ok.mp h
    obtain ⟨checkpoints, s₁, hlisting, h⟩ := Draft.runAt_bind_ok.mp h
    obtain ⟨_, _, hmoment, h⟩ := Draft.runAt_bind_ok.mp h
    cases hmoment
    obtain ⟨report, hreport, _⟩ := Draft.runAt_ofExcept_bind_ok.mp h
    exact ⟨⟨checkpoints, s₁, hlisting⟩, potentialIssues_of_debugReport hreport⟩
  · rintro ⟨⟨checkpoints, s₁, hlisting⟩, signs, hsigns⟩
    obtain ⟨d, hd⟩ := exists_definitionFor (g := g) he
    obtain ⟨blockers, hblockers⟩ : ∃ bs, g.recoveryBlockers e = .ok bs :=
      ⟨_, recoveryBlockers_of_wellTyped he⟩
    obtain ⟨plan, hplan, _⟩ := recoveryPlan_plain (g := g) he
    obtain ⟨report, hreport, _⟩ := debugReport_plain he hsigns
    have hintegrity : ∃ r, g.integrity e = .ok r := by
      unfold integrity integrityIssues
      rw [hd]
      exact ⟨_, rfl⟩
    obtain ⟨integrity, hintegrity⟩ := hintegrity
    refine ⟨collected e blockers integrity plan checkpoints now report, s₁,
      Draft.runAt_ofExcept_bind_ok.mpr ⟨blockers, hblockers, ?_⟩⟩
    refine Draft.runAt_ofExcept_bind_ok.mpr ⟨integrity, hintegrity, ?_⟩
    refine Draft.runAt_ofExcept_bind_ok.mpr ⟨plan, hplan, ?_⟩
    refine Draft.runAt_bind_ok.mpr ⟨checkpoints, s₁, hlisting, ?_⟩
    refine Draft.runAt_bind_ok.mpr ⟨now, s₁, rfl, ?_⟩
    exact Draft.runAt_ofExcept_bind_ok.mpr ⟨report, hreport, rfl⟩

/-- The report is what was collected, as far as its numbers can be written. -/
theorem diagnostics_ok_iff (he : e.WellTyped) {report : Value} :
    (g.diagnostics e "dict").runAt now s = (.ok report, s') ↔
      (g.diagnosticsData e).runAt now s = (.ok report, s') ∧ report.isShort = true := by
  have hformat : ¬ "dict" = "json" := by decide
  constructor
  · intro h
    obtain ⟨data, s₁, hdata, h⟩ := Draft.runAt_bind_ok.mp h
    obtain ⟨w, hw, h⟩ := Draft.runAt_ofExcept_bind_ok.mp h
    rw [if_neg hformat, if_pos (.inl rfl)] at h
    obtain ⟨rfl, rfl⟩ := Draft.runAt_pure_ok.mp h
    have hform : Json.plain data = .ok w := by
      cases hplain : Json.plain data with
      | ok v      => exact congrArg _ (Except.ok.inj (hplain ▸ hw))
      | error err => exact nomatch hplain ▸ hw
    obtain ⟨hshort, rfl⟩ :=
      (Json.keepsForm_of_plain (diagnosticsData_parts he hdata).1 w).mp hform
    exact ⟨hdata, hshort⟩
  · rintro ⟨hdata, hshort⟩
    have hform := (Json.keepsForm_of_plain (diagnosticsData_parts he hdata).1 report).mpr
      ⟨hshort, rfl⟩
    refine Draft.runAt_bind_ok.mpr ⟨report, s', hdata, ?_⟩
    refine Draft.runAt_ofExcept_bind_ok.mpr ⟨report, by rw [hform]; rfl, ?_⟩
    rw [if_neg hformat, if_pos (.inl rfl)]
    rfl

/-- There is a report on an execution, whatever its state, exactly when its stored
    checkpoints are listable, as far as settings and sizes are within bounds.  The report
    tells that the execution can be recovered when it names no blocker, and that it is
    valid when it names no issue. -/
theorem diagnostics_reports (he : e.WellTyped) (hnow : now.isAware = true) (s : Serials) :
    ((∃ report s', (g.diagnostics e "dict").runAt now s = (.ok report, s')) ↔
      Checkpoint.Listable now e ∧
      (∃ limit, spanMicros 3600 (.real g.settings.recovery.staleAfterHours) = .ok limit) ∧
      ∀ data s', (g.diagnosticsData e).runAt now s = (.ok data, s') → data.isShort = true) ∧
    ∀ report s', (g.diagnostics e "dict").runAt now s = (.ok report, s') →
      ∃ blockers issues, g.recoveryBlockers e = .ok blockers ∧
        g.integrityIssues e = .ok issues ∧
        report.at? ["recovery_analysis", "blockers"] = some (.texts blockers) ∧
        report.at? ["recovery_analysis", "can_recover"] = some (.bool blockers.isEmpty) ∧
        report.at? ["integrity_check", "issues"] = some (.texts issues) ∧
        report.at? ["integrity_check", "is_valid"] = some (.bool issues.isEmpty) := by
  refine ⟨?_, fun report s' h =>
    (diagnosticsData_parts he ((diagnostics_ok_iff he).mp h).1).2⟩
  rw [← and_assoc, ← diagnosticsData_ok_iff he hnow (s := s)]
  constructor
  · rintro ⟨report, s', h⟩
    obtain ⟨hdata, hshort⟩ := (diagnostics_ok_iff he).mp h
    refine ⟨⟨report, s', hdata⟩, fun data s'' hdata' => ?_⟩
    rw [hdata] at hdata'
    exact Except.ok.inj (Prod.mk.inj hdata').1 ▸ hshort
  · rintro ⟨⟨data, s', hdata⟩, hshort⟩
    exact ⟨data, s', (diagnostics_ok_iff he).mpr ⟨hdata, hshort data s' hdata⟩⟩

/-- A crate with given context data. -/
def packedCrate (entries : Mapping) : Execution :=
  { crate "exec-1" .null with context := .dict entries }

/-- A context that leads back to itself does not stand in the way of a report. -/
theorem loopedCrate_reported :
    let looped := packedCrate [(.str "box", .up 0)]
    looped.WellTyped ∧ Timestamp.defaultNow.isAware = true ∧
      ∃ report s', (diagnostics {} looped "dict").runAt .defaultNow {} = (.ok report, s') := by
  intro looped
  have hlooped : looped.WellTyped := ⟨rfl, ⟨_, rfl⟩, ⟨_, rfl⟩, ⟨_, rfl⟩, rfl⟩
  refine ⟨hlooped, rfl, (diagnostics_reports hlooped rfl {}).1.mpr ⟨?_, ?_, ?_⟩⟩
  · exact ⟨[], rfl, fun d hd => absurd hd List.not_mem_nil⟩
  · have hspan : (spanMicros 3600 (.real
        ({} : Engine).settings.recovery.staleAfterHours)).toOption.isSome = true := by
      decide +kernel
    cases h : spanMicros 3600 (.real ({} : Engine).settings.recovery.staleAfterHours) with
    | ok limit  => exact ⟨limit, rfl⟩
    | error err => exact nomatch h ▸ hspan
  · intro data s' h
    have hshort : ((((diagnosticsData {} looped).runAt .defaultNow {}).1.toOption.map
        Value.isShort).getD true) = true := by decide +kernel
    rw [h] at hshort
    exact hshort

/-- But a text does where the checkpoints are stored. -/
theorem lostCrate_unreported :
    let lost := packedCrate [(.str checkpointsKey, .str "lost")]
    lost.WellTyped ∧ Timestamp.defaultNow.isAware = true ∧
      ((diagnostics {} lost "dict").runAt .defaultNow {}).1.toOption.isNone = true := by
  intro lost
  refine ⟨⟨rfl, ⟨_, rfl⟩, ⟨_, rfl⟩, ⟨_, rfl⟩, rfl⟩, rfl, ?_⟩
  decide +kernel

end Engine

end Workflow
