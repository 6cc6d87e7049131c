import Workflow.Proofs.Status
import Workflow.Proofs.Undo

/-! # Backup — what a recovery keeps of the state that it replaces

    A recovery that moves an execution, and a restoration, store a checkpoint of the
    snapshot that they replace, in the same commit: its document is the last of the list,
    however few there is room for and whatever the snapshot has come to.  A repair stores
    none, also when it resets the step.

    The heart is `Engine.Stows.captures`: what is stored with a checkpoint is a document
    that holds the snapshot, behind those that the snapshot had. -/

namespace Workflow

open Checkpoint

variable {g : Engine} {base p e : Execution} {m : Moment} {op : Operation} {d : Value}
  {ds : List Value} {entries : Mapping}

namespace Checkpoint

/-- Does the document hold the step, the status, the history and the context of the
    snapshot, but for the checkpoints in the context? -/
def Captures (base : Execution) (d : Value) : Prop :=
  ∃ (fields : Mapping) (step : String), d = .dict fields ∧
    Lax.textOf? base.currentStep = some step ∧
    fields.field? "captured_step" = some (.str step) ∧
    fields.field? "captured_status" = some (.str base.status.text) ∧
    fields.field? "captured_history" = some (Document.ofHistory base.history) ∧
    fields.field? "captured_context" = some (base.context.without (.str checkpointsKey))

/-- Is the document read, whenever that is, as a checkpoint with the step, the status, the
    history and the context of the snapshot? -/
def Recalls (base : Execution) (d : Value) : Prop :=
  ∃ c, Reads d c ∧ Lax.textOf? base.currentStep = some c.capturedStep ∧
    c.capturedStatus = base.status ∧ c.capturedHistory = base.history ∧
    c.capturedContext.map Value.dict = some (base.context.without (.str checkpointsKey))

/-- The document of a checkpoint that was taken of a plain snapshot holds the snapshot. -/
theorem captures_taken (he : base.context = .dict entries) (hplain : (Value.dict entries).Plain)
    {step : String} (hstep : Lax.textOf? base.currentStep = some step) {id label : String}
    {now : Timestamp}
    (hd : (taken base id now label step (entries.erase checkpointsKey)).document = .ok d) :
    Captures base d ∧ (now.OnMinutes → (∀ r ∈ base.history, r.Lasts) → Recalls base d) := by
  have hcontext : base.context.without (.str checkpointsKey) =
      .dict (entries.erase checkpointsKey) := by
    rw [he]
    rfl
  constructor
  · rw [document_of_plain rfl (Mapping.plain_erase hplain _)] at hd
    obtain ⟨_, _, rfl⟩ := exceptMap_ok.mp hd
    refine ⟨_, step, rfl, hstep, rfl, rfl, rfl, ?_⟩
    rw [hcontext]
    rfl
  · intro hnow hhistory
    obtain ⟨o, hreads, ho⟩ := document_reads ⟨hnow, hhistory⟩ hd
    refine ⟨_, hreads, hstep, rfl, rfl, ?_⟩
    rw [hcontext, ho _ rfl (Mapping.plain_erase hplain _)]
    rfl

end Checkpoint

/-- What is stored with a checkpoint of a plain snapshot is a document that holds the
    snapshot, behind those that the snapshot had. -/
theorem Engine.Stows.captures {s : Serials} {onto context : Mapping} {c : Checkpoint}
    (h : g.Stows base m s onto c context) (hplain : base.context.Plain) :
    ∃ ds d, Checkpoint.stored base = .ok ds ∧ (∀ x ∈ ds ++ [d], x.Plain) ∧
      context = onto.set checkpointsKey
        (.list (newest g.settings.recovery.maxCheckpoints (ds ++ [d]))) ∧
      Captures base d ∧ (m.time.OnMinutes → (∀ r ∈ base.history, r.Lasts) → Recalls base d) := by
  obtain ⟨label, htaken⟩ := h.taken
  obtain ⟨entries, hentries, _⟩ := Draft.runAt_ofExcept_bind_ok.mp htaken
  have he : base.context = .dict entries := Execution.entries_ok.mp hentries
  have hstep := h.capturedStep_eq he
  rw [he] at hplain
  have hdocuments : ∀ ds, Checkpoint.stored base = .ok ds → ∀ x ∈ ds, x.Plain := by
    intro ds hds
    rcases field?_of_stored he hplain hds with rfl | hfield
    · exact fun x hx => absurd hx List.not_mem_nil
    · cases hplain.field? hfield with
      | list hitems => exact hitems
  obtain ⟨ds, d, hds, hd, hcontext⟩ :=
    h.context_eq fun ds hds x hx => (hdocuments ds hds x hx).closed
  obtain ⟨label', step, captured, _, _, hcaptured, rfl, _⟩ := capture_ok he htaken
  rw [Mapping.copyTop_erase (Mapping.plain_erase hplain _),
    mapping_of_plain (Mapping.plain_erase hplain _)] at hcaptured
  obtain rfl := Checked.ok.inj hcaptured
  refine ⟨ds, d, hds, fun x hx => ?_, hcontext, captures_taken he hplain hstep hd⟩
  rcases List.mem_append.mp hx with hx | hx
  · exact hdocuments ds hds x hx
  · rw [List.mem_singleton.mp hx]
    exact document_plain hd

/-- Are the stored documents those of the snapshot with one more behind them that holds it,
    as far as there is room? -/
def Engine.Retains (g : Engine) (base e : Execution) (d : Value) : Prop :=
  ∃ ds, stored base = .ok ds ∧
    stored e = .ok (newest g.settings.recovery.maxCheckpoints (ds ++ [d])) ∧
    (newest g.settings.recovery.maxCheckpoints (ds ++ [d])).getLast? = some d ∧ Captures base d

/-- So it stands in what is written over plain entries. -/
theorem Engine.Stows.retained {s : Serials} {onto context : Mapping} {c : Checkpoint}
    (h : g.Stows base m s onto c context) (hplain : base.context.Plain)
    (honto : (Value.dict onto).Plain) (he : e.context = .dict context)
    (hlimit : 1 ≤ g.settings.recovery.maxCheckpoints) :
    ∃ d, g.Retains base e d ∧
      (m.time.OnMinutes → (∀ r ∈ base.history, r.Lasts) → Recalls base d) := by
  obtain ⟨ds, d, hds, hdocuments, rfl, hcaptures, hrecalls⟩ := h.captures hplain
  refine ⟨d, ⟨ds, hds, stored_of_under he ?_ fun x hx => ?_, ?_, hcaptures⟩, hrecalls⟩
  · exact .inr (Mapping.under_set_of_plain honto _ _)
  · exact (hdocuments x (mem_of_mem_newest hx)).closed
  · obtain ⟨older, _, hnewest⟩ := newest_append ds [d] hlimit
    rw [hnewest, List.getLast?_concat]

/-- A recovery that moves the execution, and a restoration, back what they replace. -/
theorem Change.retains (h : Change g base m op p) (hop : op.Reopens)
    (hplain : base.context.Plain) (hlimit : 1 ≤ g.settings.recovery.maxCheckpoints)
    (he : e.context = p.context) :
    ∃ d, g.Retains base e d ∧
      (m.time.OnMinutes → (∀ r ∈ base.history, r.Lasts) → Recalls base d) := by
  cases h with
  | restored hfound hstows =>
      obtain ⟨ds, _, hds, hdocuments, _⟩ := hstows.captures hplain
      have hlisted : ∀ x ∈ ds, x.Plain := fun x hx => hdocuments x (List.mem_append_left _ hx)
      obtain ⟨_, ds', x, _, hds', hx, hread⟩ := find_ok (fun ds' hds' x hx => by
        obtain rfl := Except.ok.inj (hds.symm.trans hds')
        exact (hlisted x hx).closed) hfound
      obtain rfl := Except.ok.inj (hds.symm.trans hds')
      -- what is restored is read of a plain document
      exact hstows.retained hplain (plain_of_read (hlisted x hx) hread) he hlimit
  | moved _ _ _ _ _ _ hentries hstows =>
      exact hstows.retained hplain (hentries ▸ hplain) he hlimit
  | prepared hmanual _ _ => exact absurd hmanual hop
  | _ => exact hop.elim

/-- What is stored is told by what stands under the key of the checkpoints. -/
theorem Checkpoint.stored_of_under_eq {m₁ m₂ : Mapping} (hbase : base.context = .dict m₁)
    (he : e.context = .dict m₂) (hplain : (Value.dict m₁).Plain)
    (hunder : m₂.under checkpointsKey = m₁.under checkpointsKey) (h : stored base = .ok ds) :
    stored e = .ok ds := by
  have hfield : m₂.field? checkpointsKey = m₁.field? checkpointsKey := by
    rw [Mapping.field?_eq_head?, Mapping.field?_eq_head?, hunder]
  have hclosed : ∀ v, m₁.field? checkpointsKey = some v → v.Closed := fun v hv =>
    (hplain.field? hv).closed
  have hget : m₂.get? checkpointsKey = m₁.get? checkpointsKey := by
    rw [Mapping.get?_of_closed hclosed, Mapping.get?_of_closed (hfield ▸ hclosed), hfield]
  have hvalue : e.contextValue (.str checkpointsKey) .null =
      base.contextValue (.str checkpointsKey) .null := by
    unfold Execution.contextValue Execution.entries
    rw [he, hbase]
    exact congrArg (fun v : Option Value => Except.ok (v.getD .null)) hget
  obtain ⟨raw, hraw, h⟩ := exceptBind_ok.mp h
  refine exceptBind_ok.mpr ⟨raw, hvalue.trans hraw, ?_⟩
  split at h
  · rename_i hfalsy
    rw [if_pos hfalsy]
    exact h
  · rename_i htruthy
    rw [if_neg htruthy]
    split at h
    · exact h
    · exact nomatch h

/-- A repair leaves the checkpoints as they are, also when it resets the step. -/
theorem Change.keeps_checkpoints {t : Target} (h : Change g base m (.autoRepair t) p)
    (hkeys : ∀ d, g.definitionFor base = .ok (some d) → ∀ k ∈ d.requiredKeys,
      isReservedName k = false)
    (hbase : base.context = .dict entries) (hplain : (Value.dict entries).Plain)
    (he : e.context = p.context) (hds : stored base = .ok ds) : stored e = .ok ds := by
  have hfills {d : Definition} {context : Value} {missing : List String}
      (hdef : g.definitionFor base = .ok (some d))
      (hfill : Engine.fillContext d base.context = .ok (context, missing))
      (hp : p.context = context) : stored e = .ok ds := by
    rw [hbase] at hfill
    exact stored_of_under_eq hbase (he.trans (hp.trans (fillContext_dict hfill))) hplain
      (under_fillMissing d (hkeys d hdef) entries) hds
  cases h with
  | filled hdef hfill _ => exact hfills hdef hfill rfl
  | reset hdef hfill _ _ => exact hfills hdef hfill rfl

/-- Whatever a run has come to, a recovery that moves an execution and a restoration store,
    with what they put in the place of a plain snapshot, a document that holds this
    snapshot, the last of the list; it is read as a checkpoint of it, in a calendar of whole
    minutes from universal time.  A repair stores none: its list is that of the snapshot. -/
theorem replaced_state_kept {ι : Type} [DecidableEq ι] {ops : ι → Operation} {c : Climate}
    {w : World} {es : List (Event ι)} {s : System ι fun i => (ops i).Result}
    (hc : c.Contests) (hw : w.store.Keyed) (hlimit : 1 ≤ g.settings.recovery.maxCheckpoints)
    (hrun : System.Run c ⟨w, fun i => (ops i).client g⟩ es s) {i : ι} {v : Int}
    {next : Except Failure Execution → Client (ops i).Result}
    (hask : s.clients i = .ask (.save p v) next)
    (hsaved : (s.world.answer (.save p v)).1 = .ok e) :
    ∃ base, s.world.store.Replaces (s.world.answer (.save p v)).2.store base e ∧
      ∀ entries, base.context = .dict entries → (Value.dict entries).Plain →
        ((ops i).Reopens → ∃ d, g.Retains base e d ∧
          ((∀ now, c.calendar now → now.OnMinutes) → (∀ r ∈ base.history, r.Lasts) →
            Recalls base d)) ∧
        (∀ t, ops i = .autoRepair t →
          (∀ d, g.definitionFor base = .ok (some d) → ∀ k ∈ d.requiredKeys,
            isReservedName k = false) →
          ∀ ds, stored base = .ok ds → stored e = .ok ds) := by
  obtain ⟨base, m, hm, hchange, rfl, hreplaces, _⟩ :=
    Operation.commit_at_of_run hc hw hrun hask hsaved
  refine ⟨base, hreplaces, fun entries he hplain => ⟨fun hop => ?_, fun t ht hkeys ds hds => ?_⟩⟩
  · obtain ⟨d, hretains, hrecalls⟩ := hchange.retains hop (he ▸ hplain) hlimit
      (e := p.committed base.version s.world.now) rfl
    exact ⟨d, hretains, fun hcalendar => hrecalls (hcalendar _ (hrun.allowed.2 i m hm))⟩
  · rw [ht] at hchange
    exact hchange.keeps_checkpoints hkeys he hplain rfl hds

/-- What is replaced in memory was there. -/
theorem Store.Replaces.mem {kept : MemoryStore} {store : Store}
    (h : (Store.memory kept).Replaces store base e) : base ∈ kept.executions := by
  obtain ⟨old, _, hold, hshows, _⟩ := h
  obtain ⟨y, hy, rfl⟩ := Option.map_eq_some_iff.mp hold
  rw [← show y = base from hshows]
  exact List.mem_of_find?_eq_some hy

/-- A parcel that got lost is called back. -/
def callback : Operation := .recover (.id (.str "exec-1")) "reset" (.str "packed") false

/-- A client at this, on a parcel with a checkpoint of when it was packed. -/
def callbackDesk : System Unit fun _ => callback.Result :=
  ⟨parcelWorld (.memory ⟨[lostParcel (lostEntries [(.str "weight", .int 3)]) [sending 0] 3]⟩),
    fun _ => callback.client narrowEngine⟩

/-- Is it a lost parcel with a plain context and a history that lasts? -/
def Execution.isLost (x : Execution) : Bool :=
  x.currentStep.toText? = some "sent" && x.context.entries?.isSome && decide x.context.Plain &&
    x.history.all fun r => r.timestamp.offset = some 0 && r.actor.all (·.kind = .actor)

theorem Execution.lost_of_isLost {x : Execution} (h : x.isLost = true) :
    x.currentStep.toText? = some "sent" ∧ (∃ entries, x.context = .dict entries ∧
      (Value.dict entries).Plain) ∧ ∀ r ∈ x.history, r.Lasts := by
  unfold isLost at h
  simp only [Bool.and_eq_true, decide_eq_true_eq, List.all_eq_true] at h
  obtain ⟨⟨⟨hstep, hdict⟩, hplain⟩, hhistory⟩ := h
  refine ⟨hstep, ?_, fun r hr => ?_⟩
  · cases hcontext : x.context with
    | dict entries => exact ⟨entries, rfl, hcontext ▸ hplain⟩
    | _ => rw [hcontext] at hdict; exact nomatch hdict
  · obtain ⟨htime, hactor⟩ := hhistory r hr
    refine ⟨.universal htime, fun a ha => ?_⟩
    rw [ha] at hactor
    exact of_decide_eq_true hactor

/-- Does a store in memory hold lost parcels only? -/
def Store.holdsLost : Store → Bool
  | .memory kept => kept.executions.all Execution.isLost
  | .table _     => false

theorem Store.Replaces.isLost {store store' : Store} (h : store.Replaces store' base e)
    (hlost : store.holdsLost = true) : base.isLost = true := by
  cases store with
  | memory kept => exact List.all_eq_true.mp hlost base h.mem
  | table _     => exact nomatch hlost

/-- A parcel that is called back keeps what it was when it was on its way, also when there is
    room for one checkpoint only. -/
theorem callbackDesk_retains :
    let r := callbackDesk.follow [(), (), (), ()]
    ∃ p v next base e d, r.2.clients () = .ask (.save p v) next ∧
      (r.2.world.answer (.save p v)).1 = .ok e ∧
      r.2.world.store.Replaces (r.2.world.answer (.save p v)).2.store base e ∧
      base.currentStep.toText? = some "sent" ∧ e.currentStep.toText? = some "packed" ∧
      narrowEngine.Retains base e d ∧ Recalls base d := by
  intro r
  have huniversal : Climate.universal.Allows callbackDesk.world :=
    ⟨rfl, fun d h => absurd h List.not_mem_nil⟩
  have hrun : System.Run .universal callbackDesk r.1 r.2 := .of_schedule huniversal _
  have hstep : ((r.2.clients ()).saved? r.2.world).map (·.currentStep.toText?) =
      some (some "packed") := by decide +kernel
  have hlost : r.2.world.store.holdsLost = true := by decide +kernel
  obtain ⟨e, he, hpacked⟩ := Option.map_eq_some_iff.mp hstep
  obtain ⟨p, v, next, hclient, hsaved⟩ := Client.saved?_some he
  have hspares : Climate.universal.Spares := fun _ h => h
  have hkeyed : callbackDesk.world.store.Keyed := List.forall_mem_singleton.mpr rfl
  obtain ⟨base, hreplaces, hkept⟩ := replaced_state_kept (w := callbackDesk.world)
    hspares.contests hkeyed (by decide) hrun hclient hsaved
  obtain ⟨hsent, ⟨entries, hcontext, hplain⟩, hhistory⟩ :=
    base.lost_of_isLost (hreplaces.isLost hlost)
  obtain ⟨d, hretains, hrecalls⟩ := (hkept entries hcontext hplain).1
    (show Strategy.ofText? "reset" ≠ some .manual by decide)
  exact ⟨p, v, next, base, e, d, hclient, hsaved, hreplaces, hsent, hpacked, hretains,
    hrecalls (fun _ hnow => .universal hnow) hhistory⟩

/-- A parcel at a step that nobody has declared. -/
def astrayParcel : Execution :=
  { lostParcel [(.str "weight", .int 4)] [sending 0] 3 with currentStep := .str "astray" }

/-- A repair that resets the step keeps nothing of where the execution was: there is no
    checkpoint in what it commits. -/
theorem astrayParcel_not_retained :
    astrayParcel.context.Plain ∧ stored astrayParcel = .ok [] ∧
    ∃ r w', (parcelEngine.autoRepair (.id (.str "exec-1"))).run
        (parcelWorld (.memory ⟨[astrayParcel]⟩)) = (.ok r, w') ∧
      astrayParcel.currentStep.toText? = some "astray" ∧
      r.execution.currentStep.toText? = some "packed" ∧
      ¬ ∃ ds d, stored r.execution = .ok ds ∧ ds.getLast? = some d ∧ Captures astrayParcel d := by
  refine ⟨by decide, rfl, ?_⟩
  have hlength : ((parcelEngine.autoRepair (.id (.str "exec-1"))).run
      (parcelWorld (.memory ⟨[astrayParcel]⟩))).1.toOption.map (fun r =>
        (r.execution.currentStep.toText?, (stored r.execution).toOption.map List.length)) =
      some (some "packed", some 0) := by decide +kernel
  cases hrun : (parcelEngine.autoRepair (.id (.str "exec-1"))).run
      (parcelWorld (.memory ⟨[astrayParcel]⟩)) with
  | mk result w' =>
      rw [hrun] at hlength
      cases result with
      | error f => exact nomatch hlength
      | ok r =>
          obtain ⟨hstep, hnone⟩ := Prod.mk.inj (Option.some.inj hlength)
          refine ⟨r, w', rfl, rfl, hstep, ?_⟩
          rintro ⟨ds, d, hds, hlast, _⟩
          rw [hds] at hnone
          rw [List.length_eq_zero_iff.mp (Option.some.inj hnone)] at hlast
          exact nomatch hlast

end Workflow
