import Workflow.Proofs.Alone
import Workflow.Proofs.Custody
import Workflow.Proofs.Room

/-! # Restore — a checkpoint brings back what it was taken of

    A checkpoint is entered in the ledger of its execution and stays there while fewer
    others are entered than the ledger has room for, whatever else becomes of the
    execution.  Then restoring it brings back the step, the status, the history and the
    context that it was taken of, in memory as in a table.

    Restoring also enters a checkpoint, of the state that it replaces, so there must be
    room for that one: the context that is replaced must not be nested too deeply. -/

namespace Workflow

open Checkpoint

variable {ι : Type} {g : Engine} {ops : ι → Operation} {base cur e p : Execution}
  {m : Moment} {op : Operation} {id : String} {d : Value} {n k : Nat} {ds ds' : List Value}
  {display : Display} {kept : MemoryStore} {store : Store}

/-! ## What ledgers remember -/

/-- Among the newest are all of the last ones that there is room for. -/
theorem Checkpoint.newest_append {α : Type} {limit : Int} (older kept : List α)
    (h : (kept.length : Int) ≤ limit) :
    ∃ older', (∀ x ∈ older', x ∈ older) ∧ newest limit (older ++ kept) = older' ++ kept := by
  refine ⟨_, fun x hx => List.mem_of_mem_drop hx, List.drop_append_of_le_length ?_⟩
  rw [List.length_append]
  omega

/-- Is the document in the ledger, with so many entered after it and none of its id
    before it? -/
def Remembers (id : String) (d : Value) (k : Nat) (ds : List Value) : Prop :=
  ∃ older newer, ds = older ++ d :: newer ∧ newer.length = k ∧
    ∀ d' ∈ older, ∃ c, Reads d' c ∧ c.id ≠ id

theorem Remembers.mem (h : Remembers id d k ds) : d ∈ ds := by
  obtain ⟨older, newer, rfl, _, _⟩ := h
  exact List.mem_append_right older List.mem_cons_self

/-- It is remembered while there is room for it. -/
theorem Remembers.relists (h : Remembers id d k ds) (hop : op.Relists g ds ds')
    (hlimit : op.enters = true → (k + 2 : Int) ≤ g.settings.recovery.maxCheckpoints) :
    Remembers id d (k + if op.enters then 1 else 0) ds' := by
  unfold Operation.Relists at hop
  by_cases henters : op.enters = true
  · rw [if_pos henters] at hop ⊢
    obtain ⟨older, newer, rfl, rfl, holder⟩ := h
    obtain ⟨d', rfl⟩ := hop
    have hlength : ((d :: (newer ++ [d'])).length : Int) ≤
        g.settings.recovery.maxCheckpoints := by
      rw [List.length_cons, List.length_append, List.length_singleton]
      have := hlimit henters
      push_cast
      omega
    obtain ⟨older', holder', hnewest⟩ := newest_append older _ hlength
    refine ⟨older', newer ++ [d'], ?_, ?_, fun x hx => holder x (holder' x hx)⟩
    · rw [← hnewest, List.append_assoc]
      rfl
    · rw [List.length_append, List.length_singleton]
  · rw [if_neg henters] at hop ⊢
    exact hop ▸ h

/-- The document of a checkpoint of a plain context is read as that checkpoint, which
    holds what it was taken of. -/
theorem Engine.Stows.reads {s : Serials} {onto context entries : Mapping} {c : Checkpoint}
    (h : g.Stows base m s onto c context) (htime : m.time.offset = some 0)
    (hcurrent : ∃ step, base.currentStep = .str step) (hhistory : ∀ r ∈ base.history, r.Lasts)
    (he : base.context = .dict entries)
    (hplain : (Value.dict (entries.erase checkpointsKey)).Plain) (hd : c.document = .ok d) :
    Reads d c ∧ c.capturedContext = some (entries.erase checkpointsKey) ∧
      base.currentStep = .str c.capturedStep ∧ c.capturedStatus = base.status ∧
      c.capturedHistory = base.history := by
  obtain ⟨step, hstep⟩ := hcurrent
  obtain ⟨label, captured, rfl, hcaptured, _⟩ := h.taken_eq he hstep
  rw [Mapping.copyTop_erase hplain, mapping_of_plain hplain] at hcaptured
  obtain rfl := Checked.ok.inj hcaptured
  obtain ⟨o, hreads, ho⟩ := document_reads ⟨.universal htime, hhistory⟩ hd
  rw [ho _ rfl hplain] at hreads
  exact ⟨hreads, rfl, hstep, rfl, rfl⟩

/-- Is the execution at the step, with the status, the history and the context of the
    other, but for the checkpoints in the context? -/
structure Restored (base e : Execution) : Prop where
  step    : e.currentStep = base.currentStep
  status  : e.status = base.status
  history : e.history = base.history
  context : e.context.without (.str checkpointsKey) = base.context.without (.str checkpointsKey)

/-- The snapshot with the state of a checkpoint put in place, and such a context. -/
def Engine.reinstate (cur : Execution) (c : Checkpoint) (context : Mapping) : Execution :=
  { cur with
    currentStep := .str c.capturedStep
    status      := c.capturedStatus
    context     := .dict context
    history     := c.capturedHistory }

/-- A restoration alone saves the state of the checkpoint that it finds. -/
theorem Engine.restore_replaces {w w₁ : World} {t : Target} {force : Bool}
    {r : Engine.RecoveryResult}
    (hbase : w.store.find? w.now t.executionId = .ok (some base)) (hcalm : w.disturbances = [])
    (h : (g.restore t id force).run w = (.ok r, w₁)) :
    ∃ m found s backup context, m.time = w.now ∧
      w.serials.checkpoints ≤ m.before.checkpoints ∧
      m.after.checkpoints ≤ w₁.serials.checkpoints ∧
      (find base id).runAt m.time m.before = (.ok found, s) ∧
      g.Stows base m s (found.capturedContext.getD []) backup context ∧
      r.backupId = some backup.id ∧
      w.store.save w.now (reinstate base found context) base.version =
        .ok (r.execution, w₁.store) := by
  obtain ⟨⟨saved, backupId⟩, w₂, hmutate, h⟩ := Client.run_bind_inv h
  obtain ⟨hr, rfl⟩ := Prod.mk.inj h
  obtain ⟨cur, m, o, hcur, htime, hbefore, hafter, hdecides, hsave⟩ :=
    run_mutate_inv (restoreMutation_counts g id force) hcalm (Client.run_recover_inv hmutate)
  obtain rfl : base = cur := Option.some.inj (Except.ok.inj (hbase.symm.trans hcur))
  obtain ⟨found, s, backup, context, hfound, hstows, hid, ho⟩ := restoreMutation_decides hdecides
  refine ⟨m, found, s, backup, context, htime, hbefore, hafter, hfound, hstows, ?_, ?_⟩
  · rw [← Except.ok.inj hr, hid]
  · rw [← Except.ok.inj hr]
    exact hsave _ ho

/-- A document that the ledger remembers is found. -/
theorem Ledger.find {c : Checkpoint} (h : Ledger n ds cur) (hremembers : Remembers c.id d k ds)
    (hd : Reads d c) (now : Timestamp) (s : Serials) :
    (Checkpoint.find cur c.id).runAt now s = (.ok c, s) := by
  obtain ⟨older, newer, rfl, _, holder⟩ := hremembers
  refine find_of_reads h.stored_eq (fun d' hd' => (h.plain d' hd').closed) holder hd rfl ?_ now s
  intro d' hd'
  obtain ⟨_, c', _, hreads, _⟩ := h.legible d' (by simp [hd'])
  exact ⟨c', hreads⟩

/-- Is the execution in the state of a checkpoint, with such a context? -/
structure Reinstates (c : Checkpoint) (context : Mapping) (e : Execution) : Prop where
  step    : e.currentStep = .str c.capturedStep
  status  : e.status = c.capturedStatus
  context : e.context = .dict context
  history : e.history = c.capturedHistory

section Room

variable {captured entries : Mapping}

/-- The list that a restoration leaves is plain. -/
theorem Checkpoint.relisted_plain (hds : ∀ x ∈ ds, x.Plain)
    (hentries : (Value.dict entries).Plain) (limit : Int) (backup : Checkpoint) :
    (Value.list (newest limit
      (ds ++ [.record (backup.columns (.dict entries))]))).Plain := by
  refine .list fun x hx => ?_
  rcases List.mem_append.mp (mem_of_mem_newest hx) with hx | hx
  · exact hds x hx
  · rw [List.mem_singleton.mp hx]
    exact columns_inherit inherited_plain hentries

/-- Where there is room for a list with a backup at its end, the entries that this is of are
    not nested too deeply. -/
theorem Store.HasRoom.depth {backup : Checkpoint} (h : store.HasRoom (captured.set checkpointsKey
      (.list (ds ++ [.record (backup.columns (.dict entries))]))))
    (hcaptured : (Value.dict captured).Plain) (hentries : (Value.dict entries).Plain)
    (hds : ∀ x ∈ ds, x.Plain)
    (hdepth : (Value.dict entries).nestingDepth ≤ Document.depthLimit) :
    (Value.dict entries).nestingDepth ≤ store.checkpointDepth := by
  unfold Store.checkpointDepth
  split
  · rename_i htable
    have hlist : (Value.list (ds ++ [.record (backup.columns (.dict entries))])).Plain := by
      refine .list fun x hx => ?_
      rcases List.mem_append.mp hx with hx | hx
      · exact hds x hx
      · exact List.mem_singleton.mp hx ▸ columns_inherit inherited_plain hentries
    obtain ⟨hwritable, _⟩ := (hcaptured.writable_set hlist).mp (h htable)
    have hbackup := Value.writable_list.mp hwritable _
      (List.mem_append_right ds (List.mem_singleton_self _))
    exact ((writable_columns (by decide)).mp hbackup).2
  · exact hdepth

/-- The stored checkpoints of an execution have a JSON text where its context has one. -/
theorem Ledger.encodes (h : Ledger n ds e) (he : e.context.Encodes) : (Value.list ds).Encodes := by
  obtain ⟨entries, hentries, _, hds⟩ := h.listed
  rcases hds with ⟨_, rfl⟩ | hunder
  · exact Value.encodes_list.mpr fun x hx => absurd hx List.not_mem_nil
  · rw [hentries] at he
    obtain ⟨x, hx, hlist⟩ := List.mem_filterMap.mp (hunder ▸ List.mem_singleton_self _ :
      Value.list ds ∈ entries.under checkpointsKey)
    have hvalue : x.2 = .list ds := by
      split at hlist
      · exact Option.some.inj hlist
      · exact nomatch hlist
    exact hvalue ▸ (Value.encodes_dict.mp he x hx).2

end Room

/-- Is a snapshot stored whose ledger remembers a checkpoint of plain entries, and is no one
    else at work? -/
structure Recoverable (display : Display) (kept : MemoryStore) (w : World) (cur : Execution)
    (entries : Mapping) (c : Checkpoint) (captured : Mapping) : Prop where
  mirrors  : w.store.Mirrors display kept
  kept     : kept.get? cur.id = some cur
  owns     : cur.OwnsId
  calm     : w.disturbances = []
  now      : w.now.offset = some 0
  written  : ∃ n ds e d k, Ledger n ds e ∧ display.Shows e cur ∧ Remembers c.id d k ds ∧
    Reads d c
  history  : ∀ r ∈ c.capturedHistory, r.Lasts
  holds    : c.capturedContext = some captured
  captured : (Value.dict captured).Plain
  source   : cur.context = .dict entries
  plain    : (Value.dict (entries.erase checkpointsKey)).Plain

namespace Recoverable

variable {w w' : World} {c : Checkpoint} {entries captured : Mapping} {t : Target}

/-- A restoration that goes through has found a place for its backup. -/
theorem room {r : Engine.RecoveryResult} (h : Recoverable display kept w cur entries c captured)
    (hlimit : 1 ≤ g.settings.recovery.maxCheckpoints) (ht : t.executionId = .str cur.id)
    (hrun : (g.restore t c.id true).run w = (.ok r, w')) :
    (Value.dict (entries.erase checkpointsKey)).nestingDepth ≤ w.store.checkpointDepth ∧
      w.store.Counts (cur.version + 1) := by
  obtain ⟨n, ds, e, d, k, hwritten, hshows, hremembers, hd⟩ := h.written
  have hledger := h.mirrors.ledger hwritten hshows
  obtain ⟨step, hstep⟩ := hledger.current
  obtain ⟨m, found, s, backup, context, _, _, _, hfound, hstows, _, hsave⟩ :=
    Engine.restore_replaces (ht.symm ▸ h.mirrors.find?_str h.kept w.now) h.calm hrun
  rw [hledger.find hremembers hd] at hfound
  obtain rfl := Except.ok.inj (Prod.mk.inj hfound).1
  -- The backup is one of the entries that are replaced, so its document holds them.
  obtain ⟨ds', doc, hds', hdoc, hcontext⟩ := hstows.context_eq fun ds' hds' x hx =>
    (hledger.plain x (Except.ok.inj (hledger.stored_eq.symm.trans hds') ▸ hx)).closed
  obtain rfl := Except.ok.inj (hledger.stored_eq.symm.trans hds')
  obtain ⟨label, taken, rfl, htaken, _⟩ := hstows.taken_eq h.source hstep
  rw [Mapping.copyTop_erase h.plain, mapping_of_plain h.plain] at htaken
  obtain rfl := Checked.ok.inj htaken
  rw [document_of_plain rfl h.plain] at hdoc
  obtain ⟨_, hlevel, rfl⟩ := exceptMap_ok.mp hdoc
  rw [h.holds, Option.getD_some] at hcontext
  have hplain : (Value.dict context).Plain :=
    hcontext ▸ Mapping.plain_set h.captured (relisted_plain hledger.plain h.plain _ _) _
  obtain ⟨hroom, hcounts⟩ := (h.mirrors.save_iff (p := Engine.reinstate cur c context) h.kept
    h.owns rfl rfl rfl hplain w.now).mp ⟨_, Store.saved_eq hsave ▸ hsave⟩
  obtain ⟨older, holder, hnewest⟩ := newest_append ds [_] hlimit
  rw [hcontext, hnewest] at hroom
  exact ⟨hroom.depth h.captured h.plain (fun x hx => hledger.plain x (holder x hx))
    (Document.checkLevel_ok.mp hlevel), hcounts⟩

end Recoverable

/-! ## Every run -/

/-- Every clock shows universal time; any save may fail in the store. -/
def Climate.universal : Climate :=
  ⟨fun t => t.offset = some 0, fun d => d = .pass ∨ ∃ f, d = .fail f⟩

variable [DecidableEq ι]

/-- What restores what was taken of a snapshot is the snapshot again. -/
theorem Reinstates.restored {c : Checkpoint} {entries : Mapping} {list : Value}
    (h : Reinstates c ((entries.erase checkpointsKey).set checkpointsKey list) e)
    (hentries : base.context = .dict entries) (hstep : base.currentStep = .str c.capturedStep)
    (hstatus : c.capturedStatus = base.status) (hhistory : c.capturedHistory = base.history) :
    Restored base e := by
  refine ⟨h.step.trans hstep.symm, h.status.trans hstatus, h.history.trans hhistory, ?_⟩
  rw [h.context, hentries]
  show Value.dict (Mapping.erase _ checkpointsKey) = .dict (Mapping.erase _ checkpointsKey)
  rw [Mapping.erase_set, Mapping.erase_erase]

/-- A workflow of parcels, which are packed and sent. -/
def parcelWorkflow : Definition :=
  { serial := 1, name := "parcel"
    steps :=
      [ { name := "packed", actions := [⟨"send", "sent", none, none, false⟩] },
        { name := "sent", actions := [⟨"deliver", "there", none, none, false⟩] },
        { name := "there" } ] }

/-- An engine for parcels, with room for three checkpoints. -/
def parcelEngine : Engine :=
  { registry := ⟨[parcelWorkflow]⟩, settings := { recovery := { maxCheckpoints := 3 } } }

/-- Operations on one parcel: it is packed, a checkpoint is taken, more is noted, and it
    is sent and called back. -/
def parcelOperations : Nat → Operation
  | 0 => .create "parcel" (.ref (.subject "Box" "7")) .null (.dict [(.str "weight", .int 3)])
  | 1 => .createCheckpoint (.id (.str "exec-1")) (.str "packed")
  | 2 => .mergeContext (.id (.str "exec-1"))
      (.dict [(.str "weight", .int 4), (.str "stops", .list [.str "Rome", .null])])
  | 3 => .perform (.id (.str "exec-1")) (.str "send") (.str "ann") .null
  | _ => .recover (.id (.str "exec-1")) "reset" (.str "packed") false

/-- Clients at these operations. -/
def parcelDesk : System Nat fun i => (parcelOperations i).Result :=
  ⟨{}, fun i => (parcelOperations i).client parcelEngine⟩

end Workflow
