import Workflow.Proofs.Restore
import Workflow.Proofs.Room

/-! # Undo — a recovery or a restoration can be taken back

    A move stores a checkpoint of the snapshot that it replaces, and so does a
    restoration, in the same commit.  It is the last one of the list, so however few there
    is room for it is not dropped, and restoring it right away brings back what was
    there before. -/

namespace Workflow

open Checkpoint
open Engine (RecoveryResult reinstate relocate)

variable {g : Engine} {base cur e p : Execution} {m : Moment} {d : Value} {ds : List Value}
  {n k : Nat} {c : Checkpoint} {now : Timestamp} {s s' : Serials} {entries onto : Mapping}
  {older : List Value} {display : Display} {kept : MemoryStore} {t : Target} {w w₁ : World}

/-! ## Documents on the shelf -/

namespace Checkpoint

/-- Is the document read as a checkpoint, whenever that is, and, if it has an id, under
    none that is drawn after the first ones? -/
def Shelved (n : Nat) (d : Value) : Prop :=
  ∀ now freshId, ∃ c, read now freshId d = .ok c ∧
    (lacksId d = false → ∀ k, n < k → c.id ≠ s!"cp-{k}")

theorem Reads.shelved (h : Reads d c) (hid : ∀ k, n < k → c.id ≠ s!"cp-{k}") : Shelved n d :=
  fun now freshId => ⟨c, h.2 now freshId, fun _ => hid⟩

end Checkpoint

/-- What is stored in plain data is the list under the key of the checkpoints, if there is
    one. -/
theorem Checkpoint.field?_of_stored (he : e.context = .dict entries)
    (hplain : (Value.dict entries).Plain) (h : stored e = .ok ds) :
    ds = [] ∨ entries.field? checkpointsKey = some (.list ds) := by
  unfold stored Execution.contextValue Execution.entries at h
  rw [he] at h
  obtain ⟨raw, hraw, h⟩ := exceptBind_ok.mp h
  have hraw : (Mapping.get? entries checkpointsKey).getD .null = raw := Except.ok.inj hraw
  rw [Mapping.get?_of_closed fun v hv => (hplain.field? hv).closed] at hraw
  split at h
  · exact .inl (Except.ok.inj h).symm
  · split at h
    · rw [← Except.ok.inj h]
      cases hf : entries.field? checkpointsKey with
      | none => rw [hf] at hraw; exact nomatch hraw
      | some v => rw [hf] at hraw; exact .inr (congrArg some hraw)
    · exact nomatch h

/-- Is the execution one with an id of its own, at a text, with these plain entries as its
    context, and with these documents on the shelf? -/
structure Shelf (n : Nat) (entries : Mapping) (ds : List Value) (e : Execution) : Prop where
  owns    : e.OwnsId
  current : ∃ step, e.currentStep = .str step
  source  : e.context = .dict entries
  plain   : (Value.dict entries).Plain
  stored  : Checkpoint.stored e = .ok ds
  shelved : ∀ d ∈ ds, Shelved n d

theorem Shelf.documents_plain (h : Shelf n entries ds e) : ∀ x ∈ ds, x.Plain := by
  rcases field?_of_stored h.source h.plain h.stored with rfl | hds
  · exact fun x hx => absurd hx List.not_mem_nil
  · cases h.plain.field? hds with
    | list hitems => exact hitems

theorem Shelf.closed (h : Shelf n entries ds e) :
    ∀ ds', Checkpoint.stored e = .ok ds' → ∀ x ∈ ds', x.Closed := by
  intro ds' hds' x hx
  rw [← Except.ok.inj (h.stored.symm.trans hds')] at hx
  exact (h.documents_plain x hx).closed

/-! ## Backups -/

/-- Is the last checkpoint that an execution stores, over some entries, one of the
    snapshot with these? -/
structure Backs (base e : Execution) (entries onto : Mapping) (older : List Value) (d : Value)
    (c : Checkpoint) : Prop where
  source   : base.context = .dict entries
  whole    : (Value.dict entries).Plain
  captured : c.capturedContext = some (entries.erase checkpointsKey)
  step     : base.currentStep = .str c.capturedStep
  status   : c.capturedStatus = base.status
  history  : c.capturedHistory = base.history
  document : c.document = .ok d
  reads    : Reads d c
  context  : e.context = .dict (onto.set checkpointsKey (.list (older ++ [d])))
  plain    : (Value.dict onto).Plain
  listed   : ∀ x ∈ older, x.Plain

/-- What stows a checkpoint of a snapshot backs it: the checkpoint is the last of the list,
    and there is room for it. -/
theorem Engine.Stows.backs {context : Mapping} (h : g.Stows base m s onto c context)
    (hbase : Shelf n entries ds base) (hhistory : ∀ r ∈ base.history, r.Lasts)
    (htime : m.time.offset = some 0) (hlimit : 1 ≤ g.settings.recovery.maxCheckpoints)
    (honto : (Value.dict onto).Plain) (hp : p.context = .dict context) :
    ∃ older d, Backs base p entries onto older d c ∧ (∀ x ∈ older, x ∈ ds) ∧
      c.id = s!"cp-{m.after.checkpoints}" ∧ m.before.checkpoints < m.after.checkpoints := by
  obtain ⟨step, hstep⟩ := hbase.current
  obtain ⟨ds', d, hds', hd, hcontext⟩ := h.context_eq hbase.closed
  obtain rfl := Except.ok.inj (hbase.stored.symm.trans hds')
  obtain ⟨older, holder, hnewest⟩ := newest_append ds [d] hlimit
  obtain ⟨hreads, hcaptured, hcstep, hstatus, hcaptures⟩ :=
    h.reads htime hbase.current hhistory hbase.source (Mapping.plain_erase hbase.plain _) hd
  obtain ⟨_, _, hc, _, hafter⟩ := h.taken_eq hbase.source hstep
  rw [hcontext, hnewest] at hp
  refine ⟨older, d, ⟨hbase.source, hbase.plain, hcaptured, hcstep, hstatus, hcaptures, hd,
    hreads, hp, honto, fun x hx => hbase.documents_plain x (holder x hx)⟩, holder, ?_, ?_⟩
  · rw [hc, hafter]
    rfl
  · rw [hafter]
    exact Nat.lt_succ_of_le h.later

/-- The entries of a snapshot, with a list of checkpoints that ends with a backup of other
    entries. -/
def Checkpoint.restoredOver (limit : Int) (entries : Mapping) (ds : List Value)
    (backup : Checkpoint) (onto : Mapping) : Mapping :=
  (entries.erase checkpointsKey).set checkpointsKey (.list (newest limit
    (ds ++ [.record (backup.columns (.dict (onto.erase checkpointsKey)))])))

namespace Backs

/-- The document of the checkpoint. -/
theorem document_eq (h : Backs base e entries onto older d c) :
    d = .record (c.columns (.dict (entries.erase checkpointsKey))) ∧
      (Value.dict (entries.erase checkpointsKey)).nestingDepth ≤ Document.depthLimit := by
  have hd := h.document
  rw [document_of_plain h.captured (Mapping.plain_erase h.whole _)] at hd
  obtain ⟨_, hlevel, rfl⟩ := exceptMap_ok.mp hd
  exact ⟨rfl, Document.checkLevel_ok.mp hlevel⟩

theorem documents_plain (h : Backs base e entries onto older d c) :
    ∀ x ∈ older ++ [d], x.Plain := by
  intro x hx
  rcases List.mem_append.mp hx with hx | hx
  · exact h.listed x hx
  · exact List.mem_singleton.mp hx ▸ document_plain h.document

theorem stored (h : Backs base e entries onto older d c) :
    Checkpoint.stored e = .ok (older ++ [d]) :=
  stored_of_under h.context (.inr (Mapping.under_set_of_plain h.plain _ _))
    fun x hx => (h.documents_plain x hx).closed

/-- A snapshot whose checkpoint has found room is nested no more deeply than there is room
    for. -/
theorem depth {store : Store} (h : Backs base e entries onto older d c)
    (hroom : store.HasRoom (onto.set checkpointsKey (.list (older ++ [d])))) :
    (Value.dict (entries.erase checkpointsKey)).nestingDepth ≤ store.checkpointDepth := by
  obtain ⟨hd, hdepth⟩ := h.document_eq
  rw [hd] at hroom
  exact hroom.depth h.plain (Mapping.plain_erase h.whole _) h.listed hdepth

/-- What is restored of a backup is the snapshot that it was taken of. -/
theorem restored {limit : Int} {backup : Checkpoint} (h : Backs base e entries onto older d c)
    (hp : Reinstates c (restoredOver limit entries ds backup onto) p) : Restored base p :=
  hp.restored h.source h.step h.status h.history

end Backs

/-! ## Undoing -/

/-- Does restoring the checkpoint bring back the snapshot, when nothing is written in
    between, whatever the time is then? -/
def Engine.Undoes (g : Engine) (t : Target) (base : Execution) (checkpointId : String)
    (w : World) : Prop :=
  ∀ w' : World, w'.store = w.store → w.serials.checkpoints ≤ w'.serials.checkpoints →
    w'.disturbances = [] → w'.now.offset = some 0 →
    ∃ r w'', (g.restore t checkpointId true).run w' = (.ok r, w'') ∧ Restored base r.execution ∧
      ∃ shown, w''.store.find? w''.now t.executionId = .ok (some shown) ∧ Restored base shown

/-- Does a plain execution stand in the store, with these documents on the shelf and a
    history that lasts, at a time when no one else is at work? -/
structure Standing (display : Display) (kept : MemoryStore) (entries : Mapping)
    (ds : List Value) (base : Execution) (w : World) : Prop where
  mirrors : w.store.Mirrors display kept
  kept    : kept.get? base.id = some base
  shelf   : Shelf w.serials.checkpoints entries ds base
  history : ∀ r ∈ base.history, r.Lasts
  calm    : w.disturbances = []
  now     : w.now.offset = some 0

/-- Is a snapshot replaced in the store, from one world to the next, by one that backs it
    under an id that is drawn in between? -/
structure Replaces (w w₁ : World) (base p e : Execution) (entries onto : Mapping)
    (ds older : List Value) (d : Value) (c : Checkpoint) : Prop where
  backs    : Backs base p entries onto older d c
  kept     : ∀ x ∈ older, x ∈ ds
  drawn    : ∃ k, c.id = s!"cp-{k}" ∧ w.serials.checkpoints < k ∧ k ≤ w₁.serials.checkpoints
  id       : p.id = base.id
  owns     : p.OwnsId
  workflow : p.workflowName = base.workflowName
  current  : ∃ step, p.currentStep = .str step
  history  : ∀ r ∈ p.history, r.Lasts
  saved    : w.store.save w.now p base.version = .ok (e, w₁.store)

namespace Standing

end Standing

/-! ## Moves and restorations -/

namespace Engine

end Engine

namespace Standing

end Standing

namespace Engine

/-- What can be undone is undone at once, too. -/
theorem Undoes.history {id : String} (h : g.Undoes t base id w)
    (hcalm : w.disturbances.isEmpty = true) (hnow : w.now.offset = some 0) :
    ((g.restore t id true).run w).1.toOption.map (·.execution.history) = some base.history := by
  obtain ⟨r, w', hrun, hrestored, _⟩ :=
    h w rfl (Nat.le_refl _) (List.isEmpty_iff.mp hcalm) hnow
  rw [hrun]
  exact congrArg some hrestored.history

/-- Nothing is undone in a table that can count no further. -/
theorem Undoes.counts {id : String} (h : g.Undoes t base id w)
    (hcur : w.store.find? .defaultNow t.executionId = .ok (some cur)) (howns : cur.OwnsId) :
    w.store.Counts (cur.version + 1) := by
  obtain ⟨r, w', hrun, _⟩ :=
    h { w with disturbances := [], now := .defaultNow } rfl (Nat.le_refl _) rfl rfl
  obtain ⟨m, found, s, backup, context, _, _, _, _, _, _, hsave⟩ :=
    restore_replaces hcur rfl hrun
  generalize hstore : w.store = store at *
  cases store with
  | memory _ => exact fun htable => nomatch htable
  | table _ =>
      intro _
      obtain ⟨_, hs, _⟩ := exceptMap_ok.mp hsave
      obtain ⟨hcommitted, _, row, hrow, _⟩ := TableStore.save_ok.mp hs
      rw [hcommitted] at hrow
      obtain ⟨_, hversion, _, hfits⟩ := TableRow.ofExecution_columns hrow
        (howns.committed (e := reinstate cur found context) cur.version .defaultNow)
      rw [hversion] at hfits
      exact hfits

end Engine

/-- A checkpoint of a parcel that was packed, which holds such a context. -/
def packedCheckpoint (held : Mapping) : Checkpoint :=
  { id := "cp-1", label := "packed", capturedStep := "packed", capturedStatus := .active
    capturedContext := some held, capturedHistory := [], createdAt := .defaultNow
    createdBy := creator }

/-- The context of a parcel with the checkpoint of when it was packed. -/
def lostEntries (held : Mapping) : Mapping :=
  [(.str "weight", .int 4), (.str checkpointsKey,
    .list [.record ((packedCheckpoint held).columns (.dict held))])]

/-- A parcel is sent, at a time with such an offset. -/
def sending (offset : Int) : TransitionRecord :=
  ⟨"packed", "sent", "send", some (.actor "User" "ann"),
    { Timestamp.defaultNow with offset := some offset }⟩

/-- A parcel with such a context that was sent and got lost. -/
def lostParcel (entries : Mapping) (history : List TransitionRecord) (version : Int) : Execution :=
  { id := "exec-1", workflowName := .str "parcel", subject := .subject "Box" "7"
    currentStep := .str "sent", status := .failed, context := .dict entries, history
    assignedActor := none, version, createdAt := .defaultNow, updatedAt := .defaultNow }

/-- A world with such a store, in which one execution and one checkpoint have been made. -/
def parcelWorld (store : Store) : World :=
  { store, serials := { executions := 1, checkpoints := 1 } }

/-- An engine with room for one checkpoint. -/
def narrowEngine : Engine :=
  { parcelEngine with settings := { recovery := { maxCheckpoints := 1 } } }

end Workflow
