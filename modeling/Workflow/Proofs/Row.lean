import Workflow.Proofs.Json
import Workflow.Proofs.Recall
import Workflow.Store.Table

/-! # Row — what becomes of an execution in a table

    A table keeps an execution as a row of texts, and shows what is read of them: a
    context that has been turned into a document, a history whose records have been read
    anew, and whatever creation time the row was first given.

    The heart is `reread_of_row`: what was written as JSON is read as it was written, so
    all that can change are the parts that have no document of their own. -/

namespace Workflow

variable {e e' : Execution} {now : Timestamp}

/-- Is the second execution what a row shows that the first was written to, up to its
    times? -/
structure Reread (now : Timestamp) (e e' : Execution) : Prop where
  id       : Lax.text "id" e.idValue = .ok e'.id
  workflow : ∃ name, Lax.text "workflow_name" e.workflowName = .ok name ∧
    e'.workflowName = .str name
  current  : ∃ step, Lax.text "current_step" e.currentStep = .ok step ∧
    e'.currentStep = .str step
  status   : e'.status = e.status
  context  : ∃ entries, Document.ofValue 0 e.context = .ok (.dict entries) ∧
    e'.context = .dict entries
  history  : Row.records now (e.history.map Document.ofRecord) = .ok e'.history
  version  : e'.version = e.version
  aside    : e'.aside = []

namespace Reread

theorem workflowName_eq (h : Reread now e e') {name : String}
    (hname : e.workflowName = .str name) : e'.workflowName = .str name := by
  obtain ⟨name', hname', he'⟩ := h.workflow
  rw [hname] at hname'
  rw [he', ← Checked.ok.inj hname']

theorem currentStep_eq (h : Reread now e e') {step : String}
    (hstep : e.currentStep = .str step) : e'.currentStep = .str step := by
  obtain ⟨step', hstep', he'⟩ := h.current
  rw [hstep] at hstep'
  rw [he', ← Checked.ok.inj hstep']

theorem ownsId (h : Reread now e e') (howns : e.OwnsId) : e'.OwnsId ∧ e'.id = e.id := by
  have hid := h.id
  rw [show e.idValue = .str e.id from howns] at hid
  exact ⟨Execution.ownsId_of_aside h.aside, (Checked.ok.inj hid).symm⟩

end Reread

/-! ## Columns -/

/-- An execution as a row shows it, with what is read of its parts. -/
def Execution.reread (e : Execution) (id name step : String) (entries : Mapping)
    (history : List TransitionRecord) (created updated : Timestamp) : Execution :=
  { id, workflowName := .str name
    subject       := .subject e.subject.type e.subject.id
    currentStep   := .str step
    status        := e.status
    context       := .dict entries
    history
    assignedActor := e.assignedActor.map fun a => .actor a.type a.id
    version       := e.version
    createdAt     := created
    updatedAt     := updated }

/-- An execution is shown as it is when all its parts are of the kinds that a row holds. -/
theorem Execution.reread_self {name step : String} {entries : Mapping} (haside : e.aside = [])
    (hname : e.workflowName = .str name) (hstep : e.currentStep = .str step)
    (he : e.context = .dict entries) (hsubject : e.subject.kind = .subject)
    (hactor : ∀ a, e.assignedActor = some a → a.kind = .actor) :
    e.reread e.id name step entries e.history e.createdAt e.updatedAt = e := by
  have hkind : e.subject = .subject e.subject.type e.subject.id :=
    congrArg (fun k => (⟨k, e.subject.type, e.subject.id⟩ : EntityRef)) hsubject
  have hassigned : (e.assignedActor.map fun a => EntityRef.actor a.type a.id) =
      e.assignedActor := by
    cases ha : e.assignedActor with
    | none => rfl
    | some a =>
        have hkind := congrArg (fun k => (⟨k, a.type, a.id⟩ : EntityRef)) (hactor a ha)
        exact congrArg some hkind.symm
  unfold Execution.reread
  rw [hassigned, ← hkind, ← hname, ← hstep, ← he, ← haside]

namespace Status

theorem ofText?_text (s : Status) : ofText? s.text = some s := by
  cases s <;> rfl

end Status

namespace Row

variable {row : Row} {ds : List Value} {rs : List TransitionRecord}

/-- The columns of an execution that has a row. -/
theorem ofExecution_ok (h : ofExecution e = .ok row) :
    ∃ id name step entries, Document.ofValue 0 e.context = .ok (.dict entries) ∧
      Lax.text "id" e.idValue = .ok id ∧ Lax.text "workflow_name" e.workflowName = .ok name ∧
      Lax.text "current_step" e.currentStep = .ok step ∧
      row = filled e id name step entries := by
  obtain ⟨_, _, h⟩ := exceptBind_ok.mp h
  obtain ⟨_, _, h⟩ := exceptBind_ok.mp h
  obtain ⟨_, _, h⟩ := exceptBind_ok.mp h
  obtain ⟨d, hd, h⟩ := exceptBind_ok.mp h
  have h := Checked.toExcept_ok.mp h
  obtain ⟨_, m, h₁, hm, hrow⟩ := Checked.seq_ok.mp h
  obtain ⟨_, step, h₂, hstep, rfl⟩ := Checked.seq_ok.mp h₁
  obtain ⟨_, name, h₃, hname, rfl⟩ := Checked.seq_ok.mp h₂
  obtain ⟨id, hid, rfl⟩ := Checked.map_ok.mp h₃
  have hplain := Document.plain_of_ofValue hd
  cases d with
  | dict entries =>
      rw [Checkpoint.mapping_of_plain hplain] at hm
      rw [← Checked.ok.inj hm] at hrow
      exact ⟨id, name, step, entries, hd, hid, hname, hstep, hrow.symm⟩
  | _ => exact nomatch hm

/-- The columns of an execution with texts as id and names, whose context has a document. -/
theorem ofExecution_of_document {id name step : String} {entries : Mapping}
    (hid : e.idValue = .str id) (hname : e.workflowName = .str name)
    (hstep : e.currentStep = .str step)
    (hd : Document.ofValue 0 e.context = .ok (.dict entries)) :
    ofExecution e = .ok (filled e id name step entries) := by
  have htext (s : String) : Document.ofValue 0 (.str s) = .ok (.str s) := rfl
  unfold ofExecution
  rw [hid, hname, hstep, htext, htext, htext, hd]
  refine exceptBind_ok.mpr ⟨_, rfl, exceptBind_ok.mpr ⟨_, rfl, exceptBind_ok.mpr ⟨_, rfl,
    exceptBind_ok.mpr ⟨_, rfl, ?_⟩⟩⟩⟩
  rw [Checkpoint.mapping_of_plain (Document.plain_of_ofValue hd)]
  rfl

/-- So are those of a plain context that is not nested too deeply. -/
theorem ofExecution_plain {id name step : String} {entries : Mapping}
    (hid : e.idValue = .str id) (hname : e.workflowName = .str name)
    (hstep : e.currentStep = .str step) (he : e.context = .dict entries)
    (hplain : (Value.dict entries).Plain)
    (hdepth : (Value.dict entries).nestingDepth ≤ Document.depthLimit) :
    ofExecution e = .ok (filled e id name step entries) := by
  refine ofExecution_of_document hid hname hstep ?_
  rw [he]
  exact Document.ofValue_shallow hplain hdepth

/-- It has no other row, and none at all when it is nested too deeply. -/
theorem ofExecution_iff {id name step : String} {entries : Mapping}
    (hid : e.idValue = .str id) (hname : e.workflowName = .str name)
    (hstep : e.currentStep = .str step) (he : e.context = .dict entries)
    (hplain : (Value.dict entries).Plain) :
    ofExecution e = .ok row ↔
      (Value.dict entries).nestingDepth ≤ Document.depthLimit ∧
        row = filled e id name step entries := by
  constructor
  · intro hrow
    obtain ⟨_, _, _, entries', hd, _⟩ := ofExecution_ok hrow
    rw [he, Document.ofValue_plain hplain] at hd
    obtain ⟨_, hlevel, _⟩ := exceptMap_ok.mp hd
    have hdepth := Document.checkLevel_ok.mp hlevel
    rw [ofExecution_plain hid hname hstep he hplain hdepth] at hrow
    exact ⟨hdepth, (Except.ok.inj hrow).symm⟩
  · rintro ⟨hdepth, rfl⟩
    exact ofExecution_plain hid hname hstep he hplain hdepth

/-- A row shows the execution that it is of. -/
theorem toExecution_filled (e : Execution) (id name step : String) (entries : Mapping)
    (created updated now : Timestamp) :
    { filled e id name step entries with createdAt := created, updatedAt := updated }.toExecution
        now = (records now (e.history.map Document.ofRecord)).map fun history =>
      e.reread id name step entries history created updated := by
  have hactor : actor? { filled e id name step entries with
      createdAt := created, updatedAt := updated } =
        e.assignedActor.map fun a => .actor a.type a.id := by
    cases h : e.assignedActor with
    | none =>
        unfold actor? filled
        rw [h]
        rfl
    | some a =>
        unfold actor? filled
        rw [h]
        rfl
  unfold toExecution
  rw [hactor]
  unfold filled Execution.reread
  dsimp only
  rw [Status.ofText?_text]
  cases records now (e.history.map Document.ofRecord) with
  | error f => rfl
  | ok rs => rfl

/-- Records are read one by one. -/
theorem records_ok : records now ds = .ok rs ↔
    List.Forall₂ (fun d r => TransitionRecord.read now "" d = .ok r) ds rs := by
  induction ds generalizing rs with
  | nil =>
      constructor
      · intro h
        rw [← Except.ok.inj h]
        exact .nil
      · intro h
        cases h
        rfl
  | cons d ds ih =>
      constructor
      · intro h
        obtain ⟨r, hr, h⟩ := exceptBind_ok.mp h
        obtain ⟨rs', hrs', h⟩ := exceptBind_ok.mp h
        rw [← Except.ok.inj h]
        exact .cons (Checked.toExcept_ok.mp hr) (ih.mp hrs')
      · intro h
        cases h with
        | cons hr hrs =>
            exact exceptBind_ok.mpr ⟨_, Checked.toExcept_ok.mpr hr,
              exceptBind_ok.mpr ⟨_, ih.mpr hrs, rfl⟩⟩

/-- A history that lasts is read as it was written. -/
theorem records_of_lasts (h : ∀ r ∈ rs, r.Lasts) (now : Timestamp) :
    records now (rs.map Document.ofRecord) = .ok rs :=
  records_ok.mpr (List.forall₂_map_left_iff.mpr (List.forall₂_same.mpr fun r hr =>
    TransitionRecord.read_of_lasts (h r hr) now ""))

/-- What is read of records tells the same transitions. -/
theorem sameMoves_of_records {rs' : List TransitionRecord}
    (h : records now (rs.map Document.ofRecord) = .ok rs') : SameMoves rs rs' :=
  (List.forall₂_map_left_iff.mp (records_ok.mp h)).imp fun _ _ hr =>
    TransitionRecord.sameMove_of_read hr

end Row

/-! ## Rows of texts -/

namespace TableRow

variable {row : TableRow} {r : Row}

/-- A column is written as a text just when what it holds has a JSON form. -/
theorem exists_write_iff {v : Value} :
    (∃ s, (Json.write v).mapError Failure.unwritable = .ok s) ↔ v.Encodes := by
  unfold Value.Encodes Json.write
  cases Json.encode false v with
  | ok cs => exact iff_of_true ⟨_, rfl⟩ ⟨_, rfl⟩
  | error f => exact iff_of_false (fun ⟨_, h⟩ => nomatch h) (fun ⟨_, h⟩ => nomatch h)

/-- What is written as JSON and read again is what it was, when it is plain. -/
theorem read?_of_write {v : Value} (hv : v.Plain) {s : String}
    (h : (Json.write v).mapError Failure.unwritable = .ok s) : Json.read? s = some v := by
  unfold Json.read?
  cases hw : Json.write v with
  | ok t =>
      rw [hw] at h
      rw [← Except.ok.inj h, Json.read_write hv hw]
      rfl
  | error f =>
      rw [hw] at h
      exact nomatch h

/-- A stored row denotes the row that it was written from, with the times that are read
    of their texts. -/
theorem toRow_ofRow (hcontext : (Value.dict r.context).Plain)
    (hhistory : (Value.list r.history).Plain) (hrow : ofRow r = .ok row) (created : String) :
    { row with createdText := created }.toRow =
      match Timestamp.ofIsoText? created, Timestamp.ofIsoText? r.updatedAt.isoText with
      | some c, some u => .ok { r with createdAt := c, updatedAt := u }
      | _,      _      => .error badTime := by
  obtain ⟨contextText, hc, hrow⟩ := exceptBind_ok.mp hrow
  obtain ⟨historyText, hh, hrow⟩ := exceptBind_ok.mp hrow
  simp only [Bool.not_eq_true'] at hrow
  split at hrow
  · exact nomatch hrow
  · rw [← Except.ok.inj hrow]
    unfold toRow
    dsimp only
    rw [read?_of_write hcontext hc, read?_of_write hhistory hh]
    cases Timestamp.ofIsoText? created with
    | none => rfl
    | some c =>
        cases Timestamp.ofIsoText? r.updatedAt.isoText with
        | none => rfl
        | some u => rfl

/-- What is read of the row of an execution, whatever creation time it shows. -/
theorem toExecution_ofExecution (hrow : ofExecution e = .ok row) :
    ∃ id name step entries, Document.ofValue 0 e.context = .ok (.dict entries) ∧
      Lax.text "id" e.idValue = .ok id ∧ Lax.text "workflow_name" e.workflowName = .ok name ∧
      Lax.text "current_step" e.currentStep = .ok step ∧
      ∀ created now, { row with createdText := created }.toExecution now =
        match Timestamp.ofIsoText? created, Timestamp.ofIsoText? e.updatedAt.isoText with
        | some c, some u => (Row.records now (e.history.map Document.ofRecord)).map fun history =>
            e.reread id name step entries history c u
        | _,      _      => .error badTime := by
  obtain ⟨r, hr, hrow⟩ := exceptBind_ok.mp hrow
  obtain ⟨id, name, step, entries, hd, hid, hname, hstep, rfl⟩ := Row.ofExecution_ok hr
  have hhistory : (Value.list (Row.filled e id name step entries).history).Plain :=
    Document.ofHistory_inherits inherited_plain e.history
  refine ⟨id, name, step, entries, hd, hid, hname, hstep, fun created now => ?_⟩
  have hupdated : (Row.filled e id name step entries).updatedAt = e.updatedAt := rfl
  unfold toExecution
  rw [toRow_ofRow (Document.plain_of_ofValue hd) hhistory hrow, hupdated]
  cases Timestamp.ofIsoText? created with
  | none => rfl
  | some c =>
      cases Timestamp.ofIsoText? e.updatedAt.isoText with
      | none => rfl
      | some u => exact Row.toExecution_filled e id name step entries c u now

/-- What a row shows that an execution was written to, whatever its creation time. -/
theorem reread_of_row {created : String} (hrow : ofExecution e = .ok row)
    (h : { row with createdText := created }.toExecution now = .ok e') : Reread now e e' := by
  obtain ⟨id, name, step, entries, hd, hid, hname, hstep, hread⟩ := toExecution_ofExecution hrow
  rw [hread] at h
  split at h
  · obtain ⟨rs, hrs, rfl⟩ := exceptMap_ok.mp h
    exact ⟨hid, ⟨name, hname, rfl⟩, ⟨step, hstep, rfl⟩, rfl, ⟨entries, hd, rfl⟩, hrs, rfl, rfl⟩
  · exact nomatch h

/-! ## Rows that last -/

/-- Does the row show the execution, whenever it is read? -/
structure Keeps (row : TableRow) (e : Execution) : Prop where
  shown : ∀ now, row.toExecution now = .ok e
  fits  : TableRow.fits row.version = true

/-- What is read of a row has its id and its version, and the creation time is there. -/
theorem toExecution_ok (h : row.toExecution now = .ok e) : e.id = row.id ∧
    e.version = row.version ∧ ∃ t, Timestamp.ofIsoText? row.createdText = some t := by
  obtain ⟨r, hr, h⟩ := exceptBind_ok.mp h
  unfold toRow at hr
  split at hr
  · rename_i hcreated _
    unfold Row.toExecution at h
    split at h
    · exact nomatch h
    · obtain ⟨rs, _, h⟩ := exceptBind_ok.mp h
      rw [← Except.ok.inj h, ← Except.ok.inj hr]
      exact ⟨rfl, rfl, _, hcreated⟩
  · exact nomatch hr
  · exact nomatch hr

namespace Keeps

theorem id_eq (h : row.Keeps e) : e.id = row.id := (toExecution_ok (h.shown .defaultNow)).1

theorem version_eq (h : row.Keeps e) : e.version = row.version :=
  (toExecution_ok (h.shown .defaultNow)).2.1

theorem workflow (h : row.Keeps e) : e.workflowName = .str row.workflowName := by
  obtain ⟨r, hr, he⟩ := exceptBind_ok.mp (h.shown .defaultNow)
  unfold toRow at hr
  split at hr
  · unfold Row.toExecution at he
    split at he
    · exact nomatch he
    · obtain ⟨rs, _, he⟩ := exceptBind_ok.mp he
      rw [← Except.ok.inj he, ← Except.ok.inj hr]
  · exact nomatch hr
  · exact nomatch hr

theorem created (h : row.Keeps e) : ∃ t, Timestamp.ofIsoText? row.createdText = some t :=
  (toExecution_ok (h.shown .defaultNow)).2.2

end Keeps

theorem ofRow_columns (h : ofRow r = .ok row) : row.id = r.id ∧ row.version = r.version ∧
    row.createdText = r.createdAt.isoText ∧ TableRow.fits row.version = true := by
  obtain ⟨contextText, _, h⟩ := exceptBind_ok.mp h
  obtain ⟨historyText, _, h⟩ := exceptBind_ok.mp h
  simp only [Bool.not_eq_true'] at h
  split at h
  · exact nomatch h
  · rename_i hfits
    rw [← Except.ok.inj h]
    exact ⟨rfl, rfl, rfl, by simpa using hfits⟩

/-- An execution has a row of texts when its context has a JSON text and its version
    fits. -/
theorem ofRow_filled (id name step : String) {entries : Mapping}
    (hencodes : (Value.dict entries).Encodes) (hfits : fits e.version = true) :
    ∃ row, ofRow (Row.filled e id name step entries) = .ok row := by
  obtain ⟨contextText, hcontext⟩ : ∃ s, (Row.filled e id name step entries).contextJson = .ok s :=
    exists_write_iff.mpr hencodes
  obtain ⟨historyText, hhistory⟩ : ∃ s, (Row.filled e id name step entries).historyJson = .ok s :=
    exists_write_iff.mpr (Document.ofHistory_inherits inherited_encodes e.history)
  have hversion : (Row.filled e id name step entries).version = e.version := rfl
  unfold ofRow
  rw [hcontext, hhistory, hversion, hfits]
  exact ⟨_, rfl⟩

/-- So one with texts as id and names has a row when its context has a document, that one a
    JSON text, and its version fits. -/
theorem ofExecution_of_document {id name step : String} {entries : Mapping}
    (hid : e.idValue = .str id) (hname : e.workflowName = .str name)
    (hstep : e.currentStep = .str step)
    (hd : Document.ofValue 0 e.context = .ok (.dict entries))
    (hencodes : (Value.dict entries).Encodes) (hfits : fits e.version = true) :
    ∃ row, ofExecution e = .ok row := by
  obtain ⟨row, hrow⟩ := ofRow_filled id name step hencodes hfits
  exact ⟨row, exceptBind_ok.mpr ⟨_, Row.ofExecution_of_document hid hname hstep hd, hrow⟩⟩

/-- An execution with texts as id and names and a plain context has a row just when that
    context has a document and a JSON text and the version fits. -/
theorem ofExecution_iff {id name step : String} {entries : Mapping}
    (hid : e.idValue = .str id) (hname : e.workflowName = .str name)
    (hstep : e.currentStep = .str step) (he : e.context = .dict entries)
    (hplain : (Value.dict entries).Plain) :
    (∃ row, ofExecution e = .ok row) ↔
      (Value.dict entries).nestingDepth ≤ Document.depthLimit ∧ (Value.dict entries).Encodes ∧
        fits e.version = true := by
  constructor
  · rintro ⟨row, hrow⟩
    obtain ⟨r, hr, hrow⟩ := exceptBind_ok.mp hrow
    obtain ⟨hdepth, rfl⟩ := (Row.ofExecution_iff hid hname hstep he hplain).mp hr
    obtain ⟨_, hversion, _, hfits⟩ := ofRow_columns hrow
    rw [hversion] at hfits
    obtain ⟨contextText, hcontext, _⟩ := exceptBind_ok.mp hrow
    exact ⟨hdepth, exists_write_iff.mp ⟨contextText, hcontext⟩, hfits⟩
  · rintro ⟨hdepth, hencodes, hfits⟩
    refine ofExecution_of_document hid hname hstep ?_ hencodes hfits
    rw [he]
    exact Document.ofValue_shallow hplain hdepth

/-- So the row of an execution has its id, where nothing stands in its place, and its
    version. -/
theorem ofExecution_columns (h : ofExecution e = .ok row) (howns : e.OwnsId) :
    row.id = e.id ∧ row.version = e.version ∧ row.createdText = e.createdAt.isoText ∧
      TableRow.fits row.version = true := by
  obtain ⟨r, hr, h⟩ := exceptBind_ok.mp h
  obtain ⟨id, name, step, entries, _, hid, _, _, rfl⟩ := Row.ofExecution_ok hr
  rw [show e.idValue = .str e.id from howns] at hid
  obtain ⟨hrowid, hversion, hcreated, hfits⟩ := ofRow_columns h
  exact ⟨hrowid.trans (Checked.ok.inj hid).symm, hversion, hcreated, hfits⟩

/-- The row of an execution whose history lasts and whose last change was in universal
    time keeps what is read of it. -/
theorem keeps_of_lasts {created : String} {t : Timestamp} (hrow : ofExecution e = .ok row)
    (hfits : TableRow.fits row.version = true) (hhistory : ∀ r ∈ e.history, r.Lasts)
    (hupdated : e.updatedAt.offset = some 0) (hcreated : Timestamp.ofIsoText? created = some t) :
    ∃ e', { row with createdText := created }.Keeps e' ∧ ∃ now, Reread now e e' := by
  obtain ⟨id, name, step, entries, _, _, _, _, hread⟩ := toExecution_ofExecution hrow
  have hshown (now : Timestamp) : { row with createdText := created }.toExecution now =
      .ok (e.reread id name step entries e.history t e.updatedAt) := by
    rw [hread, hcreated, Timestamp.ofIsoText?_isoText hupdated, Row.records_of_lasts hhistory]
    rfl
  exact ⟨_, ⟨hshown, hfits⟩, .defaultNow, reread_of_row hrow (hshown .defaultNow)⟩

end TableRow

end Workflow
