import Workflow.Proofs.Table

/-! # Lossless — an execution is what is read of its row

    A row keeps the context and the history of an execution as documents, which are
    written as JSON texts and parsed again.  What is then read of the row is the execution
    itself, with all records and keys in their order.  Only a context that is nested too
    deeply has no document, and one with an integer of too many digits no text.

    The heart is `row_lossless`; that a text is read as what was written, whatever the
    nesting, is `Json.read_write`. -/

namespace Workflow

variable {e : Execution} {row : Row} {contextText historyText : String}

/-- Is the execution made of texts and plain data, with a history that lasts? -/
structure Execution.Plain (e : Execution) : Prop where
  aside    : e.aside = []
  workflow : ∃ name, e.workflowName = .str name
  current  : ∃ step, e.currentStep = .str step
  subject  : e.subject.kind = .subject
  actor    : ∀ a, e.assignedActor = some a → a.kind = .actor
  context  : ∃ entries, e.context = .dict entries ∧ (Value.dict entries).Plain
  history  : ∀ r ∈ e.history, r.Lasts

namespace Execution

theorem Flat.plain (h : e.Flat) : e.Plain :=
  ⟨h.aside, h.workflow, h.current, h.subject, h.actor, h.context, h.history⟩

theorem Plain.idValue_eq (h : e.Plain) : e.idValue = .str e.id := ownsId_of_aside h.aside

end Execution

namespace Row

/-- Is this the row of the execution, with these texts for its context and its history? -/
structure Writes (row : Row) (contextText historyText : String) (e : Execution) : Prop where
  made    : ofExecution e = .ok row
  context : row.contextJson = .ok contextText
  history : row.historyJson = .ok historyText

/-- A plain execution is written just when its context has a document and a text. -/
theorem exists_writes_iff (h : e.Plain) :
    (∃ row contextText historyText, Writes row contextText historyText e) ↔
      e.context.nestingDepth ≤ Document.depthLimit ∧ e.context.isShort = true := by
  obtain ⟨name, hname⟩ := h.workflow
  obtain ⟨step, hstep⟩ := h.current
  obtain ⟨entries, he, hplain⟩ := h.context
  have hmade (row : Row) : ofExecution e = .ok row ↔
      (Value.dict entries).nestingDepth ≤ Document.depthLimit ∧
        row = filled e e.id name step entries :=
    ofExecution_iff h.idValue_eq hname hstep he hplain
  rw [he]
  constructor
  · rintro ⟨row, contextText, historyText, hwrites⟩
    obtain ⟨hdepth, rfl⟩ := (hmade row).mp hwrites.made
    exact ⟨hdepth, (Value.encodes_iff_short hplain).mp
      (TableRow.exists_write_iff.mp ⟨contextText, hwrites.context⟩)⟩
  · rintro ⟨hdepth, hshort⟩
    obtain ⟨contextText, hcontext⟩ :=
      TableRow.exists_write_iff.mpr ((Value.encodes_iff_short hplain).mpr hshort)
    -- Records are texts and a time, so a history has a text whatever it tells.
    obtain ⟨historyText, hhistory⟩ :=
      TableRow.exists_write_iff.mpr (Document.ofHistory_inherits inherited_encodes e.history)
    exact ⟨_, contextText, historyText, (hmade _).mpr ⟨hdepth, rfl⟩, hcontext, hhistory⟩

/-- What was written is read as the execution, when both texts are parsed. -/
theorem Writes.shown (hwrites : Writes row contextText historyText e) (h : e.Plain) :
    ∃ context history, Json.read? contextText = some (.dict context) ∧
      Json.read? historyText = some (.list history) ∧
      ∀ now, { row with context, history }.toExecution now = .ok e := by
  obtain ⟨name, hname⟩ := h.workflow
  obtain ⟨step, hstep⟩ := h.current
  obtain ⟨entries, he, hplain⟩ := h.context
  obtain ⟨_, rfl⟩ := (ofExecution_iff h.idValue_eq hname hstep he hplain).mp hwrites.made
  have hhistory : (Value.list (e.history.map Document.ofRecord)).Plain :=
    Document.ofHistory_inherits inherited_plain e.history
  refine ⟨entries, e.history.map Document.ofRecord,
    TableRow.read?_of_write hplain hwrites.context,
    TableRow.read?_of_write hhistory hwrites.history, fun now => ?_⟩
  have hshown := toExecution_filled e e.id name step entries e.createdAt e.updatedAt now
  rw [records_of_lasts h.history now, Except.map,
    Execution.reread_self h.aside hname hstep he h.subject h.actor] at hshown
  exact hshown

end Row

/-- A plain execution is written to a row with texts just when its context is not nested
    too deeply and its integers are short, and what is read of that row is the execution. -/
theorem row_lossless (h : e.Plain) :
    ((∃ row contextText historyText, Row.Writes row contextText historyText e) ↔
      e.context.nestingDepth ≤ Document.depthLimit ∧ e.context.isShort = true) ∧
    ∀ row contextText historyText, Row.Writes row contextText historyText e →
      ∃ context history, Json.read? contextText = some (.dict context) ∧
        Json.read? historyText = some (.list history) ∧
        ∀ now, { row with context, history }.toExecution now = .ok e :=
  ⟨Row.exists_writes_iff h, fun _ _ _ hwrites => hwrites.shown h⟩

/-- A crate with labels of all kinds, with times to the microsecond and a record that names
    no actor; nobody holds it any more. -/
def labelledCrate : Execution :=
  let packed : Timestamp := { Timestamp.defaultNow with micro := ⟨250000, by decide⟩ }
  let paused : Timestamp := { packed with hour := ⟨9, by decide⟩, micro := ⟨7, by decide⟩ }
  let labels : Mapping :=
    [(.str "weight", .float (.ofRatio (-5) 4)), (.str "\"up\"", .bool true),
      (.str "entrée", .list [.null, .int (-3), .list [], .dict [(.str "", .str "a\nb\\c")]])]
  { crate "exec-4" (.dict labels) with
    status := .paused, assignedActor := none, version := 3, updatedAt := paused
    history :=
      [⟨"ordered", "packed", "pack", none, packed⟩,
        ⟨"packed", "packed", "__pause__", some (.actor "user" "ada"), paused⟩] }

theorem labelledCrate_lossless : labelledCrate.Plain ∧
    ∃ row contextText historyText, Row.Writes row contextText historyText labelledCrate ∧
      ∃ context history, Json.read? contextText = some (.dict context) ∧
        Json.read? historyText = some (.list history) ∧
        ∀ now, { row with context, history }.toExecution now = .ok labelledCrate := by
  have hplain : labelledCrate.Plain := by
    refine ⟨rfl, ⟨_, rfl⟩, ⟨_, rfl⟩, rfl, (fun _ h => nomatch h),
      ⟨_, rfl, of_decide_eq_true (by decide +kernel)⟩, ?_⟩
    intro r hr
    rcases List.mem_cons.mp hr with rfl | hr
    · exact ⟨.universal rfl, fun _ h => nomatch h⟩
    · rw [List.mem_singleton.mp hr]
      refine ⟨.universal rfl, ?_⟩
      rintro a ⟨⟩
      rfl
  obtain ⟨hwritten, hshown⟩ := row_lossless hplain
  obtain ⟨row, contextText, historyText, hwrites⟩ :=
    hwritten.mpr ⟨by decide +kernel, by decide +kernel⟩
  exact ⟨hplain, row, contextText, historyText, hwrites, hshown _ _ _ hwrites⟩

/-- Being plain is not enough: a context that is nested too deeply has no document, and
    an integer of too many digits no text. -/
theorem heavyCrates_unwritten :
    let deep := crate "exec-1" (nestedList 255)
    let long := crate "exec-1" (.int (10 ^ 4300))
    (deep.Plain ∧ ∀ row contextText historyText, ¬Row.Writes row contextText historyText deep) ∧
    (long.Plain ∧ ∀ row contextText historyText, ¬Row.Writes row contextText historyText long) := by
  intro deep long
  have hdeep : deep.Plain := (crate_flat _ (of_decide_eq_true (by decide +kernel))).plain
  have hlong : long.Plain := (crate_flat _ (.int _)).plain
  refine ⟨⟨hdeep, fun _ _ _ hwrites => ?_⟩, hlong, fun _ _ _ hwrites => ?_⟩
  · have hdepth := ((Row.exists_writes_iff hdeep).mp ⟨_, _, _, hwrites⟩).1
    exact absurd hdepth (by decide +kernel)
  · have hshort := ((Row.exists_writes_iff hlong).mp ⟨_, _, _, hwrites⟩).2
    exact absurd hshort (by decide +kernel)

end Workflow
