import Mathlib.Data.List.Forall2
import Workflow.Proofs.Calendar
import Workflow.Proofs.Mirror

/-! # Table — a table of rows answers as a store in memory does

    An execution that is tabular, with texts as names, a plain context that has a document
    and a JSON text, and times of universal time, is read of its row exactly as it was.  So
    while only such executions are put in, the rows of a table are those of the
    executions that a store in memory would hold, and both stores answer alike.

    The heart is `Twin.serve`, one call of both stores at once; `Store.Alike` says it of
    every sequence of calls. -/

namespace Workflow

variable {e p x : Execution} {now : Timestamp} {v : Int} {row : TableRow}

/-! ## Values with a JSON text -/

namespace Value

mutual

/-- Have all integers of the value few enough digits to be written? -/
def isShort : Value → Bool
  | .scalar s => !Json.isLong s
  | .list xs  => areAllShort xs
  | .dict es  => holdShort es
  | _         => true

/-- Those of all items? -/
def areAllShort : List Value → Bool
  | []      => true
  | x :: xs => isShort x && areAllShort xs

/-- Those of the values of all entries? -/
def holdShort : List (Value × Value) → Bool
  | []           => true
  | (_, v) :: es => isShort v && holdShort es

end

theorem areAllShort_iff {xs : List Value} :
    areAllShort xs = true ↔ ∀ x ∈ xs, x.isShort = true := by
  induction xs with
  | nil => exact ⟨fun _ _ h => absurd h List.not_mem_nil, fun _ => rfl⟩
  | cons x xs ih => rw [areAllShort, Bool.and_eq_true, ih, List.forall_mem_cons]

theorem holdShort_iff {es : Mapping} :
    holdShort es = true ↔ ∀ e ∈ es, e.2.isShort = true := by
  induction es with
  | nil => exact ⟨fun _ _ h => absurd h List.not_mem_nil, fun _ => rfl⟩
  | cons e es ih => rw [holdShort, Bool.and_eq_true, ih, List.forall_mem_cons]

/-- Plain data has a JSON text just when its integers are short. -/
theorem encodes_iff_short {v : Value} (h : v.Plain) : v.Encodes ↔ v.isShort = true := by
  induction h with
  | null => exact iff_of_true ⟨_, rfl⟩ rfl
  | bool b => cases b <;> exact iff_of_true ⟨_, rfl⟩ rfl
  | int i =>
      rw [Encodes, Json.encode, isShort]
      cases Json.isLong (.int i) with
      | false => exact iff_of_true ⟨intText i, rfl⟩ rfl
      | true  =>
          refine iff_of_false ?_ Bool.false_ne_true
          rintro ⟨_, hcs⟩
          cases hcs
  | float _ => exact iff_of_true ⟨_, rfl⟩ rfl
  | str s => exact iff_of_true (encodes_str s) rfl
  | list _ ih =>
      rw [encodes_list, isShort, areAllShort_iff]
      exact forall₂_congr ih
  | dict hkeys _ _ ih =>
      rw [encodes_dict, isShort, holdShort_iff]
      refine forall₂_congr fun e he => ?_
      obtain ⟨k, hk⟩ := hkeys e he
      exact (and_iff_right ⟨k, hk ▸ rfl⟩).trans (ih e he)

end Value

/-! ## Executions that fit into a row -/

/-- The columns by which rows are listed. -/
theorem TableRow.ofRow_names {r : Row} (h : ofRow r = .ok row) :
    row.workflowName = r.workflowName ∧ row.subjectType = r.subjectType ∧
      row.subjectId = r.subjectId ∧ row.status = r.status := by
  obtain ⟨contextText, _, h⟩ := exceptBind_ok.mp h
  obtain ⟨historyText, _, h⟩ := exceptBind_ok.mp h
  simp only [Bool.not_eq_true'] at h
  split at h
  · exact nomatch h
  · rw [← Except.ok.inj h]
    exact ⟨rfl, rfl, rfl, rfl⟩

/-- Is the execution made of texts and plain data, with a history that lasts, times of
    universal time and a version that a table can hold? -/
structure Execution.Flat (e : Execution) : Prop where
  aside    : e.aside = []
  workflow : ∃ name, e.workflowName = .str name
  current  : ∃ step, e.currentStep = .str step
  subject  : e.subject.kind = .subject
  actor    : ∀ a, e.assignedActor = some a → a.kind = .actor
  context  : ∃ entries, e.context = .dict entries ∧ (Value.dict entries).Plain
  history  : ∀ r ∈ e.history, r.Lasts
  fits     : TableRow.fits e.version = true
  created  : e.createdAt.offset = some 0
  updated  : e.updatedAt.offset = some 0

/-- Is it one that a row keeps in full?  Its context must have a document and a text. -/
structure Execution.Tabular (e : Execution) : Prop extends e.Flat where
  depth : e.context.nestingDepth ≤ Document.depthLimit
  short : e.context.isShort = true

namespace Execution.Tabular

theorem idValue_eq (h : e.Tabular) : e.idValue = .str e.id := ownsId_of_aside h.aside

/-- What a store commits of it is tabular again. -/
theorem committed (h : p.Tabular) (hv : TableRow.fits (v + 1) = true)
    (hnow : now.offset = some 0) : (p.committed v now).Tabular := by
  have haside : (p.committed v now).aside = [] := by
    show Mapping.erase p.aside "version" = []
    rw [h.aside]
    rfl
  exact ⟨⟨haside, h.workflow, h.current, h.subject, h.actor, h.context, h.history, hv,
    h.created, hnow⟩, h.depth, h.short⟩

end Execution.Tabular

/-- Does the row hold the execution, in columns by which it is found and listed? -/
structure TableRow.Copies (row : TableRow) (e : Execution) : Prop where
  shown    : ∀ now, row.toExecution now = .ok e
  id       : row.id = e.id
  workflow : e.workflowName = .str row.workflowName
  subject  : e.subject = .subject row.subjectType row.subjectId
  status   : row.status = e.status.text
  version  : row.version = e.version
  created  : row.createdText = e.createdAt.isoText

namespace TableRow

/-- A tabular execution is written to a row that holds it. -/
theorem copies_of_tabular (h : e.Tabular) :
    ∃ row, ofExecution e = .ok row ∧ row.Copies e := by
  obtain ⟨name, hname⟩ := h.workflow
  obtain ⟨step, hstep⟩ := h.current
  obtain ⟨entries, he, hplain⟩ := h.context
  have hfilled := Row.ofExecution_plain h.idValue_eq hname hstep he hplain (he ▸ h.depth)
  obtain ⟨row, htexts⟩ := ofRow_filled e.id name step
    ((Value.encodes_iff_short hplain).mpr (he ▸ h.short)) h.fits
  obtain ⟨hid, hversion, hcreated, _⟩ := ofRow_columns htexts
  obtain ⟨hworkflow, htype, hsubject, hstatus⟩ := ofRow_names htexts
  have htime : row.createdText = e.createdAt.isoText := hcreated
  have hkind : e.subject = .subject e.subject.type e.subject.id :=
    congrArg (fun k => (⟨k, e.subject.type, e.subject.id⟩ : EntityRef)) h.subject
  have hreread := Execution.reread_self h.aside hname hstep he h.subject h.actor
  have hshown (now : Timestamp) : row.toExecution now = .ok e := by
    have hhistory : (Value.list (Row.filled e e.id name step entries).history).Plain :=
      Document.ofHistory_inherits inherited_plain e.history
    have hupdated : (Row.filled e e.id name step entries).updatedAt = e.updatedAt := rfl
    have hread := toRow_ofRow hplain hhistory htexts row.createdText
    rw [hupdated, Timestamp.ofIsoText?_isoText h.updated,
      htime,
      Timestamp.ofIsoText?_isoText h.created, ← htime] at hread
    have hexecution := Row.toExecution_filled e e.id name step entries e.createdAt e.updatedAt now
    rw [Row.records_of_lasts h.history now, Except.map, hreread] at hexecution
    exact exceptBind_ok.mpr ⟨_, hread, hexecution⟩
  exact ⟨row, exceptBind_ok.mpr ⟨_, hfilled, htexts⟩, hshown, hid,
    hname.trans (congrArg Value.str hworkflow.symm), by rw [htype, hsubject]; exact hkind,
    hstatus, hversion, htime⟩

end TableRow

/-! ## A table beside a store in memory -/

/-- Do the rows of the table hold these executions, one row for each id, in the order
    of their creation? -/
structure TableStore.Twins (t : TableStore) (m : MemoryStore) : Prop where
  kept     : List.Forall₂ TableRow.Copies t.rows m.executions
  distinct : (t.rows.map (·.id)).Nodup
  ordered  : m.executions.Pairwise fun x y => x.createdAt.instant ≤ y.createdAt.instant
  created  : ∀ x ∈ m.executions, x.createdAt.offset = some 0

namespace TableStore.Twins

variable {t : TableStore} {m : MemoryStore}

theorem empty : Twins {} {} := ⟨.nil, .nil, .nil, fun _ hx => nomatch hx⟩

theorem rel_get? (h : t.Twins m) (id : String) :
    Option.Rel TableRow.Copies (t.rows.find? fun r => r.id == id) (m.get? id) :=
  rel_find? h.kept fun r e hc => by rw [hc.id]

/-! ### Looking up -/

theorem find?_eq (h : t.Twins m) (now : Timestamp) (id : String) :
    t.find? now (.str id) = m.find? (.str id) := by
  rw [MemoryStore.find?_str]
  show t.get? now id = _
  unfold get?
  have hrel := h.rel_get? id
  cases hr : t.rows.find? fun r => r.id == id with
  | none =>
      rw [hr] at hrel
      cases hm : m.get? id with
      | none => rfl
      | some e => exact nomatch hm ▸ hrel
  | some r =>
      rw [hr] at hrel
      cases hm : m.get? id with
      | none => exact nomatch hm ▸ hrel
      | some e =>
          rw [hm] at hrel
          cases hrel with
          | some hc =>
              dsimp only
              rw [hc.shown now]
              rfl

/-- What is not in memory has no row. -/
theorem ne_of_get?_none (h : t.Twins m) {id : String} (hm : m.get? id = none) :
    ∀ r ∈ t.rows, r.id ≠ id := by
  intro r hr hid
  have hrel := h.rel_get? id
  rw [hm, ← hid, find?_of_mem h.distinct hr] at hrel
  exact nomatch hrel

/-- What is in memory has its row. -/
theorem row_of_get? (h : t.Twins m) {id : String} {x : Execution} (hm : m.get? id = some x) :
    ∃ r ∈ t.rows, r.id = id ∧ r.Copies x := by
  have hrel := h.rel_get? id
  rw [hm] at hrel
  cases hr : t.rows.find? fun r => r.id == id with
  | none => exact nomatch hr ▸ hrel
  | some r =>
      rw [hr] at hrel
      cases hrel with
      | some hc =>
          exact ⟨r, List.mem_of_find?_eq_some hr,
            beq_iff_eq.mp (List.find?_some (p := fun r : TableRow => r.id == id) hr), hc⟩

/-! ### Listing -/

/-- Rows are read one by one. -/
theorem executions_of_copies {rows : List TableRow} {es : List Execution}
    (h : List.Forall₂ TableRow.Copies rows es) (now : Timestamp) :
    executions now rows = .ok es := by
  induction h with
  | nil => rfl
  | cons hc _ ih =>
      exact exceptBind_ok.mpr ⟨_, hc.shown now, exceptBind_ok.mpr ⟨_, ih, rfl⟩⟩

/-- Rows of executions in order of their creation are sorted already: their times are of
    universal time, so the texts are in order too. -/
theorem sorted_of_copies {rows : List TableRow} {es : List Execution}
    (h : List.Forall₂ TableRow.Copies rows es)
    (hordered : es.Pairwise fun x y => x.createdAt.instant ≤ y.createdAt.instant)
    (hcreated : ∀ x ∈ es, x.createdAt.offset = some 0) : sorted rows = rows := by
  have htexts : rows.map (·.createdText) = es.map (·.createdAt.isoText) := by
    rw [← List.forall₂_eq_eq_eq, List.forall₂_map_left_iff, List.forall₂_map_right_iff]
    exact h.imp fun _ _ hc => hc.created
  have hsorted : (rows.map (·.createdText)).Pairwise fun s t => s ≤ t := by
    rw [htexts, List.pairwise_map]
    exact hordered.imp_of_mem fun hx hy hle =>
      Timestamp.isoText_le (hcreated _ hx) (hcreated _ hy) hle
  exact List.mergeSort_of_pairwise ((List.pairwise_map.mp hsorted).imp fun hle =>
    decide_eq_true hle)

/-- So the rows that a test picks show the executions that its like picks in memory, in
    the same order. -/
theorem executions_sorted (h : t.Twins m) {p : TableRow → Bool} {q : Execution → Bool}
    (hpq : ∀ r e, TableRow.Copies r e → p r = q e) (now : Timestamp) :
    executions now (sorted (t.rows.filter p)) = .ok (m.executions.filter q) := by
  have hpicked : List.Forall₂ TableRow.Copies (t.rows.filter p) (m.executions.filter q) :=
    List.rel_filter (fun r e hc => iff_of_eq (congrArg (· = true) (hpq r e hc))) h.kept
  rw [sorted_of_copies hpicked (h.ordered.filter q) fun x hx =>
    h.created x (List.mem_filter.mp hx).1]
  exact executions_of_copies hpicked now

end TableStore.Twins

/-- Is the filter for a text as workflow and for a status of executions? -/
structure Filter.Regular (f : Filter) : Prop where
  workflow : ∀ v, f.workflow = some v → ∃ name, v = .str name
  status   : ∀ v, f.status = some v → ∃ s : Status, v.toText? = some s.text

theorem Filter.Regular.all : ({} : Filter).Regular := by
  constructor
  · intro v hv
    exact nomatch hv
  · intro v hv
    exact nomatch hv

namespace TableStore.Twins

variable {t : TableStore} {m : MemoryStore}

theorem list_eq (h : t.Twins m) {f : Filter} (hf : f.Regular) (now : Timestamp) :
    t.list now f = .ok (m.list f) := by
  obtain ⟨workflow, hworkflow⟩ : ∃ o : Option (Option String),
      f.workflow.mapM comparand = .ok o ∧ ∀ r e, TableRow.Copies r e →
        (o.all fun name => name == some r.workflowName) =
          f.workflow.all fun v => e.workflowName.equal v := by
    cases hv : f.workflow with
    | none => exact ⟨none, rfl, fun _ _ _ => rfl⟩
    | some v =>
        obtain ⟨name, rfl⟩ := hf.workflow v hv
        refine ⟨some (some name), rfl, fun r e hc => ?_⟩
        rw [Option.all_some, Option.all_some, hc.workflow, Value.str_equal_str]
        rfl
  obtain ⟨status, hstatus⟩ : ∃ o : Option Status, f.status? = .ok o ∧
      ∀ r e, TableRow.Copies r e → (o.all fun s => s.text == r.status) =
        f.status.all fun v => (Value.status e.status).equal v := by
    unfold Filter.status?
    cases hv : f.status with
    | none => exact ⟨none, rfl, fun _ _ _ => rfl⟩
    | some v =>
        obtain ⟨s, hs⟩ := hf.status v hv
        refine ⟨some s, ?_, fun r e hc => ?_⟩
        · dsimp only
          rw [hs, Option.bind_some, Status.ofText?_text]
        · rw [Option.all_some, Option.all_some, hc.status,
            Mapping.text_equal (t := e.status.text) rfl, hs]
          rfl
  refine exceptBind_ok.mpr ⟨status, hstatus.1, exceptBind_ok.mpr ⟨workflow, hworkflow.1, ?_⟩⟩
  exact h.executions_sorted (fun r e hc => by rw [hworkflow.2 r e hc, hstatus.2 r e hc]) now

theorem findForSubject_eq (h : t.Twins m) (type id : String) (now : Timestamp) :
    t.findForSubject now (.ref (.subject type id)) =
      .ok (m.findForSubject (.ref (.subject type id))) := by
  refine h.executions_sorted (fun r e hc => ?_) now
  rw [hc.subject]
  show _ = (EntityRef.subject r.subjectType r.subjectId == EntityRef.subject type id)
  rw [Bool.eq_iff_iff, Bool.and_eq_true, beq_iff_eq, beq_iff_eq, beq_iff_eq]
  unfold EntityRef.subject
  rw [EntityRef.mk.injEq]
  simp only [true_and]

/-! ### Putting in -/

/-- A creation goes through in both stores or in neither. -/
theorem create (h : t.Twins m) (he : e.Tabular)
    (hlast : ∀ x ∈ m.executions, x.createdAt.instant ≤ e.createdAt.instant) :
    (∃ f g, m.create e = .error f ∧ t.create e = .error g) ∨
      ∃ t', m.create e = .ok ⟨m.executions ++ [e]⟩ ∧ t.create e = .ok t' ∧
        t'.Twins ⟨m.executions ++ [e]⟩ := by
  obtain ⟨row, hrow, hcopies⟩ := TableRow.copies_of_tabular he
  cases hm : m.get? e.id with
  | some x =>
      obtain ⟨r, hr, hid, _⟩ := h.row_of_get? hm
      have hany : (t.rows.any fun r => r.id == e.id) = true :=
        List.any_eq_true.mpr ⟨r, hr, beq_iff_eq.mpr hid⟩
      refine .inl ⟨.refused s!"Execution {e.id} already exists", TableRow.duplicate, ?_, ?_⟩
      · unfold MemoryStore.create
        rw [hm]
        rfl
      · unfold TableStore.create
        rw [hrow, hany]
        rfl
  | none =>
      have hnew := h.ne_of_get?_none hm
      have hany : (t.rows.any fun r => r.id == e.id) = false :=
        List.any_eq_false.mpr fun r hr => by simpa using hnew r hr
      refine .inr ⟨⟨t.rows ++ [row]⟩, ?_, ?_, ?_, ?_, ?_, ?_⟩
      · unfold MemoryStore.create
        rw [hm]
        rfl
      · unfold TableStore.create
        rw [hrow, hany]
        rfl
      · exact List.rel_append h.kept (.cons hcopies .nil)
      · rw [List.map_append, List.nodup_append]
        refine ⟨h.distinct, List.nodup_singleton _, ?_⟩
        rintro id hid _ hlastId rfl
        obtain ⟨r, hr, rfl⟩ := List.mem_map.mp hid
        exact hnew r hr ((List.mem_singleton.mp hlastId).trans hcopies.id)
      · refine List.pairwise_append.mpr ⟨h.ordered, List.pairwise_singleton _ _, ?_⟩
        intro x hx y hy
        rw [List.mem_singleton.mp hy]
        exact hlast x hx
      · intro x hx
        rcases List.mem_append.mp hx with hx | hx
        · exact h.created x hx
        · exact List.mem_singleton.mp hx ▸ he.created

/-- What a save puts in the place of a row is the row of the offer: only the creation
    time of the old row stays, and it is the same. -/
theorem replace (h : t.Twins m) {row r : TableRow} (hcopies : row.Copies e)
    (hr : r ∈ t.rows) (hid : r.id = row.id) (hv : r.version = v)
    (hkeeps : ∀ x ∈ m.executions, x.id = e.id → e.createdAt = x.createdAt) :
    Twins ⟨t.rows.map fun r => if r.id == row.id && r.version == v then updateRow r row else r⟩
      (m.replace e) := by
  have hcreated : ∀ x ∈ m.executions, (if x.id = e.id then e else x).createdAt = x.createdAt := by
    intro x hx
    split
    · exact hkeeps x hx ‹_›
    · rfl
  refine ⟨?_, ?_, ?_, ?_⟩
  · refine List.forall₂_map_left_iff.mpr (List.forall₂_map_right_iff.mpr ?_)
    refine List.forall₂_iff_zip.mpr ⟨h.kept.length_eq, fun {r'} {x} hzip => ?_⟩
    obtain ⟨hr', hx⟩ := List.of_mem_zip hzip
    have hc := (List.forall₂_iff_zip.mp h.kept).2 hzip
    by_cases hsame : r'.id = row.id
    · -- Only one row has the id of the offer.
      obtain rfl : r' = r := List.inj_on_of_nodup_map h.distinct hr' hr (hsame.trans hid.symm)
      have hxid : x.id = e.id := hc.id.symm.trans (hsame.trans hcopies.id)
      have htext : r'.createdText = row.createdText := by
        rw [hc.created, hcopies.created, hkeeps x hx hxid]
      rw [if_pos (by rw [Bool.and_eq_true, beq_iff_eq, beq_iff_eq]; exact ⟨hid, hv⟩), if_pos hxid]
      show TableRow.Copies { row with createdText := r'.createdText } e
      rw [htext]
      exact hcopies
    · have hxid : x.id ≠ e.id := fun hxid =>
        hsame (hc.id.trans (hxid.trans hcopies.id.symm))
      rw [if_neg (by rw [Bool.and_eq_true, beq_iff_eq]; exact fun h => hsame h.1), if_neg hxid]
      exact hc
  · rw [updated_ids]
    exact h.distinct
  · refine List.pairwise_map.mpr (h.ordered.imp_of_mem fun hx hy hle => ?_)
    rw [hcreated _ hx, hcreated _ hy]
    exact hle
  · intro y hy
    obtain ⟨x, hx, rfl⟩ := List.mem_map.mp hy
    rw [hcreated x hx]
    exact h.created x hx

/-- A save goes through in both stores, or fails in both in the same words. -/
theorem save (h : t.Twins m) (hp : p.Tabular) (hv : TableRow.fits v = true)
    (hnext : TableRow.fits (v + 1) = true) (hnow : now.offset = some 0)
    (hkeeps : ∀ x ∈ m.executions, x.id = p.id → p.createdAt = x.createdAt) :
    (∃ f, m.save now p v = .error f ∧ t.save now p v = .error f) ∨
      ∃ t', m.save now p v = .ok (p.committed v now, m.replace (p.committed v now)) ∧
        t.save now p v = .ok (p.committed v now, t') ∧
        t'.Twins (m.replace (p.committed v now)) := by
  obtain ⟨row, hrow, hcopies⟩ := TableRow.copies_of_tabular (hp.committed hnext hnow)
  have hrowid : row.id = p.id := hcopies.id
  have hfind : m.find? p.idValue = .ok (m.get? p.id) := m.find?_of_ownsId hp.idValue_eq
  have hseen : t.find? now p.idValue = .ok (m.get? p.id) := by
    rw [hp.idValue_eq, h.find?_eq now, MemoryStore.find?_str]
  -- Both look for the stored version, the table for its row.
  have hfail (f : Failure) (hnone : ∀ r ∈ t.rows, r.id = p.id → r.version ≠ v)
      (hf : ((m.get? p.id).elim (.missingKey p.idValue.display) fun x =>
        lostUpdate p.id v x.version (some x)) = f) :
      t.save now p v = .error f := by
    have hany : (t.rows.any fun r => r.id == row.id && r.version == v) = false :=
      List.any_eq_false.mpr fun r hr => by
        rw [hrowid]
        simpa using hnone r hr
    unfold TableStore.save
    dsimp only
    rw [hrow, hv]
    simp only [bind, Except.bind, hany, hseen, Bool.not_true, Bool.false_eq_true, if_false]
    rw [← hf]
    cases m.get? p.id with
    | none => rfl
    | some x => rfl
  cases hm : m.get? p.id with
  | none =>
      refine .inl ⟨.missingKey p.idValue.display, ?_, hfail _ ?_ (by rw [hm]; rfl)⟩
      · unfold MemoryStore.save
        rw [hfind, hm]
        rfl
      · intro r hr hid
        exact absurd hid (h.ne_of_get?_none hm r hr)
  | some x =>
      obtain ⟨r, hr, hid, hc⟩ := h.row_of_get? hm
      by_cases hversion : x.version = v
      · refine .inr ⟨_, MemoryStore.save_ok.mpr ⟨x, hfind.trans (by rw [hm]), hversion, rfl, rfl⟩,
          TableStore.save_ok.mpr ⟨rfl, hv, row, hrow, ⟨r, hr, hid.trans hrowid.symm, ?_⟩, rfl⟩,
          h.replace hcopies hr (hid.trans hrowid.symm) ?_ hkeeps⟩
        · exact hc.version.trans hversion
        · exact hc.version.trans hversion
      · refine .inl ⟨lostUpdate p.id v x.version (some x), ?_, hfail _ ?_ (by rw [hm]; rfl)⟩
        · unfold MemoryStore.save
          rw [hfind, hm]
          simp only [bind, Except.bind, if_neg hversion]
          rfl
        · intro r' hr' hid' hv'
          obtain rfl := List.inj_on_of_nodup_map h.distinct hr' hr (hid'.trans hid.symm)
          exact hversion (hc.version.symm.trans hv')

end TableStore.Twins

/-! ## Calls of stores -/

/-- A request to a store, at its time. -/
structure StoreCall where
  now     : Timestamp
  request : Request

/-- The answer of a store that is called on its own, and the store afterwards. -/
def Store.serve (s : Store) (c : StoreCall) : c.request.Answer × Store :=
  let r := ({ store := s, now := c.now } : World).answer c.request
  (r.1, r.2.store)

/-- May the store be called so?  Executions must be tabular, new ones no older than what
    is stored, and a save must keep the creation time; lookups and filters must be ones
    that both kinds of store take. -/
def Store.Admits (s : Store) (c : StoreCall) : Prop :=
  c.now.offset = some 0 ∧
  match c.request with
  | .load id          => ∃ name, id = .str name
  | .insert e         => e.Tabular ∧
      ∀ x, s.Holds x → x.createdAt.instant ≤ e.createdAt.instant
  | .save e v         => (e.Tabular ∧ TableRow.fits v = true ∧ TableRow.fits (v + 1) = true) ∧
      ∀ x, s.Holds x → x.id = e.id → e.createdAt = x.createdAt
  | .list f           => f.Regular
  | .findForSubject v => ∃ type id, v = .ref (.subject type id)
  | _                 => True

/-- May it be called so many times in a row? -/
def Store.AdmitsAll (s : Store) : List StoreCall → Prop
  | []      => True
  | c :: cs => s.Admits c ∧ (s.serve c).2.AdmitsAll cs

/-- Do two stores, which were these before, answer a request alike?  Only creations may
    be refused in different words; then nothing is stored. -/
def Request.Alike (s s' : Store) : (q : Request) → q.Answer × Store → q.Answer × Store → Prop
  | .insert _, (.error _, t), (.error _, t') => t = s ∧ t' = s'
  | _,         (a, _),        (a', _)        => a = a'

/-- Do two stores answer all calls alike, and hold the same all the time? -/
def Store.Alike (s s' : Store) : List StoreCall → Prop
  | []      => ∀ now, s.list now {} = s'.list now {}
  | c :: cs => (∀ now, s.list now {} = s'.list now {}) ∧
      c.request.Alike s s' (s.serve c) (s'.serve c) ∧
      (s.serve c).2.Alike (s'.serve c).2 cs

namespace TableStore.Twins

variable {t : TableStore} {m : MemoryStore} {c : StoreCall}

/-- A call of both stores is answered alike, and they stay twins. -/
theorem serve (h : t.Twins m) (hc : (Store.memory m).Admits c) :
    ∃ t' m', ((Store.memory m).serve c).2 = .memory m' ∧
      ((Store.table t).serve c).2 = .table t' ∧ t'.Twins m' ∧
      c.request.Alike (.memory m) (.table t) ((Store.memory m).serve c)
        ((Store.table t).serve c) := by
  obtain ⟨now, q⟩ := c
  obtain ⟨hnow, hc⟩ := hc
  cases q with
  | load id =>
      obtain ⟨name, rfl⟩ := hc
      exact ⟨t, m, rfl, rfl, h, (h.find?_eq now name).symm⟩
  | insert e =>
      obtain ⟨he, hlast⟩ := hc
      unfold Store.serve World.answer World.insert
      rcases h.create he hlast with ⟨f, g, hm, ht⟩ | ⟨t', hm, ht, h'⟩
      · simp only [Store.create, hm, ht, Except.map]
        exact ⟨t, m, rfl, rfl, h, rfl, rfl⟩
      · simp only [Store.create, hm, ht, Except.map]
        exact ⟨t', _, rfl, rfl, h', rfl⟩
  | save e v =>
      obtain ⟨⟨he, hv, hnext⟩, hkeeps⟩ := hc
      unfold Store.serve World.answer World.save World.commit
      rcases h.save he hv hnext hnow hkeeps with ⟨f, hm, ht⟩ | ⟨t', hm, ht, h'⟩
      · simp only [Store.save, hm, ht, Except.map]
        exact ⟨t, m, rfl, rfl, h, rfl⟩
      · simp only [Store.save, hm, ht, Except.map]
        exact ⟨t', _, rfl, rfl, h', rfl⟩
  | list f => exact ⟨t, m, rfl, rfl, h, (h.list_eq hc now).symm⟩
  | findForSubject v =>
      obtain ⟨type, id, rfl⟩ := hc
      exact ⟨t, m, rfl, rfl, h, (h.findForSubject_eq type id now).symm⟩
  | _ => exact ⟨t, m, rfl, rfl, h, rfl⟩

theorem contents_eq (h : t.Twins m) (now : Timestamp) :
    (Store.memory m).list now {} = (Store.table t).list now {} :=
  (h.list_eq .all now).symm

/-- So are all calls. -/
theorem alike {cs : List StoreCall} (h : t.Twins m) (hcs : (Store.memory m).AdmitsAll cs) :
    (Store.memory m).Alike (.table t) cs := by
  induction cs generalizing t m with
  | nil => exact h.contents_eq
  | cons c cs ih =>
      obtain ⟨t', m', hm, ht, h', halike⟩ := h.serve hcs.1
      refine ⟨h.contents_eq, halike, ?_⟩
      rw [hm, ht]
      exact ih h' (hm ▸ hcs.2)

end TableStore.Twins

/-- A table that starts empty answers as a store in memory does. -/
theorem table_answers_as_memory (calls : List StoreCall)
    (h : (Store.memory {}).AdmitsAll calls) : (Store.memory {}).Alike (.table {}) calls :=
  TableStore.Twins.empty.alike h

/-- A crate with a weight. -/
def crate (id : String) (weight : Value) : Execution :=
  { id, workflowName := .str "crate", subject := .subject "Crate" id
    currentStep := .str "packed", status := .active
    context := .dict [(.str "weight", weight)]
    history := [⟨"ordered", "packed", "pack", some (.actor "user" "ada"), .defaultNow⟩]
    assignedActor := some (.actor "user" "ada"), version := 0
    createdAt := .defaultNow, updatedAt := .defaultNow }

/-- Crates are flat when their weight is plain. -/
theorem crate_flat (id : String) {weight : Value} (h : weight.Plain) :
    (crate id weight).Flat := by
  have hplain : (Value.dict [(.str "weight", weight)]).Plain := by
    refine .dict ?_ ?_ ?_
    · intro e he
      exact ⟨"weight", congrArg Prod.fst (List.mem_singleton.mp he)⟩
    · exact List.nodup_singleton _
    · intro e he
      rw [List.mem_singleton.mp he]
      exact h
  refine ⟨rfl, ⟨_, rfl⟩, ⟨_, rfl⟩, rfl, ?_, ⟨_, rfl, hplain⟩, ?_, rfl, rfl, rfl⟩
  · rintro a ⟨⟩
    rfl
  · intro r hr
    rw [List.mem_singleton.mp hr]
    refine ⟨.universal rfl, ?_⟩
    rintro a ⟨⟩
    rfl

/-- Creations, one of them twice, saves of which one is late and one is of nothing, and
    lookups. -/
def crateCalls : List StoreCall :=
  let first := crate "exec-1" (.int 3)
  let second := crate "exec-2" (.list [.null, .str "heavy"])
  [⟨.defaultNow, .insert first⟩, ⟨.defaultNow, .insert second⟩, ⟨.defaultNow, .insert first⟩,
    ⟨.defaultNow, .save { first with status := .paused } 0⟩, ⟨.defaultNow, .save first 0⟩,
    ⟨.defaultNow, .save (crate "exec-3" .null) 0⟩, ⟨.defaultNow, .load (.str "exec-1")⟩,
    ⟨.defaultNow, .list ⟨some (.str "crate"), some (.str "paused")⟩⟩,
    ⟨.defaultNow, .findForSubject (.ref (.subject "Crate" "exec-2"))⟩]

theorem crateCalls_alike : (Store.memory {}).AdmitsAll crateCalls ∧
    (Store.memory {}).Alike (.table {}) crateCalls := by
  have hfirst : (crate "exec-1" (.int 3)).Tabular :=
    ⟨crate_flat _ (.int 3), by decide, by decide +kernel⟩
  have hsecond : (crate "exec-2" (.list [.null, .str "heavy"])).Tabular :=
    ⟨crate_flat _ (of_decide_eq_true rfl), by decide, by decide +kernel⟩
  have hthird : (crate "exec-3" .null).Tabular :=
    ⟨crate_flat _ .null, by decide, by decide +kernel⟩
  have hpaused : ({ crate "exec-1" (.int 3) with status := .paused } : Execution).Tabular :=
    ⟨⟨rfl, hfirst.workflow, hfirst.current, rfl, hfirst.actor, hfirst.context, hfirst.history,
      rfl, rfl, rfl⟩, hfirst.depth, hfirst.short⟩
  have hadmits : (Store.memory {}).AdmitsAll crateCalls := by
    refine ⟨⟨rfl, hfirst, fun _ hx => nomatch hx⟩, ⟨rfl, hsecond, ?_⟩, ⟨rfl, hfirst, ?_⟩,
      ⟨rfl, ⟨hpaused, rfl, rfl⟩, ?_⟩, ⟨rfl, ⟨hfirst, rfl, rfl⟩, ?_⟩,
      ⟨rfl, ⟨hthird, rfl, rfl⟩, ?_⟩, ⟨rfl, _, rfl⟩, ⟨rfl, ?_, ?_⟩, ⟨rfl, _, _, rfl⟩, trivial⟩
    · show ∀ x ∈ [crate "exec-1" (.int 3)], _
      decide +kernel
    · show ∀ x ∈ [crate "exec-1" (.int 3), crate "exec-2" (.list [.null, .str "heavy"])], _
      decide +kernel
    · show ∀ x ∈ [crate "exec-1" (.int 3), crate "exec-2" (.list [.null, .str "heavy"])], _
      decide +kernel
    · show ∀ x ∈ [{ crate "exec-1" (.int 3) with status := .paused, version := 1 },
        crate "exec-2" (.list [.null, .str "heavy"])], _
      decide +kernel
    · show ∀ x ∈ [{ crate "exec-1" (.int 3) with status := .paused, version := 1 },
        crate "exec-2" (.list [.null, .str "heavy"])], _
      decide +kernel
    · rintro v ⟨⟩
      exact ⟨_, rfl⟩
    · rintro v ⟨⟩
      exact ⟨.paused, rfl⟩
  exact ⟨hadmits, table_answers_as_memory crateCalls hadmits⟩

/-- Being flat is not enough for the table: a context that is nested too deeply has no
    document, and an integer of too many digits no text. -/
theorem heavyCrates_differ :
    let deep := crate "exec-1" (nestedList 255)
    let long := crate "exec-1" (.int (10 ^ 4300))
    (deep.Flat ∧ ¬ (Store.memory {}).Alike (.table {}) [⟨.defaultNow, .insert deep⟩]) ∧
    (long.Flat ∧ ¬ (Store.memory {}).Alike (.table {}) [⟨.defaultNow, .insert long⟩]) := by
  have hdiffer (e : Execution) (h : (({} : TableStore).create e).toOption.isNone = true) :
      ¬ (Store.memory {}).Alike (.table {}) [⟨.defaultNow, .insert e⟩] := by
    rintro ⟨_, halike, _⟩
    unfold Store.serve World.answer World.insert at halike
    cases ht : ({} : TableStore).create e with
    | ok t => rw [ht] at h; exact nomatch h
    | error f =>
        simp only [Store.create, ht, Except.map, MemoryStore.create] at halike
        cases halike
  exact ⟨⟨crate_flat _ (of_decide_eq_true (by decide +kernel)), hdiffer _ (by decide +kernel)⟩,
    ⟨crate_flat _ (.int _), hdiffer _ (by decide +kernel)⟩⟩

end Workflow
