import Workflow.Proofs.Reading
import Workflow.Proofs.Slot

/-! # Reread — what is stored can be read again

    A row that can be read at one time can be read at any other, and shows the same: the
    present only stands in for times that are missing in the history.  A history that was
    read of a row can be written into one and read again, for its times are such as a
    document holds.  So where an execution was found, whatever was saved over it is found
    as well, under the same id.

    The heart is `Slot.shownAt_of_becomes`; nothing is asked of the texts in the row. -/

namespace Workflow

variable {e e' base : Execution} {now : Timestamp} {rs : List TransitionRecord}
  {ds : List Value}

/-! ## Records -/

namespace TransitionRecord

variable {d : Value} {path : String} {r : TransitionRecord}

/-- A record that is read at one time is read at any. -/
theorem read_later (h : read now path d = .ok r) (later : Timestamp) :
    ∃ r', read later path d = .ok r' := by
  cases d with
  | dict m =>
      obtain ⟨k, time, hk, htime, rfl⟩ := Checked.seq_ok.mp h
      -- Only the default of the last field is the present.
      obtain ⟨time', htime'⟩ : ∃ t,
          Checked.field m path "timestamp" (some later) Lax.time = .ok t := by
        unfold Checked.field at htime ⊢
        cases hget : Mapping.get? m "timestamp" with
        | some v =>
            rw [hget] at htime
            exact ⟨time, htime⟩
        | none => exact ⟨later, rfl⟩
      exact ⟨k time', Checked.seq_ok.mpr ⟨k, time', hk, htime', rfl⟩⟩
  | _ => exact nomatch h

/-- The time of a record that is read of JSON data is one that a document holds. -/
theorem onMinutes_of_read (hd : d.Encodes) (hnow : now.OnMinutes)
    (h : read now path d = .ok r) : r.timestamp.OnMinutes := by
  cases d with
  | dict m =>
      have hentries := fun e he => (Value.encodes_dict.mp hd e he).2
      obtain ⟨k₁, time, h₁, htime, rfl⟩ := Checked.seq_ok.mp h
      obtain ⟨k₂, actor, h₂, _, rfl⟩ := Checked.seq_ok.mp h₁
      obtain ⟨k₃, action, h₃, _, rfl⟩ := Checked.seq_ok.mp h₂
      obtain ⟨k₄, target, h₄, _, rfl⟩ := Checked.seq_ok.mp h₃
      obtain ⟨source, _, rfl⟩ := Checked.map_ok.mp h₄
      show time.OnMinutes
      rcases Checked.field_ok (fun e he => (hentries e he).closed) htime with
        ⟨v, path', hv, hread⟩ | hdefault
      · refine Lax.time_onMinutes ?_ hread
        rintro x rfl
        -- a time has no JSON text
        obtain ⟨e, he, hvalue⟩ := Option.map_eq_some_iff.mp hv
        obtain ⟨cs, hcs⟩ := hentries e (List.mem_of_find?_eq_some he)
        rw [hvalue] at hcs
        exact nomatch hcs
      · rw [← Option.some.inj hdefault]
        exact hnow
  | _ => exact nomatch h

/-- The document of a record with such a time is read, whoever its actor is. -/
theorem read_of_onMinutes (h : r.timestamp.OnMinutes) (now : Timestamp) (path : String) :
    ∃ r', read now path (Document.ofRecord r) = .ok r' := by
  have hactor : ∃ a, Lax.optionalActor (keyPath path "actor") (Document.ofActor r.actor) =
      .ok a := by
    cases ha : r.actor with
    | none => exact ⟨none, rfl⟩
    | some a => exact ⟨_, Lax.optionalActor_ofActor (a := some (.actor a.type a.id))
        (fun _ h => Option.some.inj h ▸ rfl) _⟩
  obtain ⟨a, ha⟩ := hactor
  rw [read_ofRecord, ha, Lax.time_documentText h]
  exact ⟨_, rfl⟩

end TransitionRecord

namespace Row

theorem records_later (h : records now ds = .ok rs) (later : Timestamp) :
    ∃ rs', records later ds = .ok rs' := by
  induction ds generalizing rs with
  | nil => exact ⟨[], rfl⟩
  | cons d ds ih =>
      obtain ⟨r, hr, h⟩ := exceptBind_ok.mp h
      obtain ⟨rs', hrs', _⟩ := exceptBind_ok.mp h
      obtain ⟨r₂, hr₂⟩ := TransitionRecord.read_later (Checked.toExcept_ok.mp hr) later
      obtain ⟨rs₂, hrs₂⟩ := ih hrs'
      exact ⟨r₂ :: rs₂, exceptBind_ok.mpr ⟨r₂, Checked.toExcept_ok.mpr hr₂,
        exceptBind_ok.mpr ⟨rs₂, hrs₂, rfl⟩⟩⟩

theorem records_of_onMinutes (h : ∀ r ∈ rs, r.timestamp.OnMinutes) (now : Timestamp) :
    ∃ rs', records now (rs.map Document.ofRecord) = .ok rs' := by
  induction rs with
  | nil => exact ⟨[], rfl⟩
  | cons r rs ih =>
      obtain ⟨r', hr'⟩ := TransitionRecord.read_of_onMinutes (h r List.mem_cons_self) now ""
      obtain ⟨rs', hrs'⟩ := ih fun x hx => h x (List.mem_cons_of_mem _ hx)
      exact ⟨r' :: rs', exceptBind_ok.mpr ⟨r', Checked.toExcept_ok.mpr hr',
        exceptBind_ok.mpr ⟨rs', hrs', rfl⟩⟩⟩

end Row

/-! ## Rows -/

namespace TableRow

variable {row : TableRow}

/-- What is read of a row at one time is read of it at any, except for times of the
    history. -/
theorem toExecution_later (h : row.toExecution now = .ok e) (later : Timestamp) :
    ∃ rs, row.toExecution later = .ok { e with history := rs } := by
  obtain ⟨r, hr, h⟩ := exceptBind_ok.mp h
  unfold Row.toExecution at h
  split at h
  · exact nomatch h
  · rename_i status hstatus
    obtain ⟨rs, hrs, h⟩ := exceptBind_ok.mp h
    obtain ⟨rs', hrs'⟩ := Row.records_later hrs later
    refine ⟨rs', exceptBind_ok.mpr ⟨r, hr, ?_⟩⟩
    unfold Row.toExecution
    rw [hstatus, ← Except.ok.inj h]
    exact exceptBind_ok.mpr ⟨rs', hrs', rfl⟩

/-- A row shows texts as names and a map as context, and a history with times that a
    document holds. -/
theorem shape_of_toExecution (hnow : now.OnMinutes) (h : row.toExecution now = .ok e) :
    (∃ name, e.workflowName = .str name) ∧ (∃ step, e.currentStep = .str step) ∧
      ∀ r ∈ e.history, r.timestamp.OnMinutes := by
  obtain ⟨r, hr, h⟩ := exceptBind_ok.mp h
  unfold toRow at hr
  split at hr
  · rename_i context history created updated _ hhistory _ _
    obtain rfl := Except.ok.inj hr
    unfold Row.toExecution at h
    split at h
    · exact nomatch h
    · obtain ⟨rs, hrs, h⟩ := exceptBind_ok.mp h
      rw [← Except.ok.inj h]
      refine ⟨⟨_, rfl⟩, ⟨_, rfl⟩, fun x hx => ?_⟩
      obtain ⟨d, hd, hread⟩ := exists_of_forall₂ (Row.records_ok.mp hrs) x hx
      exact TransitionRecord.onMinutes_of_read
        (Value.encodes_list.mp (Json.encodes_of_read? hhistory) d hd) hnow hread
  · exact nomatch hr
  · exact nomatch hr

/-- The row of an execution with such a history that was last changed in universal time
    can be read, whatever creation time it shows. -/
theorem reread_of_onMinutes {created : String} {t : Timestamp}
    (hrow : ofExecution e = .ok row) (hhistory : ∀ r ∈ e.history, r.timestamp.OnMinutes)
    (hupdated : e.updatedAt.offset = some 0) (hcreated : Timestamp.ofIsoText? created = some t)
    (now : Timestamp) :
    ∃ e', { row with createdText := created }.toExecution now = .ok e' ∧ Reread now e e' := by
  obtain ⟨_, _, _, _, _, _, _, _, hread⟩ := toExecution_ofExecution hrow
  obtain ⟨rs, hrs⟩ := Row.records_of_onMinutes hhistory now
  have hshown := hread created now
  rw [hcreated, Timestamp.ofIsoText?_isoText hupdated, hrs] at hshown
  exact ⟨_, hshown, reread_of_row hrow hshown⟩

end TableRow

/-! ## Keys of documents -/

namespace Mapping

variable {m : Mapping} {k : String}

/-- The document of a map has an entry for each text that the map has one for. -/
theorem contains_document {level : Nat} {fs : Mapping} (hm : m.Texts)
    (h : Document.ofValue level (.dict m) = .ok (.dict fs)) (hk : m.contains k = true) :
    fs.contains k = true := by
  obtain ⟨vs, hvs, hfs⟩ := Document.under_of_ofValue hm h k
  rw [contains_iff_under] at hk ⊢
  rw [hfs]
  intro hnil
  -- of as many documents as there were values the last one is there
  obtain rfl : vs = [] := by simpa using hnil
  exact hk (List.forall₂_nil_right_iff.mp hvs)

end Mapping

/-! ## Slots -/

/-- The value under which one thing was found names an id. -/
theorem MemoryStore.find?_as_get? {m m' : MemoryStore} {v : Value}
    (h : m.find? v = .ok (some e)) : m'.find? v = .ok (m'.get? e.id) := by
  unfold find? at h ⊢
  split at h
  · rename_i hhash
    have hv := List.find?_some (p := fun f : Execution => (Value.str f.id).equal v)
      (Except.ok.inj h)
    rw [Value.str_equal, beq_iff_eq] at hv
    have hid : (fun f : Execution => (Value.str f.id).equal v) = fun f => f.id == e.id := by
      funext f
      rw [Value.str_equal, hv, Bool.eq_iff_iff, beq_iff_eq, beq_iff_eq,
        Option.some.injEq, eq_comm]
    rw [if_pos hhash, hid]
    rfl
  · exact nomatch h

/-- Does the second execution stand where the first one does, with a context of the same
    keys and maybe more? -/
structure Execution.StandsAs (e e' : Execution) : Prop where
  workflow : e'.workflowName = e.workflowName
  current  : e'.currentStep = e.currentStep
  version  : e'.version = e.version
  keys     : ∀ m : Mapping, e.context = .dict m → m.Texts → ∃ m' : Mapping, e'.context = .dict m' ∧
    ∀ k, m.contains k = true → m'.contains k = true

theorem Execution.StandsAs.refl (e : Execution) : e.StandsAs e :=
  ⟨rfl, rfl, rfl, fun m hm _ => ⟨m, hm, fun _ hk => hk⟩⟩

theorem Reread.standsAs (h : Reread now e e') {name step : String}
    (hname : e.workflowName = .str name) (hstep : e.currentStep = .str step) :
    e.StandsAs e' := by
  obtain ⟨entries, hdocument, hentries⟩ := h.context
  refine ⟨?_, ?_, h.version, fun m hm htexts => ⟨entries, hentries, fun k hk => ?_⟩⟩
  · rw [hname]
    exact h.workflowName_eq hname
  · rw [hstep]
    exact h.currentStep_eq hstep
  · rw [hm] at hdocument
    exact Mapping.contains_document htexts hdocument hk

namespace Slot

variable {old new : Slot} {p : Execution}

/-- What a reader is shown of the slot at a time. -/
def shownAt (now : Timestamp) : Slot → Except Failure Execution
  | value e => .ok e
  | row r   => r.toExecution now

theorem Shows.of_shownAt {slot : Slot} (h : slot.shownAt now = .ok e) : slot.Shows e := by
  cases slot with
  | value x => exact Except.ok.inj h
  | row r => exact ⟨now, h⟩

/-- Is the second slot the first one still, or what has become of it by a save? -/
def Follows (old new : Slot) : Prop := new = old ∨ ∃ e, Becomes e old new

/-- What was shown of a slot is shown of it later. -/
theorem shownAt_later (h : old.shownAt now = .ok e) (later : Timestamp) :
    ∃ e', old.shownAt later = .ok e' ∧ e.StandsAs e' := by
  cases old with
  | value x =>
      obtain rfl := Except.ok.inj h
      exact ⟨x, rfl, .refl x⟩
  | row r =>
      obtain ⟨rs, hlater⟩ := TableRow.toExecution_later h later
      exact ⟨_, hlater, rfl, rfl, rfl, fun m hm _ => ⟨m, hm, fun _ hk => hk⟩⟩

/-- So is what was put in its place, if it keeps the name of the workflow, names a step
    where the old one did, and has gained no history but at such times. -/
theorem shownAt_of_becomes (hold : old.shownAt now = .ok base) (hnow : now.OnMinutes)
    (h : Becomes p old new) (hname : p.workflowName = base.workflowName)
    (hstep : p.currentStep = base.currentStep ∨ ∃ step, p.currentStep = .str step)
    (hhistory : ∀ r ∈ p.history, r ∈ base.history ∨ r.timestamp.OnMinutes)
    (hupdated : p.updatedAt.offset = some 0) (later : Timestamp) :
    ∃ e, new.shownAt later = .ok e ∧ p.StandsAs e := by
  cases h with
  | value x => exact ⟨p, rfl, .refl p⟩
  | row r hrow =>
      obtain ⟨⟨name, hbase⟩, ⟨step, hcurrent⟩, htimes⟩ :=
        TableRow.shape_of_toExecution hnow hold
      obtain ⟨_, _, t, hcreated⟩ := TableRow.toExecution_ok hold
      have htimes' : ∀ x ∈ p.history, x.timestamp.OnMinutes := by
        intro x hx
        rcases hhistory x hx with hx | hx
        · exact htimes x hx
        · exact hx
      obtain ⟨e, hshown, hreread⟩ :=
        TableRow.reread_of_onMinutes hrow htimes' hupdated hcreated later
      obtain ⟨step', hstep'⟩ : ∃ step, p.currentStep = .str step := by
        rcases hstep with hstep | hstep
        · exact ⟨step, hstep.trans hcurrent⟩
        · exact hstep
      exact ⟨e, hshown, hreread.standsAs (hname.trans hbase) hstep'⟩

end Slot

namespace Store

variable {s s' : Store} {v : Value} {old new : Slot}

/-- What is found is shown by the slot of its id. -/
theorem shownAt_of_find? (h : s.find? now v = .ok (some e)) :
    ∃ slot, s.slot? e.id = some slot ∧ slot.shownAt now = .ok e := by
  cases s with
  | memory m =>
      refine ⟨.value e, ?_, rfl⟩
      simp only [slot?, MemoryStore.get?_of_find? h, Option.map_some]
  | table t =>
      obtain ⟨text, r, _, hr, he⟩ := TableStore.find?_ok h
      have hid : r.id = text :=
        beq_iff_eq.mp (List.find?_some (p := fun r : TableRow => r.id == text) hr)
      refine ⟨.row r, ?_, he⟩
      rw [(TableRow.toExecution_ok he).1, hid]
      simp only [slot?, hr, Option.map_some]

/-- Where an execution was found, what is found later under the same value is what the
    slot shows that follows. -/
theorem find?_eq_of_follows (h : s.find? now v = .ok (some e)) (hold : s.slot? e.id = some old)
    (hnew : s'.slot? e.id = some new) (hfollows : old.Follows new) (later : Timestamp) :
    s'.find? later v = (new.shownAt later).map some := by
  -- A slot is followed by one of its kind, so the kind of the store stays.
  cases s with
  | memory m =>
      obtain ⟨x, _, rfl⟩ := Option.map_eq_some_iff.mp hold
      obtain ⟨y, rfl⟩ : ∃ y, new = .value y := by
        rcases hfollows with rfl | ⟨p, hbecomes⟩
        · exact ⟨x, rfl⟩
        · cases hbecomes with
          | value _ => exact ⟨p, rfl⟩
      cases s' with
      | table t =>
          obtain ⟨r, _, hr⟩ := Option.map_eq_some_iff.mp hnew
          exact nomatch hr
      | memory m' =>
          obtain ⟨z, hget, hz⟩ := Option.map_eq_some_iff.mp hnew
          obtain rfl := Slot.value.inj hz
          show m'.find? v = _
          rw [MemoryStore.find?_as_get? h, hget]
          rfl
  | table t =>
      obtain ⟨r, _, rfl⟩ := Option.map_eq_some_iff.mp hold
      obtain ⟨y, rfl⟩ : ∃ y, new = .row y := by
        rcases hfollows with rfl | ⟨p, hbecomes⟩
        · exact ⟨r, rfl⟩
        · cases hbecomes with
          | row _ _ => exact ⟨_, rfl⟩
      cases s' with
      | memory m =>
          obtain ⟨x, _, hx⟩ := Option.map_eq_some_iff.mp hnew
          exact nomatch hx
      | table t' =>
          obtain ⟨z, hget, hz⟩ := Option.map_eq_some_iff.mp hnew
          obtain rfl := Slot.row.inj hz
          obtain ⟨text, r', htext, hr', he⟩ := TableStore.find?_ok h
          have hid : r'.id = text :=
            beq_iff_eq.mp (List.find?_some (p := fun r : TableRow => r.id == text) hr')
          rw [(TableRow.toExecution_ok he).1, hid] at hget
          show t'.find? later v = _
          unfold TableStore.find?
          rw [htext]
          show t'.get? later text = _
          unfold TableStore.get?
          rw [hget]
          rfl

/-- So whatever that slot shows is found. -/
theorem find?_of_follows (h : s.find? now v = .ok (some e)) (hold : s.slot? e.id = some old)
    (hnew : s'.slot? e.id = some new) (hfollows : old.Follows new) {later : Timestamp}
    (hshown : new.shownAt later = .ok e') : s'.find? later v = .ok (some e') :=
  (find?_eq_of_follows h hold hnew hfollows later).trans (congrArg (Except.map some) hshown)

end Store

end Workflow
