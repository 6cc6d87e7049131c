import Workflow.Proofs.Checkpoint
import Workflow.Proofs.Timestamp

/-! # Recall — stored checkpoints are read as they were taken

    A checkpoint lasts when the zones of its times are of whole minutes and its actors are
    actors: then its document is read back in full, whenever and by whomever, and a
    captured context that is plain data is read as it was.

    The heart is `document_reads`; with it the readings of a whole list, and what is
    found under an id, are plain facts about lists. -/

namespace Workflow

/-! ## Records -/

/-- Is the record one that a document holds in full? -/
def TransitionRecord.Lasts (r : TransitionRecord) : Prop :=
  r.timestamp.OnMinutes ∧ ∀ a, r.actor = some a → a.kind = .actor

/-- An actor is read as it was written. -/
theorem Lax.optionalActor_ofActor {a : Option EntityRef} (h : ∀ r, a = some r → r.kind = .actor)
    (path : String) : optionalActor path (Document.ofActor a) = .ok a := by
  cases a with
  | none => rfl
  | some r =>
      obtain ⟨kind, type, id⟩ := r
      obtain rfl : kind = .actor := h _ rfl
      have hclosed : ∀ e ∈ ([(.str "type", .str type), (.str "id", .str id)] : Mapping),
          e.2.Closed :=
        (Document.ofRef_inherits inherited_plain ⟨.actor, type, id⟩).entries_closed
      show some <$> reference .actor path
        (.dict [(.str "type", .str type), (.str "id", .str id)]) = _
      rw [reference, Checked.field_of_field? hclosed (v := .str type) rfl,
        Checked.field_of_field? hclosed (v := .str id) rfl]
      rfl

/-- What is read of plain data where an actor may stand is one. -/
theorem Lax.actor_of_optionalActor {v : Value} (hv : v.Plain) {path : String} {r : EntityRef}
    (h : optionalActor path v = .ok (some r)) : r.kind = .actor := by
  cases hv with
  | null => exact nomatch h
  | dict hkeys hnodup hvalues =>
      obtain ⟨o, ho, hr⟩ := Checked.map_ok.mp
        (h : (some <$> reference .actor path (.dict _) : Checked _) = .ok (some r))
      obtain ⟨k, id, hk, _, rfl⟩ := Checked.seq_ok.mp ho
      obtain ⟨type, _, rfl⟩ := Checked.map_ok.mp hk
      rw [← Option.some.inj hr]
  | _ => exact nomatch h

namespace TransitionRecord

variable {r : TransitionRecord} {rs : List TransitionRecord}

theorem read_of_lasts (h : r.Lasts) (now : Timestamp) (path : String) :
    read now path (Document.ofRecord r) = .ok r := by
  rw [read_ofRecord, Lax.optionalActor_ofActor h.2, Lax.time_documentText h.1]
  rfl

/-- A history is read as it was written. -/
theorem history_of_lasts (h : ∀ r ∈ rs, r.Lasts) (now : Timestamp) (path : String) :
    Lax.list (read now) path (Document.ofHistory rs) = .ok rs := by
  unfold Lax.list Document.ofHistory
  dsimp only
  rw [Value.detachedItems_of_closed (Document.records_closed rs)]
  refine Checked.items_of_forall₂ (List.forall₂_map_left_iff.mpr ?_) path 0
  exact List.forall₂_same.mpr fun r hr path => read_of_lasts (h r hr) now path

/-- A record that is read of plain data is one that lasts. -/
theorem lasts_of_read {d : Value} (hd : d.Plain) {now : Timestamp} (hnow : now.OnMinutes)
    {path : String} (h : read now path d = .ok r) : r.Lasts := by
  cases d with
  | dict m =>
      obtain ⟨k₁, time, h₁, htime, rfl⟩ := Checked.seq_ok.mp h
      obtain ⟨k₂, actor, h₂, hactor, rfl⟩ := Checked.seq_ok.mp h₁
      obtain ⟨k₃, action, h₃, _, rfl⟩ := Checked.seq_ok.mp h₂
      obtain ⟨k₄, target, h₄, _, rfl⟩ := Checked.seq_ok.mp h₃
      obtain ⟨source, _, rfl⟩ := Checked.map_ok.mp h₄
      refine ⟨?_, ?_⟩
      · rcases Checked.field_ok hd.entries_closed htime with ⟨v, path', hv, htime⟩ | htime
        · refine Lax.time_onMinutes ?_ htime
          rintro x rfl
          exact nomatch hd.field? hv
        · exact Option.some.inj htime ▸ hnow
      · rintro a rfl
        rcases Checked.field_ok hd.entries_closed hactor with ⟨v, path', hv, hactor⟩ | hactor
        · exact Lax.actor_of_optionalActor (hd.field? hv) hactor
        · exact nomatch hactor
  | _ => exact nomatch h

/-- So is each of a history that is. -/
theorem lasts_of_history {v : Value} (hv : v.Plain) {now : Timestamp} (hnow : now.OnMinutes)
    {path : String} (h : Lax.list (read now) path v = .ok rs) : ∀ r ∈ rs, r.Lasts := by
  cases hv with
  | @list xs hitems =>
      unfold Lax.list at h
      dsimp only at h
      rw [Value.detachedItems_of_closed fun x hx => (hitems x hx).closed] at h
      intro r hr
      obtain ⟨x, hx, _, hread⟩ := exists_of_forall₂ (Checked.forall₂_of_items h) r hr
      exact lasts_of_read (hitems x hx) hnow hread
  | _ => exact nomatch h

end TransitionRecord

namespace Checkpoint

variable {c : Checkpoint} {d : Value} {ds older newer : List Value} {e : Execution}
  {id : String}

/-! ## Contexts -/

theorem optionalMapping_of_plain {m : Mapping} (h : (Value.dict m).Plain) (path : String) :
    optionalMapping path (.dict m) = .ok (some m) := by
  show some <$> Lax.mapping path (.dict m) = _
  rw [mapping_of_plain h]
  rfl

/-- The document of a captured context is read as some map; that of plain data as
    what was captured. -/
theorem contextDocument_reads {v : Value} (h : c.contextDocument = .ok v) :
    ∃ o, optionalMapping "captured_context" v = .ok o ∧
      ∀ m, c.capturedContext = some m → (Value.dict m).Plain → o = some m := by
  unfold contextDocument at h
  split at h
  · rename_i hc
    rw [← Except.ok.inj h]
    exact ⟨none, rfl, fun m hm => nomatch hc.symm.trans hm⟩
  · rename_i m hc
    obtain ⟨fs, hfs, rfl⟩ := exceptMap_ok.mp h
    refine ⟨some fs, ?_, fun m₁ hm₁ hplain => ?_⟩
    · exact optionalMapping_of_plain (Document.plain_of_ofMapping hfs) _
    · obtain rfl : m = m₁ := Option.some.inj (hc.symm.trans hm₁)
      rw [Document.ofMapping_plain hplain] at hfs
      obtain ⟨_, _, rfl⟩ := exceptMap_ok.mp hfs
      rfl

/-! ## Documents -/

/-- Is the document read as the checkpoint, whenever it is read? -/
def Reads (d : Value) (c : Checkpoint) : Prop :=
  lacksId d = false ∧ ∀ now freshId, read now freshId d = .ok c

/-- Is the checkpoint one that a document holds in full? -/
def Lasts (c : Checkpoint) : Prop :=
  c.createdAt.OnMinutes ∧ ∀ r ∈ c.capturedHistory, r.Lasts

/-- Its fields are read as they were written, with what is read of a context. -/
theorem reads_columns (hc : c.Lasts) {v : Value} (hv : v.Plain) {o : Option Mapping}
    (ho : optionalMapping "captured_context" v = .ok o) :
    Reads (.record (c.columns v)) { c with capturedContext := o } := by
  refine ⟨rfl, fun now freshId => ?_⟩
  rw [read_document hv, ho, TransitionRecord.history_of_lasts hc.2, Lax.time_documentText hc.1]
  rfl

/-- A document is read as the checkpoint that it is of, with the context as the
    document holds it. -/
theorem document_reads (hc : c.Lasts) (h : c.document = .ok d) :
    ∃ o, Reads d { c with capturedContext := o } ∧
      ∀ m, c.capturedContext = some m → (Value.dict m).Plain → o = some m := by
  rw [document_eq] at h
  obtain ⟨v, hv, rfl⟩ := exceptMap_ok.mp h
  obtain ⟨o, ho, hplain⟩ := contextDocument_reads hv
  exact ⟨o, reads_columns hc (contextDocument_plain hv) ho, hplain⟩

/-- A plain context that is not nested too deeply has its document. -/
theorem document_of_plain {m : Mapping} (hm : c.capturedContext = some m)
    (hplain : (Value.dict m).Plain) : c.document =
      (Document.checkLevel (Value.dict m).nestingDepth).map fun _ =>
        .record (c.columns (.dict m)) := by
  rw [document_eq, contextDocument, hm]
  dsimp only
  rw [Document.ofMapping_plain hplain]
  cases Document.checkLevel (Value.dict m).nestingDepth with
  | ok u => rfl
  | error f => rfl

/-- Of plain data a checkpoint is read whose history lasts. -/
theorem lasts_of_read (hd : d.Plain) {now : Timestamp} (hnow : now.OnMinutes) {freshId : String}
    (h : read now freshId d = .ok c) : ∀ r ∈ c.capturedHistory, r.Lasts := by
  cases d with
  | dict m =>
      obtain ⟨_, _, hhistory⟩ := read_fields h
      rcases Checked.field_ok hd.entries_closed hhistory with ⟨v, _, hv, hhistory⟩ | hhistory
      · exact TransitionRecord.lasts_of_history (hd.field? hv) hnow hhistory
      · rw [← Option.some.inj hhistory]
        exact fun r hr => absurd hr List.not_mem_nil
  | _ => exact nomatch h

/-! ## Lists of documents -/

theorem readAll_of_forall₂ {cs : List Checkpoint} (h : List.Forall₂ Reads ds cs)
    (e : Execution) (now : Timestamp) (s : Serials) :
    (readAll e ds).runAt now s = (.ok cs, s) := by
  induction h with
  | nil => rfl
  | cons hd _ ih =>
      rw [readAll, hd.1, if_neg Bool.false_ne_true]
      refine Draft.runAt_bind_ok.mpr ⟨"", s, rfl, Draft.runAt_bind_ok.mpr ⟨now, s, rfl, ?_⟩⟩
      rw [hd.2]
      exact Draft.runAt_bind_ok.mpr ⟨_, s, ih, rfl⟩

theorem exists_forall₂ {α β : Type} {R : α → β → Prop} {xs : List α}
    (h : ∀ x ∈ xs, ∃ y, R x y) : ∃ ys, List.Forall₂ R xs ys := by
  induction xs with
  | nil => exact ⟨[], .nil⟩
  | cons x xs ih =>
      obtain ⟨y, hy⟩ := h x List.mem_cons_self
      obtain ⟨ys, hys⟩ := ih fun z hz => h z (List.mem_cons_of_mem _ hz)
      exact ⟨y :: ys, .cons hy hys⟩

/-- A checkpoint is found under its id where no older one has that id. -/
theorem find_of_reads (hstored : stored e = .ok (older ++ d :: newer))
    (hclosed : ∀ d' ∈ older ++ d :: newer, d'.Closed)
    (holder : ∀ d' ∈ older, ∃ c', Reads d' c' ∧ c'.id ≠ id) (hd : Reads d c) (hid : c.id = id)
    (hnewer : ∀ d' ∈ newer, ∃ c', Reads d' c') (now : Timestamp) (s : Serials) :
    (find e id).runAt now s = (.ok c, s) := by
  obtain ⟨cs, hcs⟩ := exists_forall₂ holder
  obtain ⟨cs', hcs'⟩ := exists_forall₂ hnewer
  have hall : List.Forall₂ Reads (older ++ d :: newer) (cs ++ c :: cs') :=
    List.rel_append (hcs.imp fun _ _ h => h.1) (.cons hd hcs')
  have hnone : cs.find? (fun c => c.id == id) = none := by
    refine List.find?_eq_none.mpr fun x hx hb => ?_
    obtain ⟨d', _, hd'⟩ := exists_of_forall₂ hcs x hx
    exact hd'.2 (beq_iff_eq.mp hb)
  have hfind : (cs ++ c :: cs').find? (fun c => c.id == id) = some c := by
    rw [List.find?_append, hnone, Option.none_or, List.find?_cons, beq_iff_eq.mpr hid]
  refine Draft.runAt_bind_ok.mpr ⟨cs ++ c :: cs', s, ?_, ?_⟩
  · refine Draft.runAt_ofExcept_bind_ok.mpr ⟨_, hstored, ?_⟩
    rw [Value.detachedItems_of_closed hclosed]
    exact readAll_of_forall₂ hall e now s
  · rw [hfind]
    rfl

end Checkpoint

end Workflow
