import Workflow.Proofs.Client
import Workflow.Proofs.Plain
import Workflow.Recovery.Checkpoint

/-! # Checkpoint — what is read back of a stored checkpoint

    A checkpoint is kept as a document inside the context.  A document is plain data,
    so it goes unchanged through every copy of the context, and reading it takes its
    fields one by one.

    The heart is `read_document`: it leaves of a reading only the readings of the
    parts that are not texts already. -/

namespace Workflow

/-! ## Readings -/

namespace Checked

variable {α β : Type} {b : β}

theorem seq_ok {f : Checked (α → β)} {x : Checked α} :
    f <*> x = .ok b ↔ ∃ k a, f = .ok k ∧ x = .ok a ∧ k a = b := by
  constructor
  · intro h
    cases f with
    | bad fs => exact nomatch h
    | ok k => cases x with
      | bad fs => exact nomatch h
      | ok a => exact ⟨k, a, rfl, rfl, ok.inj h⟩
  · rintro ⟨k, a, rfl, rfl, rfl⟩
    rfl

theorem map_ok {f : α → β} {x : Checked α} : f <$> x = .ok b ↔ ∃ a, x = .ok a ∧ f a = b := by
  constructor
  · intro h
    cases x with
    | bad fs => exact nomatch h
    | ok a => exact ⟨a, rfl, ok.inj h⟩
  · rintro ⟨a, rfl, rfl⟩
    rfl

theorem toExcept_ok {x : Checked β} : x.toExcept = .ok b ↔ x = .ok b := by
  cases x with
  | ok a => exact ⟨fun h => congrArg ok (Except.ok.inj h), fun h => congrArg _ (ok.inj h)⟩
  | bad fs => exact ⟨(fun h => nomatch h), fun h => nomatch h⟩

/-- A field that is there is read from what stands there, when that is closed. -/
theorem field_of_field? {m : Mapping} (hm : ∀ e ∈ m, e.2.Closed) {key : String} {v : Value}
    (h : m.field? key = some v) (path : String) (default : Option α)
    (read : String → Value → Checked α) :
    field m path key default read =
      read (if path = "" then key else path ++ "." ++ key) v := by
  have hclosed : ∀ w, m.field? key = some w → w.Closed := by
    intro w hw
    obtain ⟨e, he, hew⟩ := Option.map_eq_some_iff.mp hw
    exact hew ▸ hm e (List.mem_of_find?_eq_some he)
  unfold field
  rw [Mapping.get?_of_closed hclosed, h]

/-- A field comes from what stands there, or from the default. -/
theorem field_ok {m : Mapping} (hm : ∀ e ∈ m, e.2.Closed) {path key : String} {a : α}
    {default : Option α} {read : String → Value → Checked α}
    (h : field m path key default read = .ok a) :
    (∃ v path', m.field? key = some v ∧ read path' v = .ok a) ∨ default = some a := by
  cases hf : m.field? key with
  | some v =>
      rw [field_of_field? hm hf] at h
      exact .inl ⟨v, _, rfl, h⟩
  | none =>
      have hclosed : ∀ v, m.field? key = some v → v.Closed :=
        fun v hv => nomatch hf.symm.trans hv
      have hnone : m.get? key = none := (Mapping.get?_of_closed hclosed).trans hf
      unfold field at h
      rw [hnone] at h
      cases default with
      | none => exact nomatch h
      | some b => exact .inr (congrArg some (ok.inj h))

/-- Items are read when each of them is, whatever its path. -/
theorem items_of_forall₂ {read : String → Value → Checked α} {xs : List Value} {ys : List α}
    (h : List.Forall₂ (fun x y => ∀ path, read path x = .ok y) xs ys) (path : String)
    (index : Nat) : items path read index xs = .ok ys := by
  induction h generalizing index with
  | nil => rfl
  | cons hx _ ih =>
      rw [items, hx, ih]
      rfl

/-- What is read of items is read of them one by one. -/
theorem forall₂_of_items {read : String → Value → Checked α} {path : String}
    {xs : List Value} {ys : List α} {index : Nat} (h : items path read index xs = .ok ys) :
    List.Forall₂ (fun x y => ∃ path, read path x = .ok y) xs ys := by
  induction xs generalizing ys index with
  | nil =>
      rw [← ok.inj h]
      exact .nil
  | cons x xs ih =>
      obtain ⟨_, zs, hcons, hxs, rfl⟩ := seq_ok.mp h
      obtain ⟨y, hy, rfl⟩ := map_ok.mp hcons
      exact .cons ⟨_, hy⟩ (ih hxs)

end Checked

/-! ## Reading back -/

/-- Do two histories tell the same transitions, if not the same times? -/
def SameMoves (rs rs' : List TransitionRecord) : Prop :=
  List.Forall₂ (fun r r' => r'.fromStep = r.fromStep ∧ r'.toStep = r.toStep ∧
    r'.action = r.action) rs rs'

/-- A text is read as it stands. -/
theorem Lax.textOf?_of_isText {key : Value} (h : key.isText = true) :
    textOf? key = key.toText? := by
  cases key with
  | scalar s => cases s with
    | bytes b => exact nomatch h
    | _ => rfl
  | _ => rfl

/-- Where a key of a map at a path stands. -/
def keyPath (path key : String) : String := if path = "" then key else path ++ "." ++ key

namespace TransitionRecord

/-- Reading the document of a record leaves its actor and its time to be read. -/
theorem read_ofRecord (now : Timestamp) (path : String) (r : TransitionRecord) :
    read now path (Document.ofRecord r) =
      TransitionRecord.mk <$> .ok r.fromStep <*> .ok r.toStep <*> .ok r.action
        <*> Lax.optionalActor (keyPath path "actor") (Document.ofActor r.actor)
        <*> Lax.time (keyPath path "timestamp") (.str r.timestamp.documentText) := by
  have hclosed := (Document.ofRecord_inherits inherited_plain r).entries_closed
  rw [Document.ofRecord, Value.record, read,
    Checked.field_of_field? hclosed (v := .str r.fromStep) rfl,
    Checked.field_of_field? hclosed (v := .str r.toStep) rfl,
    Checked.field_of_field? hclosed (v := .str r.action) rfl,
    Checked.field_of_field? hclosed (v := Document.ofActor r.actor) rfl,
    Checked.field_of_field? hclosed (v := .str r.timestamp.documentText) rfl]
  rfl

/-- What is read of the document of a record tells the same transition. -/
theorem sameMove_of_read {now : Timestamp} {path : String} {r r' : TransitionRecord}
    (h : read now path (Document.ofRecord r) = .ok r') :
    r'.fromStep = r.fromStep ∧ r'.toStep = r.toStep ∧ r'.action = r.action := by
  rw [read_ofRecord] at h
  obtain ⟨k, _, hactor, _, hk⟩ := Checked.seq_ok.mp h
  obtain ⟨_, _, hmk, _, hj⟩ := Checked.seq_ok.mp hactor
  rw [← hk, ← hj, ← Checked.ok.inj hmk]
  exact ⟨rfl, rfl, rfl⟩

/-- So does what is read of a history's document. -/
theorem sameMoves_of_read {now : Timestamp} {path : String} {rs rs' : List TransitionRecord}
    (h : Lax.list (read now) path (Document.ofHistory rs) = .ok rs') : SameMoves rs rs' := by
  unfold Lax.list Document.ofHistory at h
  dsimp only at h
  rw [Value.detachedItems_of_closed (Document.records_closed rs)] at h
  have hall := List.forall₂_map_left_iff.mp (Checked.forall₂_of_items h)
  refine hall.imp fun r r' hr => ?_
  obtain ⟨path, hr⟩ := hr
  exact sameMove_of_read hr

end TransitionRecord

theorem Execution.entries_ok {e : Execution} {m : Mapping} :
    e.entries = .ok m ↔ e.context = .dict m := by
  unfold entries
  constructor
  · intro h
    split at h
    · rename_i hc
      rw [hc, Except.ok.inj h]
    · exact nomatch h
  · intro hc
    rw [hc]

namespace Checkpoint

variable {c c' : Checkpoint} {d : Value} {e : Execution} {m : Mapping} {now : Timestamp}
  {s s' : Serials}

/-- A checkpoint's context as a document. -/
def contextDocument (c : Checkpoint) : Except Failure Value :=
  match c.capturedContext with
  | none   => .ok .null
  | some m => (Document.ofMapping m).map Value.dict

/-- It is plain data, and has a JSON text when the context is fit. -/
theorem contextDocument_plain {v : Value} (h : c.contextDocument = .ok v) : v.Plain := by
  unfold contextDocument at h
  split at h
  · rw [← Except.ok.inj h]
    exact .null
  · obtain ⟨fs, hfs, rfl⟩ := exceptMap_ok.mp h
    exact Document.plain_of_ofMapping hfs

theorem contextDocument_encodes {v : Value} (hc : ∀ m, c.capturedContext = some m → m.Fit)
    (h : c.contextDocument = .ok v) : v.Encodes := by
  unfold contextDocument at h
  split at h
  · rw [← Except.ok.inj h]
    exact inherited_encodes.null
  · rename_i m hm
    obtain ⟨fs, hfs, rfl⟩ := exceptMap_ok.mp h
    exact (Document.fit_of_ofMapping (hc m hm) hfs).encodes

/-- The fields of a checkpoint's document, given the one of its context. -/
def columns (c : Checkpoint) (context : Value) : List (String × Value) :=
  [ ("id", .str c.id), ("label", .str c.label), ("captured_step", .str c.capturedStep),
    ("captured_status", .str c.capturedStatus.text), ("captured_context", context),
    ("captured_history", Document.ofHistory c.capturedHistory),
    ("created_at", .str c.createdAt.documentText), ("created_by", .str c.createdBy) ]

theorem document_eq (c : Checkpoint) :
    c.document = c.contextDocument.map fun v => .record (c.columns v) := by
  unfold document contextDocument
  cases hc : c.capturedContext with
  | none => rfl
  | some m =>
      show ((Document.ofMapping m).map Value.dict >>= _) =
        ((Document.ofMapping m).map Value.dict).map _
      cases Document.ofMapping m with
      | error f => rfl
      | ok fs => rfl

/-- What the document of its context inherits, a checkpoint's document does. -/
theorem columns_inherit {P : Value → Prop} (h : Inherited P) {v : Value} (hv : P v) :
    P (.record (c.columns v)) := by
  refine h.record (by simp [columns]) fun f hf => ?_
  unfold columns at hf
  fin_cases hf
  · exact h.str _
  · exact h.str _
  · exact h.str _
  · exact h.str _
  · exact hv
  · exact Document.ofHistory_inherits h _
  · exact h.str _
  · exact h.str _

/-- A document has the fields of its checkpoint. -/
theorem document_columns (h : c.document = .ok d) :
    ∃ v, c.contextDocument = .ok v ∧ d = .record (c.columns v) := by
  rw [document_eq] at h
  obtain ⟨v, hv, hd⟩ := exceptMap_ok.mp h
  exact ⟨v, hv, hd.symm⟩

theorem document_plain (h : c.document = .ok d) : d.Plain := by
  obtain ⟨v, hv, rfl⟩ := document_columns h
  exact columns_inherit inherited_plain (contextDocument_plain hv)

theorem status_read (path : String) (s : Status) : Lax.status path (.str s.text) = .ok s := by
  cases s <;> rfl

/-- Reading a checkpoint's document leaves its context, its history and its time to
    be read. -/
theorem read_document {v : Value} (hv : v.Plain) (now : Timestamp) (freshId : String) :
    read now freshId (.record (c.columns v)) =
      Checkpoint.mk <$> .ok c.id <*> .ok c.label <*> .ok c.capturedStep
        <*> .ok c.capturedStatus <*> optionalMapping "captured_context" v
        <*> Lax.list (TransitionRecord.read now) "captured_history"
              (Document.ofHistory c.capturedHistory)
        <*> Lax.time "created_at" (.str c.createdAt.documentText) <*> .ok c.createdBy := by
  have hclosed := (columns_inherit (c := c) inherited_plain hv).entries_closed
  unfold Value.record
  rw [read, Checked.field_of_field? hclosed (v := .str c.id) rfl,
    Checked.field_of_field? hclosed (v := .str c.label) rfl,
    Checked.field_of_field? hclosed (v := .str c.capturedStep) rfl,
    Checked.field_of_field? hclosed (v := .str c.capturedStatus.text) rfl,
    Checked.field_of_field? hclosed (v := v) rfl,
    Checked.field_of_field? hclosed (v := Document.ofHistory c.capturedHistory) rfl,
    Checked.field_of_field? hclosed (v := .str c.createdAt.documentText) rfl,
    Checked.field_of_field? hclosed (v := .str c.createdBy) rfl, status_read]
  rfl

/-- A map that is read of a map with a JSON text is fit context data. -/
theorem mapping_fit {v : Value} (hv : v.Encodes) {path : String} {m : Mapping}
    (h : Lax.mapping path v = .ok m) : m.Fit := by
  cases v with
  | dict es =>
      unfold Lax.mapping Lax.entries at h
      dsimp only at h
      split at h
      · rw [← Checked.ok.inj h]
        refine Mapping.Fit.ofEntries fun f hf => ?_
        obtain ⟨e, he, rfl⟩ := List.mem_map.mp hf
        obtain ⟨x, hx, rfl⟩ := List.mem_map.mp he
        have hx := (Value.encodes_dict.mp hv x (List.mem_filter.mp hx).1).2
        refine ⟨rfl, ?_⟩
        show (Mapping.detach es x.1 x.2).Encodes
        rw [Mapping.detach, hx.closed]
        exact hx
      · exact nomatch h
  | _ => exact nomatch h

/-- Plain data is read as it is. -/
theorem mapping_of_plain {m : Mapping} (h : (Value.dict m).Plain) (path : String) :
    Lax.mapping path (.dict m) = .ok m := by
  cases h with
  | dict hkeys hnodup hvalues =>
      have hall : m.all (fun e => (Lax.textOf? e.1).isSome) = true := by
        refine List.all_eq_true.mpr fun e he => ?_
        obtain ⟨k, hk⟩ := hkeys e he
        rw [hk]
        rfl
      have hcopy : m.copy = m := by
        rw [Mapping.copy, Mapping.copyTop_of_closed fun e he _ => (hvalues e he).closed,
          List.filter_eq_self.mpr fun _ _ => rfl]
      have hentry : ∀ e ∈ m, (Value.str ((Lax.textOf? e.1).getD ""), e.2) = e := by
        intro e he
        obtain ⟨k, hk⟩ := hkeys e he
        exact Prod.ext (by rw [hk]; rfl) rfl
      unfold Lax.mapping Lax.entries
      dsimp only
      rw [if_pos hall, hcopy, List.map_congr_left hentry, List.map_id',
        Mapping.ofEntries_distinct hkeys hnodup]

/-- So the document of a context is read as it is. -/
theorem optionalMapping_ok {v : Value} (hv : v.Plain) {path : String} {o : Option Mapping}
    (h : optionalMapping path v = .ok o) :
    v = .null ∧ o = none ∨ ∃ m, v = .dict m ∧ o = some m := by
  cases v with
  | scalar s => cases s with
    | null => exact .inl ⟨rfl, (Checked.ok.inj h).symm⟩
    | _ => exact nomatch h
  | dict m =>
      obtain ⟨m', hm', rfl⟩ := Checked.map_ok.mp
        (h : (some <$> Lax.mapping path (.dict m) : Checked (Option Mapping)) = .ok o)
      rw [mapping_of_plain hv] at hm'
      exact .inr ⟨m, rfl, by rw [Checked.ok.inj hm']⟩
  | _ => exact nomatch h

/-- What is read back of these fields has the id, the step and the status of the
    checkpoint, the same transitions, and plain context data, which is fit. -/
theorem of_read {v : Value} (hplain : v.Plain) (hv : v.Encodes) {freshId : String}
    (h : read now freshId (.record (c.columns v)) = .ok c') :
    c'.id = c.id ∧ c'.capturedStep = c.capturedStep ∧
      c'.capturedStatus = c.capturedStatus ∧ (Value.dict (c'.capturedContext.getD [])).Plain ∧
      (c'.capturedContext.getD []).Fit ∧ SameMoves c.capturedHistory c'.capturedHistory := by
  rw [read_document hplain] at h
  obtain ⟨k₁, _, h₁, _, hk₁⟩ := Checked.seq_ok.mp h
  obtain ⟨k₂, _, h₂, _, hk₂⟩ := Checked.seq_ok.mp h₁
  obtain ⟨k₃, history, h₃, hhistory, hk₃⟩ := Checked.seq_ok.mp h₂
  obtain ⟨k₄, context, h₄, hcontext, hk₄⟩ := Checked.seq_ok.mp h₃
  have hdict : (Value.dict (context.getD [])).Plain ∧ (context.getD []).Fit := by
    rcases optionalMapping_ok hplain hcontext with ⟨_, rfl⟩ | ⟨m, rfl, rfl⟩
    · exact ⟨.dict (fun e he => absurd he List.not_mem_nil) List.nodup_nil
        (fun e he => absurd he List.not_mem_nil), Mapping.Fit.nil⟩
    · exact ⟨hplain, hplain.fit hv⟩
  rw [← hk₁, ← hk₂, ← hk₃, ← hk₄, ← Checked.ok.inj h₄]
  exact ⟨rfl, rfl, rfl, hdict.1, hdict.2, TransitionRecord.sameMoves_of_read hhistory⟩

/-- What is read of a map has its id, its context and its history of their fields. -/
theorem read_fields {freshId : String} (h : read now freshId (.dict m) = .ok c) :
    Checked.field m "" "id" (some freshId) Lax.text = .ok c.id ∧
      Checked.field m "" "captured_context" (some none) optionalMapping =
        .ok c.capturedContext ∧
      Checked.field m "" "captured_history" (some []) (Lax.list (TransitionRecord.read now)) =
        .ok c.capturedHistory := by
  obtain ⟨k₁, _, h₁, _, hk₁⟩ := Checked.seq_ok.mp h
  obtain ⟨k₂, _, h₂, _, hk₂⟩ := Checked.seq_ok.mp h₁
  obtain ⟨k₃, history, h₃, hhistory, hk₃⟩ := Checked.seq_ok.mp h₂
  obtain ⟨k₄, context, h₄, hcontext, hk₄⟩ := Checked.seq_ok.mp h₃
  obtain ⟨k₅, _, h₅, _, hk₅⟩ := Checked.seq_ok.mp h₄
  obtain ⟨k₆, _, h₆, _, hk₆⟩ := Checked.seq_ok.mp h₅
  obtain ⟨k₇, _, h₇, _, hk₇⟩ := Checked.seq_ok.mp h₆
  obtain ⟨id, hid, hk₈⟩ := Checked.map_ok.mp h₇
  rw [← hk₁, ← hk₂, ← hk₃, ← hk₄, ← hk₅, ← hk₆, ← hk₇, ← hk₈]
  exact ⟨hid, hcontext, hhistory⟩

/-- The context data that is read of plain data stands under its name there, or is empty. -/
theorem context_of_read (hd : d.Plain) {freshId : String} (h : read now freshId d = .ok c) :
    c.capturedContext.getD [] = [] ∨ ∃ m : Mapping, d = .dict m ∧
      m.field? "captured_context" = some (.dict (c.capturedContext.getD [])) := by
  cases d with
  | dict m =>
      obtain ⟨_, hcontext, _⟩ := read_fields h
      rcases Checked.field_ok hd.entries_closed hcontext with ⟨v, _, hv, hcontext⟩ | hcontext
      · rcases optionalMapping_ok (hd.field? hv) hcontext with ⟨_, hnone⟩ | ⟨fs, rfl, hsome⟩
        · exact .inl (by rw [hnone]; rfl)
        · exact .inr ⟨m, rfl, by rw [hsome]; exact hv⟩
      · exact .inl (by rw [← Option.some.inj hcontext]; rfl)
  | _ => exact nomatch h

/-- Of plain data a checkpoint of plain context data is read. -/
theorem plain_of_read (hd : d.Plain) {freshId : String} (h : read now freshId d = .ok c) :
    (Value.dict (c.capturedContext.getD [])).Plain := by
  rcases context_of_read hd h with hnil | ⟨m, rfl, hm⟩
  · rw [hnil]
    exact .dict (fun e he => absurd he List.not_mem_nil) List.nodup_nil
      fun e he => absurd he List.not_mem_nil
  · exact hd.field? hm

/-! ## The list of stored checkpoints -/

/-- What stands under the key of the checkpoints is stored. -/
theorem stored_of_under (he : e.context = .dict m) {ds : List Value}
    (hds : m.under checkpointsKey = [] ∧ ds = [] ∨ m.under checkpointsKey = [.list ds])
    (hclosed : ∀ d ∈ ds, d.Closed) : stored e = .ok ds := by
  have hhead := m.field?_eq_head? checkpointsKey
  have hfield : ∀ v, m.field? checkpointsKey = some v → v.Closed := by
    intro v hv
    rw [hhead] at hv
    rcases hds with ⟨hnone, _⟩ | hds
    · rw [hnone] at hv
      exact nomatch hv
    · rw [hds] at hv
      exact Option.some.inj hv ▸ Value.closed_list hclosed
  have hvalue : e.contextValue (.str checkpointsKey) .null =
      .ok ((m.field? checkpointsKey).getD .null) := by
    unfold Execution.contextValue Execution.entries
    rw [he, ← Mapping.get?_of_closed hfield]
    rfl
  unfold stored
  rw [hvalue, hhead]
  rcases hds with ⟨hnone, rfl⟩ | hds
  · rw [hnone]
    rfl
  · rw [hds]
    cases ds with
    | nil => rfl
    | cons d ds => rfl

/-- The documents that are stored in fit context data. -/
theorem stored_ok (he : e.context = .dict m) (hm : m.Fit) {ds : List Value}
    (h : stored e = .ok ds) : ds = [] ∨ m.field? checkpointsKey = some (.list ds) := by
  unfold stored Execution.contextValue Execution.entries at h
  rw [he] at h
  obtain ⟨raw, hraw, h⟩ := exceptBind_ok.mp h
  have hraw : (m.get? checkpointsKey).getD .null = raw := Except.ok.inj hraw
  rw [hm.get?] at hraw
  split at h
  · exact .inl (Except.ok.inj h).symm
  · split at h
    · right
      rw [← Except.ok.inj h]
      cases hf : m.field? checkpointsKey with
      | none => rw [hf] at hraw; exact nomatch hraw
      | some v => rw [hf] at hraw; exact congrArg some hraw
    · exact nomatch h

/-- The stored documents have JSON texts. -/
theorem stored_encode (he : e.context = .dict m) (hm : m.Fit) {ds : List Value}
    (h : stored e = .ok ds) : ∀ d ∈ ds, d.Encodes := by
  rcases stored_ok he hm h with rfl | hds
  · exact fun d hd => absurd hd List.not_mem_nil
  · exact Value.encodes_list.mp (hm.field? hds)

/-- The documents of a list with one more are kept as they are. -/
theorem appended_of_closed {ds : List Value} (hclosed : ∀ d ∈ ds, d.Closed)
    (h : c.document = .ok d) (limit : Int) : appended ds d limit = newest limit (ds ++ [d]) := by
  rw [appended, Value.detachedItems_of_closed]
  intro x hx
  rcases List.mem_append.mp hx with hx | hx
  · exact hclosed x hx
  · rw [List.mem_singleton.mp hx]
    exact (document_plain h).closed

/-- Storing a checkpoint puts the newest of the documents, its own the last, in the
    place of the list. -/
theorem store_ok (hclosed : ∀ ds, stored e = .ok ds → ∀ d ∈ ds, d.Closed) {limit : Int}
    {context context' : Mapping} (h : store e c limit context = .ok context') :
    ∃ ds d, stored e = .ok ds ∧ c.document = .ok d ∧
      context' = context.set checkpointsKey (.list (newest limit (ds ++ [d]))) := by
  obtain ⟨ds, hds, h⟩ := exceptBind_ok.mp h
  obtain ⟨d, hd, h⟩ := exceptBind_ok.mp h
  refine ⟨ds, d, hds, hd, ?_⟩
  rw [← Except.ok.inj h, appended_of_closed (hclosed ds hds) hd]

theorem mem_of_mem_newest {α : Type} {limit : Int} {x : α} {xs : List α}
    (h : x ∈ newest limit xs) : x ∈ xs := List.mem_of_mem_drop h

/-- What is read of stored documents is read of them one by one. -/
theorem readAll_ok {ds : List Value} {cs : List Checkpoint}
    (h : (readAll e ds).runAt now s = (.ok cs, s')) :
    List.Forall₂ (fun d c => ∃ freshId, read now freshId d = .ok c) ds cs := by
  induction ds generalizing cs s s' with
  | nil =>
      rw [← (Draft.runAt_pure_ok.mp h).1]
      exact .nil
  | cons d ds ih =>
      unfold readAll at h
      obtain ⟨freshId, s₁, _, h⟩ := Draft.runAt_ite_bind_ok.mp h
      obtain ⟨t, s₂, ht, h⟩ := Draft.runAt_bind_ok.mp h
      have ht : now = t := Except.ok.inj (Prod.mk.inj ht).1
      cases hd : read t freshId d with
      | bad fs => rw [hd] at h; exact nomatch h
      | ok c =>
          rw [hd] at h
          obtain ⟨cs', s₃, hcs, h⟩ := Draft.runAt_bind_ok.mp h
          rw [← (Draft.runAt_pure_ok.mp h).1]
          exact .cons ⟨freshId, ht ▸ hd⟩ (ih hcs)

/-- What is found under an id is read of one of the stored documents. -/
theorem find_ok (hclosed : ∀ ds, stored e = .ok ds → ∀ d ∈ ds, d.Closed) {id : String}
    (h : (find e id).runAt now s = (.ok c, s')) :
    c.id = id ∧ ∃ ds d freshId, stored e = .ok ds ∧ d ∈ ds ∧ read now freshId d = .ok c := by
  obtain ⟨cs, s₁, hcs, h⟩ := Draft.runAt_bind_ok.mp h
  obtain ⟨ds, hds, hcs⟩ := Draft.runAt_ofExcept_bind_ok.mp hcs
  rw [Value.detachedItems_of_closed (hclosed ds hds)] at hcs
  cases hf : cs.find? fun c => c.id == id with
  | none => rw [hf] at h; exact nomatch h
  | some c' =>
      rw [hf] at h
      rw [← (Draft.runAt_pure_ok.mp h).1]
      refine ⟨beq_iff_eq.mp (List.find?_some (p := fun c : Checkpoint => c.id == id) hf), ?_⟩
      obtain ⟨d, hd, freshId, hread⟩ :=
        exists_of_forall₂ (readAll_ok hcs) c' (List.mem_of_find?_eq_some hf)
      exact ⟨ds, d, freshId, hds, hd, hread⟩

/-- Looking for a checkpoint draws ids at most. -/
theorem find_counts (e : Execution) (id : String) : (find e id).Counts := by
  have hread (ds : List Value) : (readAll e ds).Counts := by
    induction ds with
    | nil => exact .pure _
    | cons d ds ih =>
        refine .ite_bind .checkpointId (.pure _) fun freshId => .bind .now fun now => ?_
        split
        · exact .fail _
        · exact .bind ih fun cs => .pure _
  refine .bind (.bind (.ofExcept _) fun ds => hread _) fun cs => ?_
  split
  · exact .pure _
  · exact .fail _

theorem capture_counts (e : Execution) (label : Value) : (capture e label).Counts :=
  .bind (.ofExcept _) fun _ => .bind .checkpointId fun _ => .bind .now fun _ => .ofExcept _

/-- What a capture of fit context data holds. -/
theorem capture_ok (he : e.context = .dict m) {label : Value}
    (h : (capture e label).runAt now s = (.ok c, s')) :
    ∃ label' step context,
      Lax.text "label" label = .ok label' ∧ Lax.text "captured_step" e.currentStep = .ok step ∧
      Lax.mapping "captured_context"
        (.dict (m.copyTop fun k => !(Value.str checkpointsKey).equal k)) = .ok context ∧
      c = taken e s!"cp-{s.checkpoints + 1}" now label' step context ∧
      s' = { s with checkpoints := s.checkpoints + 1 } := by
  obtain ⟨m', hm', h⟩ := Draft.runAt_ofExcept_bind_ok.mp h
  have hm' : m = m' := Value.dict.inj (he.symm.trans (Execution.entries_ok.mp hm'))
  obtain ⟨id, s₁, hid, h⟩ := Draft.runAt_bind_ok.mp h
  rw [Draft.runAt_checkpointId] at hid
  obtain ⟨hid, hs₁⟩ := Prod.mk.inj hid
  obtain ⟨t, s₂, ht, h⟩ := Draft.runAt_bind_ok.mp h
  obtain ⟨ht, hs₂⟩ := Prod.mk.inj ht
  rw [Draft.runAt_ofExcept] at h
  obtain ⟨hc, hs'⟩ := Prod.mk.inj h
  obtain ⟨k₁, context, h₁, hcontext, hk₁⟩ := Checked.seq_ok.mp (Checked.toExcept_ok.mp hc)
  obtain ⟨k₂, step, h₂, hstep, hk₂⟩ := Checked.seq_ok.mp h₁
  obtain ⟨label', hlabel, hk₃⟩ := Checked.map_ok.mp h₂
  refine ⟨label', step, context, hlabel, hstep, hm' ▸ hcontext, ?_, ?_⟩
  · rw [← hk₁, ← hk₂, ← hk₃, Except.ok.inj hid, Except.ok.inj ht]
  · rw [← hs', ← hs₂, ← hs₁]

/-- A capture at a text comes to a checkpoint of what is read of the context. -/
theorem runAt_capture (he : e.context = .dict m) {step : String}
    (hstep : Lax.textOf? e.currentStep = some step) {context : Mapping}
    (hcontext : Lax.mapping "captured_context"
      (.dict (m.copyTop fun k => !(Value.str checkpointsKey).equal k)) = .ok context)
    (label : String) (now : Timestamp) (s : Serials) :
    (capture e (.str label)).runAt now s =
      (.ok (taken e s!"cp-{s.checkpoints + 1}" now label step context),
        { s with checkpoints := s.checkpoints + 1 }) := by
  have htext : Lax.text "captured_step" e.currentStep = .ok step := by
    unfold Lax.text
    rw [hstep]
  refine Draft.runAt_ofExcept_bind_ok.mpr ⟨m, Execution.entries_ok.mpr he, ?_⟩
  refine Draft.runAt_bind_ok.mpr ⟨_, _, Draft.runAt_checkpointId now s, ?_⟩
  refine Draft.runAt_bind_ok.mpr ⟨now, _, rfl, ?_⟩
  rw [Draft.runAt_ofExcept, hcontext, htext]
  rfl

end Checkpoint

end Workflow
