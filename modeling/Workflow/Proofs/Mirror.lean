import Workflow.Proofs.Row
import Workflow.Proofs.System

/-! # Mirror — a table shows what a store in memory would hold

    The rows of a table keep executions, in the order of the rows.  A request that is
    served there does to these what it would do to executions in memory, but that what is
    put in is shown as its row is read, and that a save may fail for more reasons.

    The heart is `World.answer_mirrors`, one step of both stores at once. -/

namespace Workflow

variable {t t' : TableStore} {m : MemoryStore} {d : Display} {e p : Execution} {v : Int}
  {now : Timestamp}

/-- What a table shows of an execution: what is read of its row. -/
def Display.reread : Display :=
  ⟨fun e e' => ∃ now, Reread now e e', fun ⟨_, h⟩ howns => h.ownsId howns,
    fun ⟨_, h⟩ => h.version⟩

/-- Do the rows of the table keep these executions, one row for each id? -/
structure TableStore.Mirrors (t : TableStore) (m : MemoryStore) : Prop where
  kept     : List.Forall₂ TableRow.Keeps t.rows m.executions
  distinct : (t.rows.map (·.id)).Nodup

/-- Does the store show these executions, and show so what is put in? -/
inductive Store.Mirrors : Display → Store → MemoryStore → Prop where
  | memory (m : MemoryStore) : Mirrors .exact (.memory m) m
  | table {t : TableStore} {m : MemoryStore} : t.Mirrors m → Mirrors .reread (.table t) m

/-! ## Looking up -/

/-- Searches of related lists find related items. -/
theorem rel_find? {α β : Type} {R : α → β → Prop} {xs : List α} {ys : List β} {p : α → Bool}
    {q : β → Bool} (h : List.Forall₂ R xs ys) (hpq : ∀ x y, R x y → p x = q y) :
    Option.Rel R (xs.find? p) (ys.find? q) := by
  induction h with
  | nil => exact .none
  | @cons x y xs ys hxy _ ih =>
      rw [List.find?_cons, List.find?_cons, hpq x y hxy]
      cases q y with
      | true => exact .some hxy
      | false => exact ih

namespace TableStore

namespace Mirrors

theorem rel_get? (h : t.Mirrors m) (id : String) :
    Option.Rel TableRow.Keeps (t.rows.find? fun r => r.id == id) (m.get? id) :=
  rel_find? h.kept fun r e hk => by rw [hk.id_eq]

/-- What a row keeps is shown under its id. -/
theorem get?_of_mem (h : t.Mirrors m) {r : TableRow} (hr : r ∈ t.rows) :
    ∃ e, m.get? r.id = some e ∧ r.Keeps e := by
  have hrel := h.rel_get? r.id
  rw [find?_of_mem h.distinct hr] at hrel
  generalize m.get? r.id = o at hrel
  cases hrel with
  | some hk => exact ⟨_, rfl, hk⟩

theorem row_of_get? (h : t.Mirrors m) {id : String} (he : m.get? id = some e) :
    ∃ r ∈ t.rows, (t.rows.find? fun r => r.id == id) = some r ∧ r.id = id ∧ r.Keeps e := by
  have hrel := h.rel_get? id
  rw [he] at hrel
  cases hf : t.rows.find? fun r => r.id == id with
  | none =>
      rw [hf] at hrel
      exact nomatch hrel
  | some r =>
      rw [hf] at hrel
      cases hrel with
      | some hk =>
          exact ⟨r, List.mem_of_find?_eq_some hf, rfl,
            beq_iff_eq.mp (List.find?_some (p := fun r : TableRow => r.id == id) hf), hk⟩

theorem find?_str (h : t.Mirrors m) {id : String} (he : m.get? id = some e) :
    t.find? now (.str id) = .ok (some e) := by
  obtain ⟨r, _, hf, _, hk⟩ := h.row_of_get? he
  show t.get? now id = _
  unfold get?
  rw [hf]
  show (r.toExecution now).map some = _
  rw [hk.shown now]
  rfl

theorem shown_of_find? (h : t.Mirrors m) {id : Value} (hf : t.find? now id = .ok (some e)) :
    m.get? e.id = some e ∧ ∀ s, id = .str s → e.id = s := by
  obtain ⟨text, r, htext, hr, he⟩ := find?_ok hf
  have hid : r.id = text :=
    beq_iff_eq.mp (List.find?_some (p := fun r : TableRow => r.id == text) hr)
  obtain ⟨e', he', hk⟩ := h.get?_of_mem (List.mem_of_find?_eq_some hr)
  obtain rfl : e' = e := Except.ok.inj ((hk.shown now).symm.trans he)
  rw [hk.id_eq]
  refine ⟨he', ?_⟩
  rintro s rfl
  rw [hid]
  exact (Option.some.inj (Except.ok.inj htext)).symm

/-! ## Putting in -/

/-- A save that goes through puts what is shown of the offer in the place of what had
    the expected version. -/
theorem save (h : t.Mirrors m) (howns : p.OwnsId) (hhistory : ∀ r ∈ p.history, r.Lasts)
    (hnow : now.offset = some 0) (hs : t.save now p v = .ok (e, t')) :
    ∃ cur e', e = p.committed v now ∧ m.get? p.id = some cur ∧ cur.version = v ∧
      Display.reread.Shows e e' ∧ t'.Mirrors (m.replace e') := by
  obtain ⟨rfl, _, row, hrow, ⟨r, hr, hid, hv⟩, rfl⟩ := save_ok.mp hs
  obtain ⟨hrowid, _, _, hfits⟩ := TableRow.ofExecution_columns hrow (howns.committed v now)
  obtain ⟨cur, hcur, hk⟩ := h.get?_of_mem hr
  obtain ⟨created, hcreated⟩ := hk.created
  obtain ⟨e', hkeeps, hreread⟩ := TableRow.keeps_of_lasts hrow hfits hhistory hnow hcreated
  rw [hid, hrowid] at hcur
  refine ⟨cur, e', rfl, hcur, hk.version_eq.trans hv, hreread, ?_, ?_⟩
  · -- Only one row has the id of the offer, so it alone gives way.
    refine List.forall₂_map_left_iff.mpr (List.forall₂_map_right_iff.mpr ?_)
    refine List.forall₂_iff_zip.mpr ⟨h.kept.length_eq, fun {r'} {f} hzip => ?_⟩
    have hk' := (List.forall₂_iff_zip.mp h.kept).2 hzip
    have he' : e'.id = row.id := hkeeps.id_eq
    by_cases hsame : r'.id = row.id
    · obtain rfl : r' = r := List.inj_on_of_nodup_map h.distinct (List.of_mem_zip hzip).1 hr
        (hsame.trans hid.symm)
      rw [if_pos (by rw [Bool.and_eq_true, beq_iff_eq, beq_iff_eq]; exact ⟨hid, hv⟩),
        if_pos (by rw [hk'.id_eq, he', hid])]
      exact hkeeps
    · rw [if_neg (by rw [Bool.and_eq_true, beq_iff_eq]; exact fun h => hsame h.1),
        if_neg (by rw [hk'.id_eq, he']; exact hsame)]
      exact hk'
  · rw [updated_ids]
    exact h.distinct

/-- A creation that goes through puts what is shown of the execution at the end. -/
theorem create (h : t.Mirrors m) (howns : e.OwnsId) (hhistory : ∀ r ∈ e.history, r.Lasts)
    (hcreated : e.createdAt.offset = some 0) (hupdated : e.updatedAt.offset = some 0)
    (hc : t.create e = .ok t') : ∃ e', m.get? e.id = none ∧ Display.reread.Shows e e' ∧
      t'.Mirrors ⟨m.executions ++ [e']⟩ := by
  obtain ⟨row, hrow, hnew, hrows⟩ := create_ok hc
  obtain ⟨hrowid, _, htext, hfits⟩ := TableRow.ofExecution_columns hrow howns
  have htime := Timestamp.ofIsoText?_isoText hcreated
  rw [← htext] at htime
  obtain ⟨e', hkeeps, hreread⟩ := TableRow.keeps_of_lasts hrow hfits hhistory hupdated htime
  refine ⟨e', ?_, hreread, ?_, ?_⟩
  · cases hg : m.get? e.id with
    | none => rfl
    | some x =>
        obtain ⟨r, hr, _, hid, _⟩ := h.row_of_get? hg
        exact absurd hid (hnew r hr)
  · rw [hrows]
    exact List.rel_append h.kept (.cons hkeeps .nil)
  · rw [hrows, List.map_append, List.nodup_append]
    refine ⟨h.distinct, List.nodup_singleton _, ?_⟩
    rintro id hid _ hrow' rfl
    obtain ⟨r, hr, rfl⟩ := List.mem_map.mp hid
    rw [List.map_singleton, List.mem_singleton, hrowid] at hrow'
    exact hnew r hr hrow'

end Mirrors

end TableStore

/-! ## Either store -/

/-- Looking up by an id is looking up by a text. -/
theorem Store.find?_str (store : Store) (now : Timestamp) (id : String) :
    store.find? now (.str id) = store.get? now id := by
  cases store with
  | memory m => exact m.find?_str id
  | table t => rfl

namespace Store.Mirrors

variable {store store' : Store}

theorem find?_str (h : store.Mirrors d m) {id : String} (he : m.get? id = some e)
    (now : Timestamp) : store.find? now (.str id) = .ok (some e) := by
  cases h with
  | memory m => exact (m.find?_str id).trans (congrArg _ he)
  | table ht => exact ht.find?_str he

theorem shown_of_find? (h : store.Mirrors d m) {id : Value}
    (hf : store.find? now id = .ok (some e)) :
    m.get? e.id = some e ∧ ∀ s, id = .str s → e.id = s := by
  cases h with
  | memory m =>
      refine ⟨MemoryStore.get?_of_find? hf, ?_⟩
      rintro s rfl
      exact MemoryStore.id_of_get? (Except.ok.inj ((m.find?_str s).symm.trans hf))
  | table ht => exact ht.shown_of_find? hf

/-- A save that goes through puts what is shown of the offer in the place of what had
    the expected version. -/
theorem save (h : store.Mirrors d m) (howns : p.OwnsId) (hhistory : ∀ r ∈ p.history, r.Lasts)
    (hnow : now.offset = some 0) (hs : store.save now p v = .ok (e, store')) :
    ∃ cur e', e = p.committed v now ∧ m.get? p.id = some cur ∧ cur.version = v ∧
      d.Shows e e' ∧ store'.Mirrors d (m.replace e') := by
  cases h with
  | memory m =>
      obtain ⟨⟨_, m'⟩, hm, he⟩ := exceptMap_ok.mp hs
      obtain ⟨rfl, rfl⟩ := Prod.mk.inj he
      obtain ⟨cur, hcur, hv, rfl, rfl⟩ := MemoryStore.save_ok.mp hm
      rw [m.find?_of_ownsId howns] at hcur
      exact ⟨cur, _, rfl, Except.ok.inj hcur, hv, rfl, .memory _⟩
  | table ht =>
      obtain ⟨⟨_, t'⟩, hm, he⟩ := exceptMap_ok.mp hs
      obtain ⟨rfl, rfl⟩ := Prod.mk.inj he
      obtain ⟨cur, e', he, hcur, hv, hshows, ht'⟩ := ht.save howns hhistory hnow hm
      exact ⟨cur, e', he, hcur, hv, hshows, .table ht'⟩

end Store.Mirrors

/-! ## Serving requests -/

/-- Do the histories of what goes into the store last, and is what is new there of
    universal time? -/
def Request.Lasts : Request → Prop
  | .insert e => (∀ r ∈ e.history, r.Lasts) ∧ e.createdAt.offset = some 0 ∧
      e.updatedAt.offset = some 0
  | .save p _ => ∀ r ∈ p.history, r.Lasts
  | _         => True

namespace World

variable {c : Climate} {w : World} {q : Request}

/-- What a save comes to that reaches a table. -/
theorem commit_table (ht : t.Mirrors m) (hw : w.store = .table t) (howns : p.OwnsId)
    (hhistory : ∀ r ∈ p.history, r.Lasts) (hnow : w.now.offset = some 0) :
    (∃ t' cur e', m.get? p.id = some cur ∧ cur.version = v ∧
      Display.reread.Shows (p.committed v w.now) e' ∧ t'.Mirrors (m.replace e') ∧
      w.commit p v = (.ok (p.committed v w.now), { w with store := .table t' })) ∨
    ∃ f, w.commit p v = (.error f, w) := by
  unfold commit
  rw [hw]
  cases hs : t.save w.now p v with
  | error f =>
      refine .inr ⟨f, ?_⟩
      simp only [Store.save, hs, Except.map]
  | ok r =>
      obtain ⟨e, t'⟩ := r
      obtain ⟨cur, e', rfl, hcur, hv, hshows, ht'⟩ := ht.save howns hhistory hnow hs
      refine .inl ⟨t', cur, e', hcur, hv, hshows, ht', ?_⟩
      simp only [Store.save, hs, Except.map]

/-- Serving a request does to what a table shows what a step may do, where saves may
    fail. -/
theorem answer_table (hc : c.Spares) (hfail : ∀ f, c.trouble (.fail f)) (hallows : c.Allows w)
    (hnow : w.now.offset = some 0) (hw : w.store = .table t) (ht : t.Mirrors m)
    (howns : q.OwnsId) (hlasts : q.Lasts) :
    ∃ t' m', (w.answer q).2.store = .table t' ∧ t'.Mirrors m' ∧
      StoreStep .reread c m w.now q (w.answer q).1 m' := by
  cases q with
  | load id =>
      refine ⟨t, m, hw, ht, .load id _ fun e he => ?_⟩
      have he : w.store.find? w.now id = .ok (some e) := he
      rw [hw] at he
      exact ht.shown_of_find? he
  | insert e =>
      obtain ⟨hhistory, hcreated, hupdated⟩ := hlasts
      show ∃ t' m', (w.insert e).2.store = .table t' ∧ t'.Mirrors m' ∧
        StoreStep .reread c m w.now (.insert e) (w.insert e).1 m'
      unfold insert
      rw [hw]
      cases hs : t.create e with
      | error f =>
          simp only [Store.create, hs, Except.map]
          exact ⟨t, m, hw, ht, .uninserted e f⟩
      | ok t' =>
          simp only [Store.create, hs, Except.map]
          obtain ⟨e', hnew, hshows, ht'⟩ := ht.create howns hhistory hcreated hupdated hs
          exact ⟨t', _, rfl, ht', .inserted e hnew hshows⟩
  | save p v =>
      show ∃ t' m', (w.save p v).2.store = .table t' ∧ t'.Mirrors m' ∧
        StoreStep .reread c m w.now (.save p v) (w.save p v).1 m'
      obtain ⟨disturbances, h | ⟨f, _, h⟩⟩ := hc.save hallows p v
      · rw [h]
        rcases commit_table (w := { w with disturbances }) (v := v) ht hw howns hlasts hnow with
          ⟨t', cur, e', hcur, hv, hshows, ht', h⟩ | ⟨f, h⟩
        · rw [h]
          exact ⟨t', _, rfl, ht', .saved p v hcur hv hshows⟩
        · rw [h]
          exact ⟨t, m, hw, ht, .unsaved p v f (.inr (hfail f))⟩
      · rw [h]
        exact ⟨t, m, hw, ht, .unsaved p v f (.inr (hfail f))⟩
  | _ => exact ⟨t, m, hw, ht, .quiet _ _ trivial⟩

/-- So either store, whichever it is, goes on showing what a step leads to. -/
theorem answer_mirrors (hc : c.Spares) (hfail : ∀ f, c.trouble (.fail f)) (hallows : c.Allows w)
    (hnow : w.now.offset = some 0) (hm : w.store.Mirrors d m) (howns : q.OwnsId)
    (hlasts : q.Lasts) :
    ∃ m', (w.answer q).2.store.Mirrors d m' ∧ StoreStep d c m w.now q (w.answer q).1 m' := by
  generalize hw : w.store = store at hm
  cases hm with
  | memory m =>
      obtain ⟨m', hm', hstep⟩ := answer_memory hc hallows hw howns
      exact ⟨m', hm' ▸ .memory m', hstep⟩
  | table ht =>
      obtain ⟨t', m', ht', hmirrors, hstep⟩ :=
        answer_table hc hfail hallows hnow hw ht howns hlasts
      exact ⟨m', ht' ▸ .table hmirrors, hstep⟩

end World

end Workflow
