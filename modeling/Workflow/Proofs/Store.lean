import Mathlib.Data.List.Nodup
import Workflow.Store

/-! # Store — what stores keep

    A save is a compare-and-swap: it puts the offer, stamped, in the place of the
    snapshot with the expected version, or changes nothing.  So whatever holds of
    every stored execution goes on holding when it holds of what is put in.

    For a table this asks that the property outlasts the way through a row and
    back, since a table keeps texts. -/

namespace Workflow

variable {ε α β : Type}

/-- A sequence has a result exactly when both parts have one. -/
theorem exceptBind_ok {r : Except ε α} {k : α → Except ε β} {b : β} :
    (r >>= k) = .ok b ↔ ∃ a, r = .ok a ∧ k a = .ok b := by
  cases r with
  | ok a =>
      constructor
      · exact fun h => ⟨a, rfl, h⟩
      · rintro ⟨a', ha, hk⟩
        rw [Except.ok.inj ha]
        exact hk
  | error f =>
      constructor
      · exact fun h => nomatch h
      · rintro ⟨a, ha, _⟩
        exact nomatch ha

theorem exceptMap_ok {r : Except ε α} {k : α → β} {b : β} :
    r.map k = .ok b ↔ ∃ a, r = .ok a ∧ k a = b := by
  cases r with
  | ok a =>
      constructor
      · exact fun h => ⟨a, rfl, Except.ok.inj h⟩
      · rintro ⟨a', ha, rfl⟩
        rw [Except.ok.inj ha]
        rfl
  | error f =>
      constructor
      · exact fun h => nomatch h
      · rintro ⟨a, ha, _⟩
        exact nomatch ha

/-- A lookup of whose result something was computed has found it. -/
theorem found_of_map {r : Except ε (Option α)} {k : α → β} {b : β}
    (h : r.toOption.join.map k = some b) : ∃ a, r = .ok (some a) ∧ k a = b := by
  obtain ⟨a, ha, hk⟩ := Option.map_eq_some_iff.mp h
  cases r with
  | ok o => exact ⟨a, congrArg _ ha, hk⟩
  | error _ => exact nomatch ha

/-! ## Ids -/

namespace Value

/-- A text equals exactly the values that are this text. -/
theorem str_equal (s : String) (v : Value) :
    (Value.str s).equal v = (v.toText? == some s) := by
  cases v with
  | scalar t =>
      cases t with
      | str t =>
          show (s == t) = (some t == some s)
          rw [Bool.eq_iff_iff, beq_iff_eq, beq_iff_eq, Option.some.injEq, eq_comm]
      | status t =>
          show (s == t.text) = (some t.text == some s)
          rw [Bool.eq_iff_iff, beq_iff_eq, beq_iff_eq, Option.some.injEq, eq_comm]
      | _ => rfl
  | _ => rfl

private theorem aside_id (m : Mapping) :
    Mapping.field? (Mapping.erase m "version") "id" = Mapping.field? m "id" := by
  unfold Mapping.field? Mapping.find? Mapping.erase Mapping.remove
  rw [List.find?_filter]
  congr 2
  funext e
  rw [str_equal, str_equal, Bool.eq_iff_iff, decide_eq_true_iff, beq_iff_eq]
  refine and_iff_right_of_imp fun h => ?_
  rw [h]
  rfl

theorem str_equal_str (s t : String) : (Value.str s).equal (.str t) = (t == s) := by
  rw [str_equal]
  rfl

end Value

namespace Execution

/-- Does nothing stand in the place of the id? -/
def OwnsId (e : Execution) : Prop := e.idValue = .str e.id

@[simp] theorem committed_id (e : Execution) (v : Int) (now : Timestamp) :
    (e.committed v now).id = e.id := rfl

/-- A commit leaves the id alone, and what may stand in its place. -/
@[simp] theorem committed_idValue (e : Execution) (v : Int) (now : Timestamp) :
    (e.committed v now).idValue = e.idValue :=
  congrArg (fun o : Option Value => o.getD (.str e.id)) (Value.aside_id e.aside)

/-- Where nothing stands aside, nothing stands in the place of the id. -/
theorem ownsId_of_aside {e : Execution} (h : e.aside = []) : e.OwnsId := by
  unfold OwnsId idValue
  rw [h]
  rfl

/-- What goes under the id of an execution that owns it owns it too. -/
theorem OwnsId.of_id_eq {e p : Execution} (h : e.OwnsId) (hid : p.id = e.id)
    (hvalue : p.idValue = e.idValue) : p.OwnsId := by
  unfold OwnsId
  rw [hvalue, hid]
  exact h

theorem OwnsId.committed {e : Execution} (h : e.OwnsId) (v : Int) (now : Timestamp) :
    (e.committed v now).OwnsId := h.of_id_eq (committed_id e v now) (committed_idValue e v now)

@[simp] theorem committed_version (e : Execution) (v : Int) (now : Timestamp) :
    (e.committed v now).version = v + 1 := rfl

end Execution

/-! ## Executions in memory -/

namespace MemoryStore

variable {m m' : MemoryStore} {p e cur : Execution} {v : Int} {now : Timestamp}

theorem find?_str (m : MemoryStore) (id : String) : m.find? (.str id) = .ok (m.get? id) := by
  show (Except.ok (m.executions.find? fun e => (Value.str e.id).equal (.str id)) :
    Except Failure (Option Execution)) = _
  have h : (fun e : Execution => (Value.str e.id).equal (.str id)) =
      fun e => e.id == id := by
    funext e
    rw [Value.str_equal_str, Bool.eq_iff_iff, beq_iff_eq, beq_iff_eq, eq_comm]
  rw [h]
  rfl

theorem mem_of_find? {id : Value} (h : m.find? id = .ok (some e)) : e ∈ m.executions := by
  unfold find? at h
  split at h
  · exact List.mem_of_find?_eq_some (Except.ok.inj h)
  · exact nomatch h

theorem mem_of_get? {id : String} (h : m.get? id = some e) : e ∈ m.executions :=
  List.mem_of_find?_eq_some h

theorem id_of_get? {id : String} (h : m.get? id = some e) : e.id = id :=
  beq_iff_eq.mp (List.find?_some (p := fun e : Execution => e.id == id) h)

/-- An offer that owns its id is looked up under it. -/
theorem find?_of_ownsId (m : MemoryStore) (hp : p.OwnsId) :
    m.find? p.idValue = .ok (m.get? p.id) := by
  rw [hp, find?_str]

/-- What is found under a value is what stands under its own id. -/
theorem get?_of_find? {v : Value} (h : m.find? v = .ok (some e)) : m.get? e.id = some e := by
  unfold find? at h
  split at h
  · have hf := Except.ok.inj h
    have hv := List.find?_some (p := fun f : Execution => (Value.str f.id).equal v) hf
    rw [Value.str_equal, beq_iff_eq] at hv
    have hid : (fun f : Execution => (Value.str f.id).equal v) = fun f => f.id == e.id := by
      funext f
      rw [Value.str_equal, hv, Bool.eq_iff_iff, beq_iff_eq, beq_iff_eq,
        Option.some.injEq, eq_comm]
    rw [hid] at hf
    exact hf
  · exact nomatch h

/-- A new execution shows under its own id, where nothing stood before. -/
theorem get?_append (m : MemoryStore) (e : Execution) (id : String) :
    (⟨m.executions ++ [e]⟩ : MemoryStore).get? id =
      (m.get? id).or (if e.id = id then some e else none) := by
  unfold get?
  rw [List.find?_append, List.find?_singleton]
  congr 1
  by_cases h : e.id = id
  · rw [if_pos h, if_pos (beq_iff_eq.mpr h)]
  · rw [if_neg h, if_neg (fun hb => h (beq_iff_eq.mp hb))]

/-- When a save goes through, and what it leaves. -/
theorem save_ok : m.save now p v = .ok (e, m') ↔
    ∃ cur, m.find? p.idValue = .ok (some cur) ∧ cur.version = v ∧
      e = p.committed v now ∧ m' = m.replace e := by
  unfold save
  rw [exceptBind_ok]
  constructor
  · rintro ⟨o, ho, h⟩
    cases o with
    | none => exact nomatch h
    | some cur =>
        by_cases hv : cur.version = v
        · simp only [if_pos hv] at h
          obtain ⟨rfl, rfl⟩ := Prod.mk.inj (Except.ok.inj h)
          exact ⟨cur, ho, hv, rfl, rfl⟩
        · simp only [if_neg hv] at h
          exact nomatch h
  · rintro ⟨cur, ho, hv, rfl, rfl⟩
    refine ⟨some cur, ho, ?_⟩
    simp only [if_pos hv]
    rfl

/-- Why a save that reached the store did not go through. -/
theorem save_error {f : Failure} (h : m.save now p v = .error f) :
    p.idValue.isHashable = false ∨ f = .missingKey p.idValue.display ∨
      ∃ cur, m.find? p.idValue = .ok (some cur) ∧ cur.version ≠ v ∧
        f = lostUpdate p.id v cur.version (some cur) := by
  unfold save at h
  cases hf : m.find? p.idValue with
  | error g =>
      left
      unfold find? at hf
      split at hf
      · exact nomatch hf
      · rename_i hh
        exact Bool.eq_false_iff.mpr hh
  | ok o =>
      rw [hf] at h
      cases o with
      | none => exact .inr (.inl (Except.error.inj h).symm)
      | some cur =>
          by_cases hv : cur.version = v
          · simp only [bind, Except.bind, if_pos hv] at h
            exact nomatch h
          · simp only [bind, Except.bind, if_neg hv] at h
            exact .inr (.inr ⟨cur, rfl, hv, (Except.error.inj h).symm⟩)

theorem mem_replace {x : Execution} (h : x ∈ (m.replace e).executions) :
    x = e ∨ x ∈ m.executions := by
  obtain ⟨f, hf, hx⟩ := List.mem_map.mp h
  by_cases hid : f.id = e.id
  · rw [if_pos hid] at hx
    exact .inl hx.symm
  · rw [if_neg hid] at hx
    exact .inr (hx ▸ hf)

/-- A replacement shows under its own id, and under no other. -/
theorem get?_replace (m : MemoryStore) (e : Execution) (id : String) :
    (m.replace e).get? id =
      if id = e.id then (m.get? id).map fun _ => e else m.get? id := by
  have hp : (fun f : Execution => f.id == id) ∘ (fun f => if f.id = e.id then e else f) =
      fun f => f.id == id := by
    funext f
    show ((if f.id = e.id then e else f).id == id) = (f.id == id)
    by_cases hf : f.id = e.id
    · rw [if_pos hf, hf]
    · rw [if_neg hf]
  unfold get? replace
  rw [List.find?_map, hp]
  cases hg : m.executions.find? fun f => f.id == id with
  | none => rw [Option.map_none, Option.map_none, ite_self]
  | some f =>
      have hf : f.id = id :=
        beq_iff_eq.mp (List.find?_some (p := fun f : Execution => f.id == id) hg)
      rw [Option.map_some, Option.map_some, hf]
      by_cases h : id = e.id
      · rw [if_pos h, if_pos h]
      · rw [if_neg h, if_neg h]

end MemoryStore

/-! ## Rows in a table -/

namespace TableStore

variable {t t' : TableStore} {p e : Execution} {v : Int} {now : Timestamp}

/-- When a save goes through, and what it leaves: the row of the offer, stamped, with
    the creation time of the row in whose place it stands. -/
theorem save_ok : t.save now p v = .ok (e, t') ↔
    e = p.committed v now ∧ TableRow.fits v = true ∧ ∃ row, TableRow.ofExecution e = .ok row ∧
      (∃ r ∈ t.rows, r.id = row.id ∧ r.version = v) ∧
      t' = ⟨t.rows.map fun r =>
        if r.id == row.id && r.version == v then updateRow r row else r⟩ := by
  unfold save
  constructor
  · intro h
    obtain ⟨row, hrow, h⟩ := exceptBind_ok.mp h
    simp only [Bool.not_eq_true'] at h
    split at h
    · exact nomatch h
    · rename_i hfits
      split at h
      · rename_i hany
        obtain ⟨rfl, rfl⟩ := Prod.mk.inj (Except.ok.inj h)
        obtain ⟨r, hr, hv⟩ := List.any_eq_true.mp hany
        rw [Bool.and_eq_true, beq_iff_eq, beq_iff_eq] at hv
        exact ⟨rfl, by simpa using hfits, row, hrow, ⟨r, hr, hv⟩, rfl⟩
      · obtain ⟨o, _, h⟩ := exceptBind_ok.mp h
        cases o with
        | none => exact nomatch h
        | some cur => exact nomatch h
  · rintro ⟨rfl, hfits, row, hrow, ⟨r, hr, hid, hv⟩, rfl⟩
    have hany : (t.rows.any fun r => r.id == row.id && r.version == v) = true := by
      refine List.any_eq_true.mpr ⟨r, hr, ?_⟩
      rw [Bool.and_eq_true, beq_iff_eq, beq_iff_eq]
      exact ⟨hid, hv⟩
    refine exceptBind_ok.mpr ⟨row, hrow, ?_⟩
    dsimp only
    rw [hfits, hany]
    rfl

/-- Rows with ids of their own are found under them. -/
theorem find?_of_mem (h : (t.rows.map (·.id)).Nodup) {r : TableRow} (hr : r ∈ t.rows) :
    (t.rows.find? fun r' => r'.id == r.id) = some r := by
  cases hf : t.rows.find? fun r' => r'.id == r.id with
  | none =>
      have hne := List.find?_eq_none.mp hf r hr
      exact absurd (beq_self_eq_true r.id) hne
  | some r' =>
      have hid : r'.id = r.id :=
        beq_iff_eq.mp (List.find?_some (p := fun r' : TableRow => r'.id == r.id) hf)
      rw [List.inj_on_of_nodup_map h (List.mem_of_find?_eq_some hf) hr hid]

/-- The row that a save puts in the place of another stands under the id of both. -/
theorem updated_id (row r : TableRow) (v : Int) :
    (if r.id == row.id && r.version == v then updateRow r row else r).id = r.id := by
  split
  · rename_i hsame
    rw [Bool.and_eq_true, beq_iff_eq] at hsame
    exact hsame.1.symm
  · rfl

/-- So a save leaves the ids of all rows alone. -/
theorem updated_ids (rows : List TableRow) (row : TableRow) (v : Int) :
    (rows.map fun r => if r.id == row.id && r.version == v then
      updateRow r row else r).map (·.id) = rows.map (·.id) := by
  rw [List.map_map]
  exact List.map_congr_left fun r _ => updated_id row r v

/-- And it shows under the id of its row, and under no other. -/
theorem find?_updated (h : (t.rows.map (·.id)).Nodup) {row r : TableRow} (hr : r ∈ t.rows)
    (hid : r.id = row.id) (hv : r.version = v) (id : String) :
    ((t.rows.map fun r => if r.id == row.id && r.version == v then
        updateRow r row else r).find? fun r => r.id == id) =
      if row.id = id then some (updateRow r row) else t.rows.find? fun r => r.id == id := by
  have hids : ((fun r : TableRow => r.id == id) ∘ fun r =>
      if r.id == row.id && r.version == v then updateRow r row else r) =
        fun r => r.id == id := by
    funext r
    exact congrArg (· == id) (updated_id row r v)
  rw [List.find?_map, hids]
  by_cases hrow : row.id = id
  · rw [if_pos hrow, ← hrow, ← hid, find?_of_mem h hr, Option.map_some, hid, hv,
      beq_self_eq_true, beq_self_eq_true, Bool.and_self, if_pos rfl]
  · rw [if_neg hrow]
    cases hf : t.rows.find? fun r => r.id == id with
    | none => rfl
    | some r' =>
        have hr' : r'.id = id :=
          beq_iff_eq.mp (List.find?_some (p := fun r : TableRow => r.id == id) hf)
        have hne : r'.id ≠ row.id := fun h => hrow (h.symm.trans hr')
        rw [Option.map_some, beq_eq_false_iff_ne.mpr hne, Bool.false_and,
          if_neg Bool.false_ne_true]

/-- What a creation that goes through leaves: one row more. -/
theorem create_ok (h : t.create e = .ok t') :
    ∃ row, TableRow.ofExecution e = .ok row ∧ (∀ r ∈ t.rows, r.id ≠ e.id) ∧
      t'.rows = t.rows ++ [row] := by
  unfold create at h
  obtain ⟨row, hrow, h⟩ := exceptBind_ok.mp h
  split at h
  · exact nomatch h
  · rename_i hnone
    refine ⟨row, hrow, fun r hr hid => hnone ?_, congrArg rows (Except.ok.inj h).symm⟩
    exact List.any_eq_true.mpr ⟨r, hr, beq_iff_eq.mpr hid⟩

/-- What stands under an id is the execution of the row with that id. -/
theorem get?_ok {id : String} (h : t.get? now id = .ok (some e)) :
    ∃ r, (t.rows.find? fun r => r.id == id) = some r ∧ r.toExecution now = .ok e := by
  unfold get? at h
  split at h
  · cases h
  · rename_i r hr
    obtain ⟨e', he', hs⟩ := exceptMap_ok.mp h
    exact ⟨r, hr, Option.some.inj hs ▸ he'⟩

/-- What is found is the execution of the row with the id that is looked up. -/
theorem find?_ok {id : Value} (h : t.find? now id = .ok (some e)) :
    ∃ text r, comparand id = .ok (some text) ∧
      (t.rows.find? fun r => r.id == text) = some r ∧ r.toExecution now = .ok e := by
  unfold find? at h
  obtain ⟨o, ho, h⟩ := exceptBind_ok.mp h
  cases o with
  | none => exact nomatch h
  | some text =>
      obtain ⟨r, hr, he⟩ := get?_ok h
      exact ⟨text, r, ho, hr, he⟩

end TableStore

/-! ## What holds of everything stored -/

/-- A property that an execution has again when it is read back from the row
    that it was written to, whichever creation time the row shows. -/
def Durable (P : Execution → Prop) : Prop :=
  ∀ e row created, TableRow.ofExecution e = .ok row → P e →
    ∀ now e', { row with createdText := created }.toExecution now = .ok e' → P e'

namespace Store

variable {P : Execution → Prop} {st st' : Store} {p e : Execution} {v : Int}
  {now : Timestamp}

/-- Is the execution stored?  A row shows one whenever it is read. -/
def Holds (e : Execution) : Store → Prop
  | .memory m => e ∈ m.executions
  | .table t  => ∃ r ∈ t.rows, ∃ now, r.toExecution now = .ok e

/-- Has everything stored the property? -/
def Every (P : Execution → Prop) (st : Store) : Prop := ∀ e, st.Holds e → P e

/-- Does the store keep what is put in as it is, or else the property outlast
    what becomes of it? -/
def Suits (P : Execution → Prop) : Store → Prop
  | .memory _ => True
  | .table _  => Durable P

/-- What a store commits is the offer, stamped. -/
theorem saved_eq (h : st.save now p v = .ok (e, st')) : e = p.committed v now := by
  cases st with
  | memory m =>
      obtain ⟨⟨e', m'⟩, hs, he⟩ := exceptMap_ok.mp h
      obtain ⟨_, _, _, hp, _⟩ := MemoryStore.save_ok.mp hs
      rw [← (Prod.mk.inj he).1]
      exact hp
  | table t =>
      obtain ⟨⟨e', t'⟩, hs, he⟩ := exceptMap_ok.mp h
      rw [← (Prod.mk.inj he).1]
      exact (TableStore.save_ok.mp hs).1

/-- In memory a save over the stored version goes through. -/
theorem save_memory {m : MemoryStore} {cur : Execution} (hcur : m.get? p.id = some cur)
    (hp : p.OwnsId) (now : Timestamp) : (Store.memory m).save now p cur.version =
      .ok (p.committed cur.version now, .memory (m.replace (p.committed cur.version now))) :=
  exceptMap_ok.mpr ⟨_, MemoryStore.save_ok.mpr
    ⟨cur, (m.find?_of_ownsId hp).trans (congrArg _ hcur), rfl, rfl, rfl⟩, rfl⟩

/-- What is found has the property. -/
theorem Every.of_find? {id : Value} (h : st.Every P) (hf : st.find? now id = .ok (some e)) :
    P e := by
  cases st with
  | memory m => exact h e (MemoryStore.mem_of_find? hf)
  | table t =>
      obtain ⟨_, r, _, hr, he⟩ := TableStore.find?_ok hf
      exact h e ⟨r, List.mem_of_find?_eq_some hr, now, he⟩

/-- A save keeps the property when what it commits has it. -/
theorem Every.save (h : st.Every P) (hs : st.Suits P) (hP : P e)
    (hsave : st.save now p v = .ok (e, st')) : st'.Every P ∧ st'.Suits P := by
  cases st with
  | memory m =>
      obtain ⟨⟨e', m'⟩, hm, he⟩ := exceptMap_ok.mp hsave
      obtain ⟨rfl, rfl⟩ := Prod.mk.inj he
      obtain ⟨cur, _, _, _, hm'⟩ := MemoryStore.save_ok.mp hm
      refine ⟨fun x hx => ?_, trivial⟩
      rw [hm'] at hx
      rcases MemoryStore.mem_replace hx with rfl | hx
      · exact hP
      · exact h x hx
  | table t =>
      obtain ⟨⟨e', t'⟩, ht, he⟩ := exceptMap_ok.mp hsave
      obtain ⟨rfl, rfl⟩ := Prod.mk.inj he
      obtain ⟨_, _, row, hrow, _, rfl⟩ := TableStore.save_ok.mp ht
      refine ⟨fun x hx => ?_, hs⟩
      obtain ⟨r', hr', now', hx⟩ := hx
      obtain ⟨r, hr, rfl⟩ := List.mem_map.mp hr'
      split at hx
      · exact hs e' row r.createdText hrow hP now' x hx
      · exact h x ⟨r, hr, now', hx⟩

/-- A creation keeps the property when what it stores has it. -/
theorem Every.create {e' : Execution} (h : st.Every P) (hs : st.Suits P) (hP : P e)
    (hc : st.create e = .ok (e', st')) : st'.Every P ∧ st'.Suits P := by
  cases st with
  | memory m =>
      obtain ⟨m', hm, he⟩ := exceptMap_ok.mp hc
      obtain ⟨rfl, rfl⟩ := Prod.mk.inj he
      unfold MemoryStore.create at hm
      split at hm
      · exact nomatch hm
      · refine ⟨fun x hx => ?_, trivial⟩
        rw [← Except.ok.inj hm] at hx
        rcases List.mem_append.mp hx with hx | hx
        · exact h x hx
        · exact List.mem_singleton.mp hx ▸ hP
  | table t =>
      obtain ⟨t', ht, he⟩ := exceptMap_ok.mp hc
      obtain ⟨rfl, rfl⟩ := Prod.mk.inj he
      obtain ⟨row, hrow, _, hrows⟩ := TableStore.create_ok ht
      refine ⟨fun x hx => ?_, hs⟩
      obtain ⟨r, hr, now', hx⟩ := hx
      rw [hrows] at hr
      rcases List.mem_append.mp hr with hr | hr
      · exact h x ⟨r, hr, now', hx⟩
      · rw [List.mem_singleton.mp hr] at hx
        exact hs e row row.createdText hrow hP now' x hx

end Store

end Workflow
