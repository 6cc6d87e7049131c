import Workflow.Proofs.Mirror
import Workflow.Proofs.Reading

/-! # Room — what a store has room for

    A store in memory takes any context.  A table writes it into a row, so the context must
    have a JSON text and must not be nested too deeply.  A checkpoint stands three levels
    down in the context that it is stored in, so a table has room for one of a context
    that is nested less deeply by as much. -/

namespace Workflow

variable {c : Checkpoint} {d : Display} {kept : MemoryStore} {e p cur : Execution}
  {now : Timestamp} {v : Int} {store store' : Store}

/-! ## What can be written -/

namespace Value

variable {u : Value} {xs : List Value} {m : Mapping} {n k : Nat}

/-- Has the value a JSON text, and is it nested at most so deeply? -/
def Writable (n : Nat) (u : Value) : Prop := u.Encodes ∧ u.nestingDepth ≤ n

theorem Writable.mono (h : u.Writable n) (hn : n ≤ k) : u.Writable k :=
  ⟨h.1, Nat.le_trans h.2 hn⟩

theorem writable_str (s : String) (n : Nat) : (Value.str s).Writable n :=
  ⟨encodes_str s, Nat.zero_le n⟩

theorem writable_list : (list xs).Writable (n + 1) ↔ ∀ x ∈ xs, x.Writable n := by
  unfold Writable
  rw [encodes_list, nestingDepth_list_le]
  constructor
  · exact fun h x hx => ⟨h.1 x hx, h.2 x hx⟩
  · exact fun h => ⟨fun x hx => (h x hx).1, fun x hx => (h x hx).2⟩

theorem writable_dict (hkeys : ∀ e ∈ m, ∃ t, e.1 = .str t) :
    (dict m).Writable (n + 1) ↔ ∀ e ∈ m, e.2.Writable n := by
  unfold Writable
  rw [encodes_dict, nestingDepth_dict_le]
  constructor
  · rintro ⟨hencodes, hdepth⟩ e he
    exact ⟨(hencodes e he).2, hdepth e he⟩
  · intro h
    refine ⟨fun e he => ⟨?_, (h e he).1⟩, fun e he => (h e he).2⟩
    obtain ⟨t, ht⟩ := hkeys e he
    exact ⟨t, ht ▸ rfl⟩

theorem writable_record {fields : List (String × Value)} :
    (record fields).Writable (n + 1) ↔ ∀ f ∈ fields, f.2.Writable n := by
  have hkeys : ∀ e ∈ fields.map fun f => (Value.str f.1, f.2), ∃ t, e.1 = Value.str t := by
    intro e he
    obtain ⟨f, _, rfl⟩ := List.mem_map.mp he
    exact ⟨f.1, rfl⟩
  refine (writable_dict hkeys).trans ?_
  exact List.forall_mem_map

theorem Plain.writable_dict (h : (Value.dict m).Plain) :
    (Value.dict m).Writable (n + 1) ↔ ∀ e ∈ m, e.2.Writable n := by
  cases h with
  | dict hkeys _ _ => exact Value.writable_dict hkeys

/-- A plain map can be written with an entry more when it can be without it, and so can
    what is entered. -/
theorem Plain.writable_set (h : (Value.dict m).Plain) (hu : u.Plain) {key : String} :
    (Value.dict (m.set key u)).Writable (n + 1) ↔
      u.Writable n ∧ (Value.dict (m.erase key)).Writable (n + 1) := by
  rw [(Mapping.plain_set h hu key).writable_dict, (Mapping.plain_erase h key).writable_dict]
  exact Mapping.forall_set h

end Value

namespace Document

theorem writable_ofActor (a : Option EntityRef) : (ofActor a).Writable 1 := by
  cases a with
  | none => exact ⟨inherited_encodes.null, Nat.zero_le 1⟩
  | some r =>
      refine Value.writable_record.mpr fun f hf => ?_
      fin_cases hf
      · exact Value.writable_str _ 0
      · exact Value.writable_str _ 0

/-- A history has maps in maps at most, in a list. -/
theorem writable_ofHistory (rs : List TransitionRecord) : (ofHistory rs).Writable 3 := by
  refine Value.writable_list.mpr fun x hx => ?_
  obtain ⟨r, _, rfl⟩ := List.mem_map.mp hx
  refine Value.writable_record.mpr fun f hf => ?_
  fin_cases hf
  · exact Value.writable_str _ 1
  · exact Value.writable_str _ 1
  · exact Value.writable_str _ 1
  · exact writable_ofActor r.actor
  · exact Value.writable_str _ 1

end Document

/-- The document of a checkpoint can be written one level above that of its context. -/
theorem Checkpoint.writable_columns {u : Value} {n : Nat} (hn : 3 ≤ n) :
    (Value.record (c.columns u)).Writable (n + 1) ↔ u.Writable n := by
  refine Value.writable_record.trans ⟨fun h => h ("captured_context", u) (by simp [columns]), ?_⟩
  intro hu f hf
  unfold columns at hf
  fin_cases hf
  · exact Value.writable_str _ n
  · exact Value.writable_str _ n
  · exact Value.writable_str _ n
  · exact Value.writable_str _ n
  · exact hu
  · exact (Document.writable_ofHistory _).mono hn
  · exact Value.writable_str _ n
  · exact Value.writable_str _ n

/-- What a row shows has a context with a JSON text, for it was read of one. -/
theorem TableRow.Keeps.encodes {row : TableRow} (h : row.Keeps e) : e.context.Encodes := by
  obtain ⟨r, hr, he⟩ := exceptBind_ok.mp (h.shown .defaultNow)
  unfold toRow at hr
  split at hr
  · rename_i hread _ _ _
    unfold Row.toExecution at he
    split at he
    · exact nomatch he
    · obtain ⟨rs, _, he⟩ := exceptBind_ok.mp he
      rw [← Except.ok.inj he, ← Except.ok.inj hr]
      exact Json.encodes_of_read? hread
  · exact nomatch hr
  · exact nomatch hr

/-! ## Room in a store -/

namespace Store

/-- Is it a table of rows? -/
def isTable : Store → Bool
  | .memory _ => false
  | .table _  => true

/-- Can the store count a version up to so much? -/
def Counts (store : Store) (version : Int) : Prop :=
  store.isTable = true → TableRow.fits version = true

/-- Has the store room for such a context? -/
def HasRoom (store : Store) (entries : Mapping) : Prop :=
  store.isTable = true → (Value.dict entries).Writable Document.depthLimit

/-- How deeply a context may be nested of which a checkpoint can be stored. -/
def checkpointDepth (store : Store) : Nat :=
  if store.isTable then Document.depthLimit - 3 else Document.depthLimit

/-- Whatever context a table shows has a JSON text. -/
theorem Mirrors.encodes (h : store.Mirrors d kept) {id : String} (hcur : kept.get? id = some cur)
    (htable : store.isTable = true) : cur.context.Encodes := by
  cases h with
  | memory m => exact nomatch htable
  | table ht =>
      obtain ⟨_, _, _, _, hk⟩ := ht.row_of_get? hcur
      exact hk.encodes

/-- Over a stored snapshot another one of a plain context is saved just when there is room
    for it. -/
theorem Mirrors.save_iff (h : store.Mirrors d kept) (hcur : kept.get? p.id = some cur)
    (howns : p.OwnsId) (hname : p.workflowName = cur.workflowName) {step : String}
    (hstep : p.currentStep = .str step) {entries : Mapping} (he : p.context = .dict entries)
    (hplain : (Value.dict entries).Plain) (now : Timestamp) :
    (∃ st, store.save now p cur.version = .ok (p.committed cur.version now, st)) ↔
      store.HasRoom entries ∧ store.Counts (cur.version + 1) := by
  cases h with
  | memory m =>
      constructor
      · intro _
        constructor
        · exact fun htable => nomatch htable
        · exact fun htable => nomatch htable
      · exact fun _ => ⟨_, save_memory hcur howns now⟩
  | @table t m ht =>
      obtain ⟨r, hr, _, hid, hk⟩ := ht.row_of_get? hcur
      have hrow := TableRow.ofExecution_iff (e := p.committed cur.version now)
        (howns.committed cur.version now) (hname.trans hk.workflow) hstep he hplain
      constructor
      · rintro ⟨st, hs⟩
        obtain ⟨_, hs, _⟩ := exceptMap_ok.mp hs
        obtain ⟨hcommitted, _, row, hwritten, _⟩ := TableStore.save_ok.mp hs
        rw [hcommitted] at hwritten
        obtain ⟨hdepth, hencodes, hfits⟩ := hrow.mp ⟨row, hwritten⟩
        exact ⟨fun _ => ⟨hencodes, hdepth⟩, fun _ => hfits⟩
      · rintro ⟨hroom, hcounts⟩
        obtain ⟨hencodes, hdepth⟩ := hroom rfl
        obtain ⟨row, hwritten⟩ := hrow.mpr ⟨hdepth, hencodes, hcounts rfl⟩
        obtain ⟨hrowid, _⟩ := TableRow.ofExecution_columns hwritten
          (howns.committed cur.version now)
        have hfits : TableRow.fits cur.version = true := hk.version_eq ▸ hk.fits
        exact ⟨_, exceptMap_ok.mpr ⟨_, TableStore.save_ok.mpr ⟨rfl, hfits, row, hwritten,
          ⟨r, hr, hid.trans hrowid.symm, hk.version_eq.symm⟩, rfl⟩, rfl⟩⟩

end Store

end Workflow
