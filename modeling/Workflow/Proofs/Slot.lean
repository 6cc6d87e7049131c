import Workflow.Proofs.Row
import Workflow.Proofs.System

/-! # Slot — what a store holds under an id

    A store in memory holds an execution under an id, a table a row that may be read as
    one.  Whatever it is, it has a version, and a save puts something with the next
    version in its place, or nothing at all.

    So versions under an id only grow, whichever executions there are, whichever saves
    fail and whatever other writers do in between.  A snapshot that a client has read is
    therefore still shown, or has been overtaken by a later version, and then no save over
    its version goes through.  The heart is `Tracked.step`. -/

namespace Workflow

variable {e e' base p : Execution} {v : Int} {now : Timestamp} {id : String}

/-- What a store holds under an id: an execution as it is, or a row. -/
inductive Slot where
  | value (e : Execution)
  | row (r : TableRow)

namespace Slot

/-- The version of what is held. -/
def version : Slot → Int
  | value e => e.version
  | row r   => r.version

/-- The execution that a slot of a store in memory holds. -/
def value? : Slot → Option Execution
  | value e => some e
  | row _   => none

theorem value?_some {slot : Slot} (h : slot.value? = some e) : slot = .value e := by
  cases slot with
  | value e' => rw [Option.some.inj h]
  | row r => cases h

/-- Is the execution what a reader may be shown of the slot? -/
def Shows : Slot → Execution → Prop
  | value e, e' => e = e'
  | row r,   e' => ∃ now, r.toExecution now = .ok e'

/-- Is the execution what was last put into the slot?  A row has its texts, and whichever
    creation time. -/
inductive Holds (e : Execution) : Slot → Prop where
  | value : Holds e (.value e)
  | row {new : TableRow} (created : String) : TableRow.ofExecution e = .ok new →
      Holds e (.row { new with createdText := created })

/-- What stands in the place of what was held once an execution has been saved there: a
    row keeps the creation time that it was given first. -/
inductive Becomes (e : Execution) : Slot → Slot → Prop where
  | value (old : Execution) : Becomes e (.value old) (.value e)
  | row (old : TableRow) {new : TableRow} : TableRow.ofExecution e = .ok new →
      Becomes e (.row old) (.row (TableStore.updateRow old new))

variable {slot old new : Slot}

theorem Becomes.holds (h : Becomes e old new) : new.Holds e := by
  cases h with
  | value _ => exact .value
  | row old hrow => exact .row old.createdText hrow

/-- What a reader is shown has the version of the slot. -/
theorem Shows.version_eq (h : slot.Shows e) : e.version = slot.version := by
  cases slot with
  | value x =>
      rw [show x = e from h]
      rfl
  | row r =>
      obtain ⟨_, h⟩ := h
      exact (TableRow.toExecution_ok h).2.1

theorem Holds.version_eq (h : slot.Holds e) (he : e.OwnsId) : slot.version = e.version := by
  cases h with
  | value => rfl
  | row _ hrow => exact (TableRow.ofExecution_columns hrow he).2.1

/-- A reader is shown as many records as were put in. -/
theorem Holds.length_history (h : slot.Holds e) (hshows : slot.Shows e') :
    e'.history.length = e.history.length := by
  cases h with
  | value => rw [show e = e' from hshows]
  | row created hrow =>
      obtain ⟨now, hshows⟩ := hshows
      have hread := (TableRow.reread_of_row hrow hshows).history
      rw [← (Row.records_ok.mp hread).length_eq, List.length_map]

end Slot

/-! ## Rows under their ids -/

namespace TableRow

/-- Nothing stands in the place of the id of what is read of a row. -/
theorem ownsId_of_toExecution {r : TableRow} (h : r.toExecution now = .ok e) : e.OwnsId := by
  obtain ⟨row, _, h⟩ := exceptBind_ok.mp h
  unfold Row.toExecution at h
  split at h
  · exact nomatch h
  · obtain ⟨rs, _, h⟩ := exceptBind_ok.mp h
    rw [← Except.ok.inj h]
    rfl

end TableRow

/-! ## The slots of a store -/

namespace Store

variable {s s' : Store}

/-- What the store holds under an id. -/
def slot? : Store → String → Option Slot
  | .memory m, id => (m.get? id).map .value
  | .table t,  id => (t.rows.find? fun r => r.id == id).map .row

/-- Does the store hold at most one thing under each id, of which nothing else is known
    as the id? -/
def Keyed : Store → Prop
  | .memory m => ∀ e ∈ m.executions, e.OwnsId
  | .table t  => (t.rows.map (·.id)).Nodup

/-- Does the second store hold the execution where the first one showed the snapshot? -/
def Replaces (s s' : Store) (base e : Execution) : Prop :=
  ∃ old new, s.slot? base.id = some old ∧ old.Shows base ∧ s'.slot? base.id = some new ∧
    Slot.Becomes e old new

/-- Does every slot stay as it is, or come to a later version? -/
def Grows (s s' : Store) : Prop := ∀ id old, s.slot? id = some old →
  ∃ new, s'.slot? id = some new ∧ (new = old ∨ old.version < new.version)

theorem Grows.refl (s : Store) : s.Grows s := fun _ old h => ⟨old, h, .inl rfl⟩

theorem Grows.trans {s'' : Store} (h : s.Grows s') (h' : s'.Grows s'') : s.Grows s'' := by
  intro id old hold
  obtain ⟨mid, hmid, hgrow⟩ := h id old hold
  obtain ⟨new, hnew, hgrow'⟩ := h' id mid hmid
  refine ⟨new, hnew, ?_⟩
  rcases hgrow with rfl | hgrow
  · exact hgrow'
  · rcases hgrow' with rfl | hgrow'
    · exact .inr hgrow
    · exact .inr (Int.lt_trans hgrow hgrow')

/-- What is found is shown by the slot of its id. -/
theorem shows_of_find? {v : Value} (hs : s.Keyed) (h : s.find? now v = .ok (some e)) :
    e.OwnsId ∧ ∃ slot, s.slot? e.id = some slot ∧ slot.Shows e := by
  cases s with
  | memory m =>
      refine ⟨hs e (MemoryStore.mem_of_find? h), .value e, ?_, rfl⟩
      simp only [slot?, MemoryStore.get?_of_find? h, Option.map_some]
  | table t =>
      obtain ⟨text, r, _, hr, he⟩ := TableStore.find?_ok h
      have hid : r.id = text :=
        beq_iff_eq.mp (List.find?_some (p := fun r : TableRow => r.id == text) hr)
      refine ⟨TableRow.ownsId_of_toExecution he, .row r, ?_, now, he⟩
      rw [(TableRow.toExecution_ok he).1, hid]
      simp only [slot?, hr, Option.map_some]

/-- Where an execution was found under a value, it is found under its id as well. -/
theorem find?_own {v : Value} (h : s.find? now v = .ok (some e)) :
    s.find? now (.str e.id) = .ok (some e) := by
  cases s with
  | memory m =>
      exact (m.find?_str e.id).trans (congrArg _ (MemoryStore.get?_of_find? h))
  | table t =>
      obtain ⟨text, r, _, hr, he⟩ := TableStore.find?_ok h
      have hid : r.id = text :=
        beq_iff_eq.mp (List.find?_some (p := fun r : TableRow => r.id == text) hr)
      show t.get? now e.id = _
      unfold TableStore.get?
      rw [(TableRow.toExecution_ok he).1, hid, hr]
      exact exceptMap_ok.mpr ⟨e, he, rfl⟩

/-- A store answers a creation with what was created. -/
theorem created_eq (h : s.create e = .ok (e', s')) : e' = e := by
  cases s with
  | memory m =>
      obtain ⟨_, _, hs'⟩ := exceptMap_ok.mp h
      exact (Prod.mk.inj hs').1.symm
  | table t =>
      obtain ⟨_, _, hs'⟩ := exceptMap_ok.mp h
      exact (Prod.mk.inj hs').1.symm

/-- A creation fills the slot of an id under which nothing was held. -/
theorem slot?_create (hs : s.Keyed) (he : e.OwnsId) (h : s.create e = .ok (e', s')) :
    s'.Keyed ∧ s.slot? e.id = none ∧ ∃ new, new.Holds e ∧
      ∀ id, s'.slot? id = if e.id = id then some new else s.slot? id := by
  cases s with
  | memory m =>
      obtain ⟨m', hm, hs'⟩ := exceptMap_ok.mp h
      obtain ⟨rfl, rfl⟩ := Prod.mk.inj hs'
      unfold MemoryStore.create at hm
      split at hm
      · exact nomatch hm
      · rename_i hnone
        rw [Option.isSome_iff_ne_none, not_not] at hnone
        obtain rfl := Except.ok.inj hm
        refine ⟨fun x hx => ?_, ?_, .value e, .value, fun id => ?_⟩
        · rcases List.mem_append.mp hx with hx | hx
          · exact hs x hx
          · exact List.mem_singleton.mp hx ▸ he
        · simp only [slot?, hnone, Option.map_none]
        · simp only [slot?, MemoryStore.get?_append]
          by_cases hid : e.id = id
          · rw [if_pos hid, if_pos hid, ← hid, hnone]
            rfl
          · rw [if_neg hid, if_neg hid, Option.or_none]
  | table t =>
      obtain ⟨t', ht, hs'⟩ := exceptMap_ok.mp h
      obtain ⟨rfl, rfl⟩ := Prod.mk.inj hs'
      obtain ⟨row, hrow, hnew, hrows⟩ := TableStore.create_ok ht
      have hrowid := (TableRow.ofExecution_columns hrow he).1
      have hnone : (t.rows.find? fun r => r.id == e.id) = none :=
        List.find?_eq_none.mpr fun r hr hid => hnew r hr (beq_iff_eq.mp hid)
      refine ⟨?_, ?_, .row row, .row row.createdText hrow, fun id => ?_⟩
      · show (t'.rows.map (·.id)).Nodup
        rw [hrows, List.map_append, List.nodup_append]
        refine ⟨hs, List.nodup_singleton _, ?_⟩
        rintro _ hid _ hrow' rfl
        obtain ⟨r, hr, hid⟩ := List.mem_map.mp hid
        rw [List.map_singleton, List.mem_singleton, hrowid] at hrow'
        exact hnew r hr (hid.trans hrow')
      · simp only [slot?, hnone, Option.map_none]
      · simp only [slot?, hrows, List.find?_append, List.find?_singleton, hrowid]
        by_cases hid : e.id = id
        · rw [if_pos hid, ← hid, hnone]
          simp only [beq_self_eq_true, if_true, Option.none_or, Option.map_some]
        · rw [if_neg hid, if_neg (fun h => hid (beq_iff_eq.mp h)), Option.or_none]

/-- A save that goes through finds the expected version in the slot of the offer, puts
    the offer there, stamped, and leaves all other slots alone. -/
theorem slot?_save (hs : s.Keyed) (hp : p.OwnsId) (h : s.save now p v = .ok (e, s')) :
    s'.Keyed ∧ e = p.committed v now ∧ ∃ old new, s.slot? p.id = some old ∧
      old.version = v ∧ Slot.Becomes e old new ∧
      ∀ id, s'.slot? id = if p.id = id then some new else s.slot? id := by
  cases s with
  | memory m =>
      obtain ⟨⟨x, m'⟩, hm, hs'⟩ := exceptMap_ok.mp h
      obtain ⟨rfl, rfl⟩ := Prod.mk.inj hs'
      obtain ⟨cur, hcur, hv, rfl, rfl⟩ := MemoryStore.save_ok.mp hm
      rw [MemoryStore.find?_of_ownsId m hp] at hcur
      have hcur := Except.ok.inj hcur
      refine ⟨fun x hx => ?_, rfl, .value cur, .value (p.committed v now), ?_, hv, .value cur,
        fun id => ?_⟩
      · rcases MemoryStore.mem_replace hx with rfl | hx
        · exact hp.committed v now
        · exact hs x hx
      · simp only [slot?, hcur, Option.map_some]
      · have hget := MemoryStore.get?_replace m (p.committed v now) id
        rw [Execution.committed_id] at hget
        simp only [slot?, hget]
        by_cases hid : p.id = id
        · rw [if_pos hid, if_pos hid.symm, ← hid, hcur]
          rfl
        · rw [if_neg hid, if_neg fun h : id = p.id => hid h.symm]
  | table t =>
      obtain ⟨⟨x, t'⟩, ht, hs'⟩ := exceptMap_ok.mp h
      obtain ⟨rfl, rfl⟩ := Prod.mk.inj hs'
      obtain ⟨rfl, _, row, hrow, ⟨r, hr, hid, hv⟩, rfl⟩ := TableStore.save_ok.mp ht
      have hrowid : row.id = p.id :=
        (TableRow.ofExecution_columns hrow (hp.committed v now)).1
      have hfind : (t.rows.find? fun r' => r'.id == p.id) = some r := by
        rw [← hrowid, ← hid]
        exact TableStore.find?_of_mem hs hr
      refine ⟨?_, rfl, .row r, .row (TableStore.updateRow r row), ?_, hv, .row r hrow,
        fun id' => ?_⟩
      · refine cast (congrArg List.Nodup ?_) hs
        exact (TableStore.updated_ids t.rows row v).symm
      · simp only [slot?, hfind, Option.map_some]
      · have hupdated := TableStore.find?_updated hs hr hid hv id'
        simp only [slot?, hupdated]
        rw [hrowid]
        split
        · rfl
        · rfl

/-- So a save makes slots grow. -/
theorem grows_of_save (hs : s.Keyed) (hp : p.OwnsId) (h : s.save now p v = .ok (e, s')) :
    s.Grows s' := by
  obtain ⟨_, rfl, old, new, hold, hv, hbecomes, hslots⟩ := slot?_save hs hp h
  intro id slot hslot
  rw [hslots id]
  by_cases hid : p.id = id
  · rw [← hid, hold] at hslot
    obtain rfl := Option.some.inj hslot
    refine ⟨new, if_pos hid, .inr ?_⟩
    rw [hbecomes.holds.version_eq (hp.committed v now), Execution.committed_version, hv]
    omega
  · exact ⟨slot, (if_neg hid).trans hslot, .inl rfl⟩

theorem grows_of_create (hs : s.Keyed) (he : e.OwnsId) (h : s.create e = .ok (e', s')) :
    s.Grows s' := by
  obtain ⟨_, hnone, new, _, hslots⟩ := slot?_create hs he h
  intro id slot hslot
  refine ⟨slot, ?_, .inl rfl⟩
  rw [hslots id]
  by_cases hid : e.id = id
  · rw [← hid, hnone] at hslot
    exact nomatch hslot
  · rw [if_neg hid, hslot]

end Store

/-! ## Saves among other writers -/

/-- Do saves at worst fail, or meet another writer who leaves ids alone? -/
def Climate.Contests (c : Climate) : Prop := ∀ d, c.trouble d →
  d = .pass ∨ (∃ f, d = .fail f) ∨ ∃ change, d = .conflict change ∧
    ∀ now e e', change now e = .ok e' → e.OwnsId → e'.OwnsId

/-- Any save may fail, or meet another writer who leaves ids alone. -/
def Climate.contested : Climate := ⟨fun _ => True, fun d =>
  d = .pass ∨ (∃ f, d = .fail f) ∨ ∃ change, d = .conflict change ∧
    ∀ now e e', change now e = .ok e' → e.OwnsId → e'.OwnsId⟩

theorem Climate.contested_contests : Climate.contested.Contests := fun _ h => h

theorem Climate.Spares.contests {c : Climate} (h : c.Spares) : c.Contests := by
  intro d hd
  rcases h d hd with rfl | ⟨f, rfl⟩
  · exact .inl rfl
  · exact .inr (.inl ⟨f, rfl⟩)

namespace World

variable {c : Climate} {w w' : World}

/-- Another writer who leaves ids alone makes slots grow. -/
theorem grows_of_interfere {change : Timestamp → Execution → Except Failure Execution}
    (hw : w.store.Keyed) (hchange : ∀ now e e', change now e = .ok e' → e.OwnsId → e'.OwnsId)
    (h : w.interfere id change = .ok w') : w'.store.Keyed ∧ w.store.Grows w'.store := by
  obtain ⟨o, ho, h⟩ := exceptBind_ok.mp h
  cases o with
  | none => exact nomatch h
  | some current =>
      obtain ⟨changed, hchanged, h⟩ := exceptBind_ok.mp h
      obtain ⟨⟨_, store⟩, hsave, h⟩ := exceptBind_ok.mp h
      obtain rfl := Except.ok.inj h
      have hcurrent : current.OwnsId := by
        generalize hs : w.store = s at ho hw
        cases s with
        | memory m => exact hw current (MemoryStore.mem_of_get? (Except.ok.inj ho))
        | table t =>
            obtain ⟨r, _, he⟩ := TableStore.get?_ok ho
            exact TableRow.ownsId_of_toExecution he
      have howns := hchange w.now current changed hchanged hcurrent
      exact ⟨(Store.slot?_save hw howns hsave).1, Store.grows_of_save hw howns hsave⟩

/-- A save reaches the store, or fails and leaves it alone; before that other writers may
    have come. -/
theorem save_contested (hc : c.Contests) (hallows : c.Allows w) (hw : w.store.Keyed)
    (p : Execution) (v : Int) :
    ∃ w' : World, w'.now = w.now ∧ w'.store.Keyed ∧ w.store.Grows w'.store ∧
      (w.save p v = w'.commit p v ∨ ∃ f, w.save p v = (.error f, w')) := by
  unfold save
  cases hd : w.disturbances with
  | nil => exact ⟨w, rfl, hw, .refl _, .inl rfl⟩
  | cons d ds =>
      rcases hc d (hallows.2 d (hd ▸ List.mem_cons_self)) with
        rfl | ⟨f, rfl⟩ | ⟨change, rfl, hchange⟩
      · exact ⟨{ w with disturbances := ds }, rfl, hw, .refl _, .inl rfl⟩
      · exact ⟨{ w with disturbances := ds }, rfl, hw, .refl _, .inr ⟨f, rfl⟩⟩
      · cases hi : interfere { w with disturbances := ds } p.id change with
        | error f =>
            -- the save ends with the error of the other writer
            refine ⟨{ w with disturbances := ds }, rfl, hw, .refl _, .inr ⟨f, ?_⟩⟩
            simp only [hi]
        | ok w' =>
            obtain ⟨hkeyed, hgrows⟩ := grows_of_interfere (w := { w with disturbances := ds })
              hw hchange hi
            obtain ⟨store, rfl⟩ := interfere_eq hi
            refine ⟨{ w with disturbances := ds, store }, rfl, hkeyed, hgrows, .inl ?_⟩
            simp only [hi]

/-- Reaching the store, a save goes through or leaves everything alone. -/
theorem commit_slots (hw : w.store.Keyed) (hp : p.OwnsId) :
    (∃ f, w.commit p v = (.error f, w)) ∨
    ∃ s, w.commit p v = (.ok (p.committed v w.now), { w with store := s }) ∧
      s.Keyed ∧ w.store.Grows s ∧ ∃ old new, w.store.slot? p.id = some old ∧
        old.version = v ∧ Slot.Becomes (p.committed v w.now) old new ∧
        ∀ id, s.slot? id = if p.id = id then some new else w.store.slot? id := by
  unfold commit
  cases hs : w.store.save w.now p v with
  | error f => exact .inl ⟨f, rfl⟩
  | ok r =>
      obtain ⟨e, s⟩ := r
      obtain ⟨hkeyed, rfl, old, new, hold, hv, hbecomes, hslots⟩ := Store.slot?_save hw hp hs
      exact .inr ⟨s, rfl, hkeyed, Store.grows_of_save hw hp hs, old, new, hold, hv, hbecomes,
        hslots⟩

/-- Every answer leaves one thing under each id, and slots grow. -/
theorem grows_of_answer (hc : c.Contests) (hallows : c.Allows w) (hw : w.store.Keyed)
    {q : Request} (hq : q.OwnsId) :
    (w.answer q).2.store.Keyed ∧ w.store.Grows (w.answer q).2.store := by
  cases q with
  | insert e =>
      show (w.insert e).2.store.Keyed ∧ w.store.Grows (w.insert e).2.store
      unfold insert
      cases hs : w.store.create e with
      | error f => exact ⟨hw, .refl _⟩
      | ok r => exact ⟨(Store.slot?_create hw hq hs).1, Store.grows_of_create hw hq hs⟩
  | save p v =>
      show (w.save p v).2.store.Keyed ∧ w.store.Grows (w.save p v).2.store
      obtain ⟨w', _, hkeyed, hgrows, h | ⟨f, h⟩⟩ := save_contested hc hallows hw p v
      · rw [h]
        rcases commit_slots hkeyed hq (v := v) with ⟨f, h⟩ | ⟨s, h, hkeyed', hgrows', _⟩
        · rw [h]
          exact ⟨hkeyed, hgrows⟩
        · rw [h]
          exact ⟨hkeyed', hgrows.trans hgrows'⟩
      · rw [h]
        exact ⟨hkeyed, hgrows⟩
  | _ => exact ⟨hw, .refl _⟩

/-- A save over a version that nothing stored has overtaken finds what it replaces in the
    store, whichever writers come in between. -/
theorem slots_of_save (hc : c.Contests) (hallows : c.Allows w) (hw : w.store.Keyed)
    (hp : p.OwnsId) {slot : Slot} (hslot : w.store.slot? p.id = some slot)
    (hv : v ≤ slot.version) (h : (w.save p v).1 = .ok e) :
    e = p.committed v w.now ∧ slot.version = v ∧ ∃ new, Slot.Becomes e slot new ∧
      (w.save p v).2.store.slot? p.id = some new := by
  obtain ⟨w', hnow, hkeyed, hgrows, hsave | ⟨f, hsave⟩⟩ := save_contested hc hallows hw p v
  · rw [hsave] at h ⊢
    rcases commit_slots hkeyed hp (v := v) with ⟨f, hcommit⟩ | ⟨s, hcommit, _, _, hcommit'⟩
    · rw [hcommit] at h
      exact nomatch h
    · obtain ⟨old, new, hold, hversion, hbecomes, hslots⟩ := hcommit'
      rw [hcommit, hnow] at h
      obtain rfl := Except.ok.inj h
      -- Had another writer come to this id, the version would have gone past the expected one.
      obtain ⟨old', hold', hgrow⟩ := hgrows p.id slot hslot
      rw [hold] at hold'
      obtain rfl := Option.some.inj hold'
      obtain rfl : old = slot := by
        rcases hgrow with hgrow | hgrow
        · exact hgrow
        · omega
      refine ⟨rfl, hversion, new, hnow ▸ hbecomes, ?_⟩
      rw [hcommit]
      exact (hslots p.id).trans (if_pos rfl)
  · rw [hsave] at h
    exact nomatch h

end World

/-! ## Stores to themselves -/

/-- All that serving a request can do to the slots of a store, in a climate that spares
    what is stored. -/
inductive SlotStep (s : Store) (now : Timestamp) : (q : Request) → q.Answer → Store → Prop where
  | load (id : Value) (a : Except Failure (Option Execution)) : SlotStep s now (.load id) a s
  | inserted {s' : Store} (e : Execution) {new : Slot} : s.slot? e.id = none → new.Holds e →
      (∀ id, s'.slot? id = if e.id = id then some new else s.slot? id) →
      SlotStep s now (.insert e) (.ok e) s'
  | uninserted (e : Execution) (f : Failure) : SlotStep s now (.insert e) (.error f) s
  | saved {s' : Store} (p : Execution) (v : Int) {old new : Slot} :
      s.slot? p.id = some old → old.version = v → new.Holds (p.committed v now) →
      (∀ id, s'.slot? id = if p.id = id then some new else s.slot? id) →
      SlotStep s now (.save p v) (.ok (p.committed v now)) s'
  | unsaved (p : Execution) (v : Int) (f : Failure) : SlotStep s now (.save p v) (.error f) s
  | quiet (q : Request) (a : q.Answer) : q.IsQuiet → SlotStep s now q a s

/-- A step commits nothing and leaves the slots as they were, or it fills a slot that was
    empty, or it saves over what was in one. -/
@[elab_as_elim]
theorem SlotStep.by_effect {s : Store} {now : Timestamp}
    {motive : ∀ {q : Request} {a : q.Answer} {s' : Store}, SlotStep s now q a s' → Prop}
    (idle : ∀ {q : Request} {a : q.Answer} (h : SlotStep s now q a s),
      (∀ {ι : Type} (i : ι), (⟨i, q, a, now⟩ : Event ι).commit? = none) → motive h)
    (inserted : ∀ {s' : Store} (e : Execution) {new : Slot} (hnone : s.slot? e.id = none)
      (hholds : new.Holds e)
      (hslots : ∀ id, s'.slot? id = if e.id = id then some new else s.slot? id),
      motive (SlotStep.inserted e hnone hholds hslots))
    (saved : ∀ {s' : Store} (p : Execution) (v : Int) {old new : Slot}
      (hold : s.slot? p.id = some old) (hv : old.version = v)
      (hholds : new.Holds (p.committed v now))
      (hslots : ∀ id, s'.slot? id = if p.id = id then some new else s.slot? id),
      motive (SlotStep.saved p v hold hv hholds hslots))
    {q : Request} {a : q.Answer} {s' : Store} (h : SlotStep s now q a s') : motive h := by
  cases h with
  | load id a => exact idle _ fun _ => rfl
  | uninserted e f => exact idle _ fun _ => rfl
  | unsaved p v f => exact idle _ fun _ => rfl
  | quiet q a hquiet => exact idle _ fun i => Event.commit?_quiet hquiet i a now
  | inserted e hnone hholds hslots => exact inserted e hnone hholds hslots
  | saved p v hold hv hholds hslots => exact saved p v hold hv hholds hslots

theorem World.slotStep_answer {c : Climate} {w : World} (hc : c.Spares) (hallows : c.Allows w)
    (hw : w.store.Keyed) {q : Request} (hq : q.OwnsId) :
    SlotStep w.store w.now q (w.answer q).1 (w.answer q).2.store := by
  cases q with
  | load id => exact .load id _
  | insert e =>
      show SlotStep w.store w.now (.insert e) (w.insert e).1 (w.insert e).2.store
      unfold insert
      cases hs : w.store.create e with
      | error f => exact .uninserted e f
      | ok r =>
          obtain ⟨e', s⟩ := r
          obtain ⟨_, hnone, new, hholds, hslots⟩ := Store.slot?_create hw hq hs
          obtain rfl : e' = e := Store.created_eq hs
          exact .inserted e' hnone hholds hslots
  | save p v =>
      show SlotStep w.store w.now (.save p v) (w.save p v).1 (w.save p v).2.store
      obtain ⟨ds, h | ⟨f, _, h⟩⟩ := hc.save hallows p v
      · rw [h]
        rcases commit_slots (w := { w with disturbances := ds }) hw hq (v := v) with
          ⟨f, h⟩ | ⟨s, h, _, _, old, new, hold, hv, hbecomes, hslots⟩
        · rw [h]
          exact .unsaved p v f
        · rw [h]
          exact .saved p v hold hv hbecomes.holds hslots
      · rw [h]
        exact .unsaved p v f
  | _ => exact .quiet _ _ trivial

/-! ## What clients have read -/

variable {ι : Type} [DecidableEq ι] {c : Climate} {w : World} {es : List (Event ι)}

/-- Under each id stands one thing, and what a client has read is shown there still, or
    has been overtaken by a later version. -/
structure Tracked (w : World) (es : List (Event ι)) : Prop where
  keyed : w.store.Keyed
  reads : ∀ i base, (Trail.of es i).read = some base → base.OwnsId ∧
    ∃ slot, w.store.slot? base.id = some slot ∧ (slot.Shows base ∨ base.version < slot.version)

namespace Tracked

theorem start (hw : w.store.Keyed) : Tracked w ([] : List (Event ι)) :=
  ⟨hw, fun _ _ h => nomatch h⟩

omit [DecidableEq ι] in
/-- What an answer shows is shown by the slot of its id. -/
theorem shows_of_shown (hw : w.store.Keyed) {i : ι} {q : Request}
    (h : (⟨i, q, (w.answer q).1, w.now⟩ : Event ι).shown? = some base) :
    base.OwnsId ∧ ∃ slot, w.store.slot? base.id = some slot ∧ slot.Shows base := by
  cases q with
  | load id =>
      have hshown : (⟨i, .load id, w.store.find? w.now id, w.now⟩ : Event ι).shown? =
        some base := h
      cases hf : w.store.find? w.now id with
      | error f =>
          rw [hf] at hshown
          exact nomatch hshown
      | ok o =>
          rw [hf] at hshown
          obtain rfl : o = some base := hshown
          exact Store.shows_of_find? hw hf
  | _ => exact nomatch h

/-- What a client has read is shown while the slot has its version. -/
theorem shows_of_version (h : Tracked w es) {i : ι} {slot : Slot}
    (hread : (Trail.of es i).read = some base) (hslot : w.store.slot? base.id = some slot)
    (hversion : slot.version = base.version) : slot.Shows base := by
  obtain ⟨_, slot', hslot', hlink⟩ := h.reads i base hread
  obtain rfl : slot = slot' := Option.some.inj (hslot.symm.trans hslot')
  rcases hlink with hshows | hlink
  · exact hshows
  · omega

/-- Clients are kept track of by every request that is served. -/
theorem step (h : Tracked w es) (hc : c.Contests) (hallows : c.Allows w) {q : Request}
    (hq : q.OwnsId) (i : ι) :
    Tracked (w.answer q).2 (es ++ [⟨i, q, (w.answer q).1, w.now⟩]) := by
  obtain ⟨hkeyed, hgrows⟩ := World.grows_of_answer hc hallows h.keyed hq
  refine ⟨hkeyed, fun j base hread => ?_⟩
  have hold : base.OwnsId ∧ ∃ slot, w.store.slot? base.id = some slot ∧
      (slot.Shows base ∨ base.version < slot.version) := by
    rcases Trail.read_of_concat hread with hread | hshown
    · exact h.reads j base hread
    · obtain ⟨howns, slot, hslot, hshows⟩ := shows_of_shown h.keyed hshown
      exact ⟨howns, slot, hslot, .inl hshows⟩
  obtain ⟨howns, slot, hslot, hlink⟩ := hold
  obtain ⟨new, hnew, hgrow⟩ := hgrows base.id slot hslot
  refine ⟨howns, new, hnew, ?_⟩
  rcases hgrow with rfl | hgrow
  · exact hlink
  · rcases hlink with hshows | hlink
    · exact .inr (hshows.version_eq ▸ hgrow)
    · exact .inr (Int.lt_trans hlink hgrow)

/-- A save over the version of what a client has read replaces exactly that. -/
theorem replaces (h : Tracked w es) (hc : c.Contests) (hallows : c.Allows w) {i : ι}
    (hread : (Trail.of es i).read = some base) (hp : p.OwnsId) (hid : p.id = base.id)
    (hsave : (w.save p base.version).1 = .ok e) :
    e = p.committed base.version w.now ∧
      w.store.Replaces (w.save p base.version).2.store base e := by
  obtain ⟨_, slot, hslot, hlink⟩ := h.reads i base hread
  have hle : base.version ≤ slot.version := by
    rcases hlink with hshows | hlink
    · rw [hshows.version_eq]
    · omega
  obtain ⟨he, hversion, new, hbecomes, hnew⟩ :=
    World.slots_of_save hc hallows h.keyed hp (hid ▸ hslot) hle hsave
  exact ⟨he, slot, new, hslot, h.shows_of_version hread hslot hversion, hid ▸ hnew, hbecomes⟩

end Tracked

end Workflow
