import Mathlib.Data.List.Forall2
import Mathlib.Tactic.FinCases
import Workflow.Proofs.Value
import Workflow.Value.Measure

/-! # Plain — what documents are made of

    Plain data is what every JSON text stands for: null, Booleans, integers, finite
    doubles, texts, lists, and maps with texts as keys, each key once.

    The heart is the pair `plain_of_ofValue` and `ofValue_plain`: every document is
    plain data, and a document takes plain data as it is, or refuses it, and all that
    it looks at then is how deeply the data is nested. -/

namespace Workflow

namespace Value

/-- Is the value plain data? -/
inductive Plain : Value → Prop where
  | null : Plain .null
  | bool (b : Bool) : Plain (.bool b)
  | int (i : Int) : Plain (.int i)
  | float {x : Binary64} : x.isFinite = true → Plain (.float x)
  | str (s : String) : Plain (.str s)
  | list {xs : List Value} : (∀ x ∈ xs, Plain x) → Plain (.list xs)
  | dict {es : Mapping} : (∀ e ∈ es, ∃ k, e.1 = .str k) → (es.map Prod.fst).Nodup →
      (∀ e ∈ es, Plain e.2) → Plain (.dict es)

/-- Plain data leads nowhere back. -/
theorem Plain.closed {v : Value} (h : v.Plain) : v.Closed := by
  induction h with
  | list _ ih => exact closed_list ih
  | dict _ _ _ ih => exact closed_dict ih
  | _ => exact closed_scalar _

theorem Plain.entries_closed {es : Mapping} (h : (Value.dict es).Plain) :
    ∀ e ∈ es, e.2.Closed := by
  cases h with
  | dict _ _ hvalues => exact fun e he => (hvalues e he).closed

theorem Plain.texts {es : Mapping} (h : (Value.dict es).Plain) : es.Texts := by
  cases h with
  | dict hkeys _ _ =>
      intro e he
      obtain ⟨k, hk⟩ := hkeys e he
      rw [hk]
      rfl

theorem Plain.fit {es : Mapping} (h : (Value.dict es).Plain) (hes : (Value.dict es).Encodes) :
    es.Fit := by
  cases h with
  | dict hkeys _ _ =>
      intro e he
      obtain ⟨k, hk⟩ := hkeys e he
      exact ⟨by rw [hk]; rfl, (encodes_dict.mp hes e he).2⟩

theorem Plain.field? {es : Mapping} (h : (Value.dict es).Plain) {k : String} {v : Value}
    (hv : es.field? k = some v) : v.Plain := by
  obtain ⟨e, he, rfl⟩ := Option.map_eq_some_iff.mp hv
  cases h with
  | dict _ _ hvalues => exact hvalues e (List.mem_of_find?_eq_some he)

/-- A record with distinct names holds plain data when its fields do. -/
theorem record_plain {fields : List (String × Value)} (hnames : (fields.map Prod.fst).Nodup)
    (h : ∀ f ∈ fields, f.2.Plain) : (Value.record fields).Plain := by
  refine .dict ?_ ?_ ?_
  · intro e he
    obtain ⟨f, _, rfl⟩ := List.mem_map.mp he
    exact ⟨f.1, rfl⟩
  · have hmap : (fields.map fun f => (Value.str f.1, f.2)).map Prod.fst =
        (fields.map Prod.fst).map Value.str := by simp
    rw [hmap]
    exact hnames.map fun s t h => by simpa using h
  · intro e he
    obtain ⟨f, hf, rfl⟩ := List.mem_map.mp he
    exact h f hf

/-- Is the value a text and nothing more? -/
def isString : Value → Bool
  | .scalar (.str _) => true
  | _                => false

mutual

/-- Is the value plain data, as a test? -/
def isPlain : Value → Bool
  | .scalar .null      => true
  | .scalar (.bool _)  => true
  | .scalar (.int _)   => true
  | .scalar (.float x) => x.isFinite
  | .scalar (.str _)   => true
  | .list xs           => areAllPlain xs
  | .dict es           =>
    (es.all fun e => e.1.isString) && decide ((es.map fun e => e.1.toText?).Nodup) &&
      holdPlain es
  | _                  => false

/-- Are all items plain data? -/
def areAllPlain : List Value → Bool
  | []      => true
  | x :: xs => isPlain x && areAllPlain xs

/-- Do all entries hold plain data? -/
def holdPlain : List (Value × Value) → Bool
  | []           => true
  | (_, v) :: es => isPlain v && holdPlain es

end

theorem isString_iff (v : Value) : v.isString = true ↔ ∃ k, v = .str k := by
  constructor
  · intro h
    unfold isString at h
    split at h
    · exact ⟨_, rfl⟩
    · exact nomatch h
  · rintro ⟨k, rfl⟩
    rfl

theorem areAllPlain_iff {xs : List Value} :
    areAllPlain xs = true ↔ ∀ x ∈ xs, x.isPlain = true := by
  induction xs with
  | nil => exact ⟨fun _ _ h => absurd h List.not_mem_nil, fun _ => rfl⟩
  | cons x xs ih => rw [areAllPlain, Bool.and_eq_true, ih, List.forall_mem_cons]

theorem holdPlain_iff {es : Mapping} :
    holdPlain es = true ↔ ∀ e ∈ es, e.2.isPlain = true := by
  induction es with
  | nil => exact ⟨fun _ _ h => absurd h List.not_mem_nil, fun _ => rfl⟩
  | cons e es ih => rw [holdPlain, Bool.and_eq_true, ih, List.forall_mem_cons]

/-- Keys that are texts are distinct when the texts are. -/
theorem nodup_texts_iff {es : Mapping} (h : ∀ e ∈ es, ∃ k, e.1 = .str k) :
    (es.map fun e => e.1.toText?).Nodup ↔ (es.map Prod.fst).Nodup := by
  have hmap : (es.map fun e => e.1.toText?) = (es.map Prod.fst).map toText? := by
    rw [List.map_map]
    rfl
  rw [hmap]
  refine ⟨List.Nodup.of_map _, List.Nodup.map_on fun x hx y hy hxy => ?_⟩
  obtain ⟨e, he, rfl⟩ := List.mem_map.mp hx
  obtain ⟨f, hf, rfl⟩ := List.mem_map.mp hy
  obtain ⟨k, hk⟩ := h e he
  obtain ⟨t, ht⟩ := h f hf
  rw [hk, ht] at hxy ⊢
  exact congrArg Value.str (Option.some.inj hxy)

/-- The test tells plain data. -/
theorem isPlain_iff (v : Value) : v.isPlain = true ↔ v.Plain := by
  induction v using Value.induction with
  | scalar s =>
      cases s with
      | null => exact ⟨fun _ => .null, fun _ => rfl⟩
      | bool b => exact ⟨fun _ => .bool b, fun _ => rfl⟩
      | int i => exact ⟨fun _ => .int i, fun _ => rfl⟩
      | float x => exact ⟨fun h => .float h, fun h => by cases h; assumption⟩
      | str s => exact ⟨fun _ => .str s, fun _ => rfl⟩
      | _ => exact ⟨(fun h => nomatch h), fun h => nomatch h⟩
  | list xs ih =>
      rw [isPlain, areAllPlain_iff]
      constructor
      · exact fun h => .list fun x hx => (ih x hx).mp (h x hx)
      · intro h
        cases h with
        | list h => exact fun x hx => (ih x hx).mpr (h x hx)
  | dict es ih =>
      rw [isPlain, Bool.and_eq_true, Bool.and_eq_true, List.all_eq_true, decide_eq_true_iff,
        holdPlain_iff]
      constructor
      · rintro ⟨⟨hkeys, hnodup⟩, hvalues⟩
        have hkeys := fun e he => (isString_iff _).mp (hkeys e he)
        exact .dict hkeys ((nodup_texts_iff hkeys).mp hnodup)
          fun e he => (ih e he).mp (hvalues e he)
      · intro h
        cases h with
        | dict hkeys hnodup hvalues =>
            exact ⟨⟨fun e he => (isString_iff _).mpr (hkeys e he),
              (nodup_texts_iff hkeys).mpr hnodup⟩, fun e he => (ih e he).mpr (hvalues e he)⟩
  | _ => exact ⟨(fun h => nomatch h), fun h => nomatch h⟩

instance (v : Value) : Decidable v.Plain := decidable_of_iff _ v.isPlain_iff

/-! ## Depth -/

theorem le_depthFrom (v : Value) (level : Nat) : level ≤ v.depthFrom level := by
  induction v using Value.induction generalizing level with
  | list xs ih =>
      cases xs with
      | nil => exact Nat.le_refl level
      | cons x xs =>
          refine Nat.le_trans ?_ (Nat.le_max_left _ _)
          exact Nat.le_trans (Nat.le_succ level) (ih x List.mem_cons_self (level + 1))
  | dict es ih =>
      cases es with
      | nil => exact Nat.le_refl level
      | cons e es =>
          refine Nat.le_trans ?_ (Nat.le_max_left _ _)
          exact Nat.le_trans (Nat.le_succ level) (ih e List.mem_cons_self (level + 1))
  | _ => exact Nat.le_refl level

theorem le_depthOfItems (xs : List Value) (level : Nat) : level ≤ depthOfItems level xs := by
  cases xs with
  | nil => exact Nat.le_refl level
  | cons x xs => exact Nat.le_trans (le_depthFrom x level) (Nat.le_max_left _ _)

theorem le_depthOfEntries (es : Mapping) (level : Nat) : level ≤ depthOfEntries level es := by
  cases es with
  | nil => exact Nat.le_refl level
  | cons e es => exact Nat.le_trans (le_depthFrom e.2 level) (Nat.le_max_left _ _)

/-- The items of a list are on its level or below when each of them is. -/
theorem depthOfItems_le {xs : List Value} {level n : Nat} (hn : level ≤ n) :
    depthOfItems level xs ≤ n ↔ ∀ x ∈ xs, x.depthFrom level ≤ n := by
  induction xs with
  | nil => exact ⟨fun _ _ h => absurd h List.not_mem_nil, fun _ => hn⟩
  | cons x xs ih => rw [depthOfItems, Nat.max_le, ih, List.forall_mem_cons]

theorem depthOfEntries_le {es : Mapping} {level n : Nat} (hn : level ≤ n) :
    depthOfEntries level es ≤ n ↔ ∀ e ∈ es, e.2.depthFrom level ≤ n := by
  induction es with
  | nil => exact ⟨fun _ _ h => absurd h List.not_mem_nil, fun _ => hn⟩
  | cons e es ih => rw [depthOfEntries, Nat.max_le, ih, List.forall_mem_cons]

theorem depthOfItems_succ (xs : List Value) {level : Nat}
    (h : ∀ x ∈ xs, x.depthFrom (level + 1) = x.depthFrom level + 1) :
    depthOfItems (level + 1) xs = depthOfItems level xs + 1 := by
  induction xs with
  | nil => rfl
  | cons x xs ih =>
      rw [depthOfItems, depthOfItems, h x List.mem_cons_self,
        ih fun y hy => h y (List.mem_cons_of_mem _ hy), Nat.add_max_add_right]

theorem depthOfEntries_succ (es : Mapping) {level : Nat}
    (h : ∀ e ∈ es, e.2.depthFrom (level + 1) = e.2.depthFrom level + 1) :
    depthOfEntries (level + 1) es = depthOfEntries level es + 1 := by
  induction es with
  | nil => rfl
  | cons e es ih =>
      rw [depthOfEntries, depthOfEntries, h e List.mem_cons_self,
        ih fun f hf => h f (List.mem_cons_of_mem _ hf), Nat.add_max_add_right]

/-- One level further down everything ends one level further down. -/
theorem depthFrom_succ (v : Value) (level : Nat) :
    v.depthFrom (level + 1) = v.depthFrom level + 1 := by
  induction v using Value.induction generalizing level with
  | list xs ih =>
      cases xs with
      | nil => rfl
      | cons x xs => exact depthOfItems_succ (x :: xs) fun y hy => ih y hy (level + 1)
  | dict es ih =>
      cases es with
      | nil => rfl
      | cons e es => exact depthOfEntries_succ (e :: es) fun f hf => ih f hf (level + 1)
  | _ => rfl

/-- A list is nested one level more deeply than its items. -/
theorem nestingDepth_list_le {xs : List Value} {n : Nat} :
    (list xs).nestingDepth ≤ n + 1 ↔ ∀ x ∈ xs, x.nestingDepth ≤ n := by
  cases xs with
  | nil => exact ⟨fun _ _ h => absurd h List.not_mem_nil, fun _ => Nat.zero_le _⟩
  | cons x xs =>
      show depthOfItems 1 (x :: xs) ≤ n + 1 ↔ _
      rw [depthOfItems_le (Nat.succ_le_succ (Nat.zero_le n))]
      refine forall₂_congr fun y _ => ?_
      rw [depthFrom_succ, Nat.succ_le_succ_iff]
      rfl

/-- So is a map than the values of its entries. -/
theorem nestingDepth_dict_le {es : Mapping} {n : Nat} :
    (dict es).nestingDepth ≤ n + 1 ↔ ∀ e ∈ es, e.2.nestingDepth ≤ n := by
  cases es with
  | nil => exact ⟨fun _ _ h => absurd h List.not_mem_nil, fun _ => Nat.zero_le _⟩
  | cons e es =>
      show depthOfEntries 1 (e :: es) ≤ n + 1 ↔ _
      rw [depthOfEntries_le (Nat.succ_le_succ (Nat.zero_le n))]
      refine forall₂_congr fun f _ => ?_
      rw [depthFrom_succ, Nat.succ_le_succ_iff]
      rfl

end Value

/-- Lists in lists. -/
def nestedList : Nat → Value
  | 0     => .list []
  | n + 1 => .list [nestedList n]

/-! ## Distinct keys -/

namespace Mapping

variable {m additions : Mapping} {key v : Value}

/-- A key that is not there yet goes to the end. -/
theorem insert_new (h : ∀ e ∈ m, key.equal e.1 = false) :
    m.insert key v = m ++ [(key, v)] := by
  induction m with
  | nil => rfl
  | cons e m ih =>
      rw [insert, h e List.mem_cons_self, if_neg Bool.false_ne_true,
        ih fun x hx => h x (List.mem_cons_of_mem _ hx)]
      rfl

/-- Entries with texts as keys, each of them once, are merged in one after the
    other. -/
theorem merge_distinct (hkeys : ∀ e ∈ m ++ additions, ∃ k, e.1 = .str k)
    (hnodup : ((m ++ additions).map Prod.fst).Nodup) : m.merge additions = m ++ additions := by
  induction additions generalizing m with
  | nil => rw [List.append_nil]; rfl
  | cons e additions ih =>
      obtain ⟨k, hk⟩ := hkeys e (List.mem_append_right _ List.mem_cons_self)
      have hnew : ∀ x ∈ m, e.1.equal x.1 = false := by
        intro x hx
        obtain ⟨t, ht⟩ := hkeys x (List.mem_append_left _ hx)
        rw [hk, ht, Value.str_equal_str]
        refine beq_eq_false_iff_ne.mpr fun htk => ?_
        rw [List.map_append, List.nodup_append] at hnodup
        refine hnodup.2.2 x.1 (List.mem_map_of_mem hx) e.1
          (List.mem_map_of_mem List.mem_cons_self) ?_
        rw [hk, ht, htk]
      have happend : m ++ e :: additions = (m ++ [e]) ++ additions := by
        rw [List.append_assoc]
        rfl
      show merge (m.insert e.1 e.2) additions = _
      rw [insert_new hnew, happend]
      rw [happend] at hkeys hnodup
      exact ih hkeys hnodup

theorem ofEntries_distinct (hkeys : ∀ e ∈ m, ∃ k, e.1 = .str k)
    (hnodup : (m.map Prod.fst).Nodup) : ofEntries m = m :=
  merge_distinct (m := []) hkeys hnodup

/-- An insertion under a text leaves keys that are texts, each of them once. -/
theorem insert_keys {k : String} (hkeys : ∀ e ∈ m, ∃ t, e.1 = .str t)
    (hnodup : (m.map Prod.fst).Nodup) : (∀ e ∈ m.insert (.str k) v, ∃ t, e.1 = .str t) ∧
      ((m.insert (.str k) v).map Prod.fst).Nodup := by
  by_cases hnew : ∀ e ∈ m, (Value.str k).equal e.1 = false
  · rw [insert_new hnew]
    refine ⟨fun e he => ?_, ?_⟩
    · rcases List.mem_append.mp he with he | he
      · exact hkeys e he
      · exact ⟨k, by rw [List.mem_singleton.mp he]⟩
    · rw [List.map_append, List.nodup_append]
      refine ⟨hnodup, List.nodup_singleton _, ?_⟩
      rintro x hx y hy rfl
      obtain ⟨e, he, rfl⟩ := List.mem_map.mp hx
      have hfirst : e.1 = .str k := by simpa using hy
      have hself := hnew e he
      rw [hfirst, Value.str_equal_str, beq_self_eq_true] at hself
      exact nomatch hself
  · -- A key that is there already stays where it is, and so do all others.
    have hsame : (m.insert (.str k) v).map Prod.fst = m.map Prod.fst := by
      induction m with
      | nil => exact absurd (fun e he => absurd he List.not_mem_nil) hnew
      | cons e m ih =>
          obtain ⟨key, w⟩ := e
          unfold insert
          by_cases h : (Value.str k).equal key = true
          · rw [if_pos h]
            rfl
          · rw [if_neg h, List.map_cons, List.map_cons,
              ih (fun x hx => hkeys x (List.mem_cons_of_mem _ hx)) (List.nodup_cons.mp hnodup).2]
            intro hall
            refine hnew fun x hx => ?_
            rcases List.mem_cons.mp hx with rfl | hx
            · exact Bool.eq_false_iff.mpr h
            · exact hall x hx
    refine ⟨fun e he => ?_, hsame ▸ hnodup⟩
    have hmem := List.mem_map_of_mem (f := Prod.fst) he
    rw [hsame] at hmem
    obtain ⟨x, hx, hxe⟩ := List.mem_map.mp hmem
    obtain ⟨t, ht⟩ := hkeys x hx
    exact ⟨t, hxe ▸ ht⟩

/-- So a map made of entries with texts as keys has each of its keys once. -/
theorem ofEntries_keys {es : List (Value × Value)} (h : ∀ e ∈ es, ∃ t, e.1 = .str t) :
    (∀ e ∈ ofEntries es, ∃ t, e.1 = .str t) ∧ ((ofEntries es).map Prod.fst).Nodup := by
  have hmerge (m : Mapping) (hkeys : ∀ e ∈ m, ∃ t, e.1 = .str t)
      (hnodup : (m.map Prod.fst).Nodup) :
      (∀ e ∈ m.merge es, ∃ t, e.1 = .str t) ∧ ((m.merge es).map Prod.fst).Nodup := by
    induction es generalizing m with
    | nil => exact ⟨hkeys, hnodup⟩
    | cons e es ih =>
        obtain ⟨k, hk⟩ := h e List.mem_cons_self
        have hinsert := insert_keys (k := k) (v := e.2) hkeys hnodup
        rw [← hk] at hinsert
        exact ih (fun x hx => h x (List.mem_cons_of_mem _ hx)) _ hinsert.1 hinsert.2
  exact hmerge [] (fun e he => absurd he List.not_mem_nil) List.nodup_nil

/-- What such a map holds is one of the entries. -/
theorem mem_ofEntries {es : List (Value × Value)} (h : ∀ e ∈ es, ∃ t, e.1 = .str t) :
    ∀ e ∈ ofEntries es, e ∈ es := by
  have hmerge (m : Mapping) (hkeys : ∀ e ∈ m, ∃ t, e.1 = .str t) :
      ∀ e ∈ m.merge es, e ∈ m ∨ e ∈ es := by
    induction es generalizing m with
    | nil => exact fun e he => .inl he
    | cons y es ih =>
        obtain ⟨k, hk⟩ := h y List.mem_cons_self
        have hinsert : ∀ e ∈ m.insert y.1 y.2, e ∈ m ∨ e = y := by
          intro e he
          rcases mem_insert he with he | ⟨hv, hkey | ⟨heq, w, hw⟩⟩
          · exact .inl he
          · exact .inr (Prod.ext hkey hv)
          · obtain ⟨t, ht⟩ := hkeys _ hw
            have ht : e.1 = .str t := ht
            rw [hk, ht, Value.str_equal_str, beq_iff_eq] at heq
            exact .inr (Prod.ext (by rw [hk, ht, heq]) hv)
        have hkeys' : ∀ x ∈ m.insert y.1 y.2, ∃ t, x.1 = .str t := by
          intro x hx
          rcases hinsert x hx with hx | rfl
          · exact hkeys x hx
          · exact ⟨k, hk⟩
        intro e he
        rcases ih (fun x hx => h x (List.mem_cons_of_mem _ hx)) _ hkeys' e he with he | he
        · rcases hinsert e he with he | rfl
          · exact .inl he
          · exact .inr List.mem_cons_self
        · exact .inr (List.mem_cons_of_mem _ he)
  intro e he
  rcases hmerge [] (fun e he => absurd he List.not_mem_nil) e he with he | he
  · exact absurd he List.not_mem_nil
  · exact he

/-- In plain data at most one value stands under a text. -/
theorem under_of_plain (h : (Value.dict m).Plain) (k : String) :
    m.under k = [] ∨ ∃ v, m.under k = [v] := by
  cases h with
  | dict hkeys hnodup _ =>
      induction m with
      | nil => exact .inl rfl
      | cons e m ih =>
          obtain ⟨hnew, hnodup⟩ := List.nodup_cons.mp hnodup
          have hrest := fun x hx => hkeys x (List.mem_cons_of_mem _ hx)
          obtain ⟨t, ht⟩ := hkeys e List.mem_cons_self
          have htext : e.1.toText? = some t := by
            rw [ht]
            rfl
          rw [under_cons, htext]
          by_cases htk : t = k
          · -- The key does not come again.
            have hnone : under m k = [] := by
              refine List.filterMap_eq_nil_iff.mpr fun x hx => if_neg fun hk => hnew ?_
              obtain ⟨t', ht'⟩ := hrest x hx
              rw [ht'] at hk
              have ht'k : t' = k := Option.some.inj hk
              rw [ht, htk, ← ht'k, ← ht']
              exact List.mem_map_of_mem hx
            rw [if_pos (congrArg some htk), hnone]
            exact .inr ⟨e.2, rfl⟩
          · rw [if_neg fun h => htk (Option.some.inj h)]
            exact ih hrest hnodup fun x hx => by
              rename_i hvalues
              exact hvalues x (List.mem_cons_of_mem _ hx)

/-- So only what was last put there stands there. -/
theorem under_set_of_plain (h : (Value.dict m).Plain) (k : String) (v : Value) :
    (m.set k v).under k = [v] := by
  rw [under_set, if_pos rfl]
  rcases under_of_plain h k with hk | ⟨w, hk⟩
  · rw [hk]
    rfl
  · rw [hk]
    rfl

/-- What stands under a text is dropped with it. -/
theorem erase_set (m : Mapping) (k : String) (v : Value) : (m.set k v).erase k = m.erase k := by
  have hself : (Value.str k).equal (.str k) = true := by
    rw [Value.str_equal_str]
    exact beq_self_eq_true k
  unfold erase remove set
  induction m with
  | nil => rw [insert, List.filter_cons, hself]; rfl
  | cons e m ih =>
      obtain ⟨key, w⟩ := e
      unfold insert
      by_cases h : (Value.str k).equal key = true
      · rw [if_pos h, List.filter_cons, List.filter_cons, h]
        rfl
      · rw [if_neg h, List.filter_cons, List.filter_cons, ih]

theorem erase_erase (m : Mapping) (k : String) : (m.erase k).erase k = m.erase k := by
  unfold erase remove
  rw [List.filter_filter]
  simp only [Bool.and_self]

/-- What is in a plain map after an insertion is what was inserted, and what the map
    holds under other texts. -/
theorem forall_set (h : (Value.dict m).Plain) {k : String} {v : Value} {P : Value → Prop} :
    (∀ e ∈ m.set k v, P e.2) ↔ P v ∧ ∀ e ∈ m.erase k, P e.2 := by
  have hunder := under_set_of_plain h k v
  constructor
  · intro hall
    have hv : v ∈ (m.set k v).under k := by
      rw [hunder]
      exact List.mem_singleton_self v
    obtain ⟨e, he, hev⟩ := List.mem_filterMap.mp hv
    refine ⟨?_, fun x hx => ?_⟩
    · split at hev
      · exact Option.some.inj hev ▸ hall e he
      · exact nomatch hev
    · rw [← erase_set m k v] at hx
      exact hall x (List.mem_filter.mp hx).1
  · rintro ⟨hv, hrest⟩ e he
    by_cases hk : e.1.toText? = some k
    · have hmem : e.2 ∈ (m.set k v).under k := List.mem_filterMap.mpr ⟨e, he, if_pos hk⟩
      rw [hunder] at hmem
      exact List.mem_singleton.mp hmem ▸ hv
    · refine hrest e ?_
      rw [← erase_set m k v]
      refine List.mem_filter.mpr ⟨he, ?_⟩
      rw [Value.str_equal, beq_eq_false_iff_ne.mpr hk]
      rfl

/-- Plain data under a text keeps a map plain. -/
theorem plain_set (h : (Value.dict m).Plain) {v : Value} (hv : v.Plain) (k : String) :
    (Value.dict (m.set k v)).Plain := by
  cases h with
  | dict hkeys hnodup hvalues =>
      obtain ⟨hkeys', hnodup'⟩ := insert_keys (k := k) (v := v) hkeys hnodup
      refine .dict hkeys' hnodup' fun e he => ?_
      rcases mem_insert he with he | ⟨hev, _⟩
      · exact hvalues e he
      · exact hev ▸ hv

/-- So does dropping an entry. -/
theorem plain_erase (h : (Value.dict m).Plain) (k : String) : (Value.dict (m.erase k)).Plain := by
  cases h with
  | dict hkeys hnodup hvalues =>
      refine .dict (fun e he => hkeys e (List.mem_filter.mp he).1) ?_
        fun e he => hvalues e (List.mem_filter.mp he).1
      exact hnodup.sublist (List.filter_sublist.map Prod.fst)

/-- A copy without the entry of a text is what is left, when that is plain. -/
theorem copyTop_erase {m : Mapping} {k : String} (h : (Value.dict (m.erase k)).Plain) :
    (m.copyTop fun key => !(Value.str k).equal key) = m.erase k := by
  refine copyTop_of_closed fun e he hkeep => ?_
  cases h with
  | dict _ _ hvalues => exact (hvalues e (List.mem_filter.mpr ⟨he, hkeep⟩)).closed

end Mapping

/-! ## Documents -/

theorem exists_of_forall₂ {α β : Type} {R : α → β → Prop} {xs : List α} {ys : List β}
    (h : List.Forall₂ R xs ys) : ∀ y ∈ ys, ∃ x ∈ xs, R x y := by
  induction h with
  | nil => exact fun _ hy => absurd hy List.not_mem_nil
  | cons hxy _ ih =>
      intro y hy
      rcases List.mem_cons.mp hy with rfl | hy
      · exact ⟨_, List.mem_cons_self, hxy⟩
      · obtain ⟨x, hx, hxy⟩ := ih y hy
        exact ⟨x, List.mem_cons_of_mem _ hx, hxy⟩

/-- Is the property one that texts have, and lists and records of what has it? -/
structure Inherited (P : Value → Prop) : Prop where
  null   : P .null
  str    : ∀ s, P (.str s)
  list   : ∀ {xs : List Value}, (∀ x ∈ xs, P x) → P (.list xs)
  record : ∀ {fields : List (String × Value)}, (fields.map Prod.fst).Nodup →
    (∀ f ∈ fields, P f.2) → P (.record fields)

theorem inherited_plain : Inherited Value.Plain :=
  ⟨.null, .str, fun h => .list h, Value.record_plain⟩

theorem inherited_encodes : Inherited Value.Encodes := by
  refine ⟨⟨_, rfl⟩, Value.encodes_str, Value.encodes_list.mpr, fun _ h => ?_⟩
  refine Value.encodes_dict.mpr fun e he => ?_
  obtain ⟨f, hf, rfl⟩ := List.mem_map.mp he
  exact ⟨⟨_, rfl⟩, h f hf⟩

namespace Document

variable {P : Value → Prop}

theorem ofRef_inherits (h : Inherited P) (r : EntityRef) : P (ofRef r) := by
  refine h.record (by simp) fun f hf => ?_
  fin_cases hf <;> exact h.str _

theorem ofActor_inherits (h : Inherited P) (a : Option EntityRef) : P (ofActor a) := by
  cases a with
  | none => exact h.null
  | some r => exact ofRef_inherits h r

theorem ofRecord_inherits (h : Inherited P) (r : TransitionRecord) : P (ofRecord r) := by
  refine h.record (by simp) fun f hf => ?_
  fin_cases hf
  · exact h.str _
  · exact h.str _
  · exact h.str _
  · exact ofActor_inherits h r.actor
  · exact h.str _

theorem ofHistory_inherits (h : Inherited P) (rs : List TransitionRecord) :
    P (ofHistory rs) := by
  refine h.list fun d hd => ?_
  obtain ⟨r, _, rfl⟩ := List.mem_map.mp hd
  exact ofRecord_inherits h r

/-- Items become items one by one. -/
theorem forall₂_of_ofItems {level : Nat} {xs ds : List Value} (h : ofItems level xs = .ok ds) :
    List.Forall₂ (fun x d => ofValue level x = .ok d) xs ds := by
  induction xs generalizing ds with
  | nil =>
      rw [← Except.ok.inj h]
      exact .nil
  | cons x xs ih =>
      obtain ⟨d, hd, h⟩ := exceptBind_ok.mp h
      obtain ⟨ds', hds, h⟩ := exceptBind_ok.mp h
      rw [← Except.ok.inj h]
      exact .cons hd (ih hds)

theorem mem_ofItems {level : Nat} {xs ds : List Value} (h : ofItems level xs = .ok ds) :
    ∀ d ∈ ds, ∃ x ∈ xs, ofValue level x = .ok d := exists_of_forall₂ (forall₂_of_ofItems h)

/-- So do entries. -/
theorem forall₂_of_ofEntries {level : Nat} {es fs : List (Value × Value)}
    (h : ofEntries level es = .ok fs) :
    List.Forall₂ (fun e f => (∃ k, keyText e.1 = .ok k ∧ f.1 = .str k) ∧
      ofValue level e.2 = .ok f.2) es fs := by
  induction es generalizing fs with
  | nil =>
      rw [← Except.ok.inj h]
      exact .nil
  | cons e es ih =>
      obtain ⟨k, hk, h⟩ := exceptBind_ok.mp h
      obtain ⟨d, hd, h⟩ := exceptBind_ok.mp h
      obtain ⟨fs', hfs, h⟩ := exceptBind_ok.mp h
      rw [← Except.ok.inj h]
      exact .cons ⟨⟨k, hk, rfl⟩, hd⟩ (ih hfs)

theorem mem_ofEntries {level : Nat} {es fs : List (Value × Value)}
    (h : ofEntries level es = .ok fs) :
    ∀ f ∈ fs, (∃ k, f.1 = .str k) ∧ ∃ e ∈ es, ofValue level e.2 = .ok f.2 := by
  intro f hf
  obtain ⟨e, he, ⟨k, _, hkey⟩, hd⟩ := exists_of_forall₂ (forall₂_of_ofEntries h) f hf
  exact ⟨⟨k, hkey⟩, e, he, hd⟩

theorem records_closed (rs : List TransitionRecord) : ∀ d ∈ rs.map ofRecord, d.Closed := by
  intro d hd
  obtain ⟨r, _, rfl⟩ := List.mem_map.mp hd
  exact (ofRecord_inherits inherited_plain r).closed

theorem plain_of_ofScalar {s : Scalar} {d : Value} (h : ofScalar s = .ok d) : d.Plain := by
  cases s with
  | null => rw [← Except.ok.inj h]; exact .null
  | bool b => rw [← Except.ok.inj h]; exact .bool b
  | int i => rw [← Except.ok.inj h]; exact .int i
  | float x =>
      rw [← Except.ok.inj h]
      by_cases hx : x.isFinite = true
      · rw [if_pos hx]; exact .float hx
      · rw [if_neg hx]; exact .null
  | str s => rw [← Except.ok.inj h]; exact .str s
  | bytes b =>
      obtain ⟨s, _, rfl⟩ := exceptMap_ok.mp h
      exact .str s
  | time t => rw [← Except.ok.inj h]; exact .str _
  | status s => rw [← Except.ok.inj h]; exact .str _
  | ref r => rw [← Except.ok.inj h]; exact ofRef_inherits inherited_plain r

/-- Induction over values and their documents: what holds of the parts of a document
    and the parts that they are of holds of the document. -/
theorem ofValue_induction {motive : Value → Value → Prop}
    (scalar : ∀ {s d}, ofScalar s = .ok d → motive (.scalar s) d)
    (list : ∀ {xs ds}, (∀ d ∈ ds, ∃ x ∈ xs, motive x d) → motive (.list xs) (.list ds))
    (tuple : ∀ {xs ds}, (∀ d ∈ ds, ∃ x ∈ xs, motive x d) → motive (.tuple xs) (.list ds))
    (set : ∀ {xs ds}, (∀ d ∈ ds, ∃ x ∈ xs, motive x d) → motive (.set xs) (.list ds))
    (dict : ∀ {es fs}, (∀ f ∈ fs, (∃ k, f.1 = .str k) ∧ ∃ e ∈ es, motive e.2 f.2) →
      motive (.dict es) (.dict (Mapping.ofEntries fs)))
    {level : Nat} {v d : Value} (h : ofValue level v = .ok d) : motive v d := by
  have hitems {level : Nat} {xs ds : List Value} (h : ofItems level xs = .ok ds)
      (ih : ∀ x ∈ xs, ∀ {level d}, ofValue level x = .ok d → motive x d) :
      ∀ d ∈ ds, ∃ x ∈ xs, motive x d := by
    intro d hd
    obtain ⟨x, hx, hxd⟩ := mem_ofItems h d hd
    exact ⟨x, hx, ih x hx hxd⟩
  induction v using Value.induction generalizing level d with
  | scalar s =>
      obtain ⟨_, _, h⟩ := exceptBind_ok.mp h
      exact scalar h
  | thing c id =>
      obtain ⟨_, _, h⟩ := exceptBind_ok.mp h
      exact nomatch h
  | list xs ih =>
      obtain ⟨_, _, h⟩ := exceptBind_ok.mp h
      obtain ⟨ds, hds, h⟩ := exceptBind_ok.mp h
      rw [← Except.ok.inj h]
      exact list (hitems hds fun x hx _ _ hxd => ih x hx hxd)
  | tuple xs ih =>
      obtain ⟨_, _, h⟩ := exceptBind_ok.mp h
      obtain ⟨ds, hds, h⟩ := exceptBind_ok.mp h
      rw [← Except.ok.inj h]
      exact tuple (hitems hds fun x hx _ _ hxd => ih x hx hxd)
  | set xs ih =>
      obtain ⟨_, _, h⟩ := exceptBind_ok.mp h
      obtain ⟨ds, hds, h⟩ := exceptBind_ok.mp h
      rw [← Except.ok.inj h]
      exact set (hitems hds fun x hx _ _ hxd => ih x hx hxd)
  | dict es ih =>
      obtain ⟨_, _, h⟩ := exceptBind_ok.mp h
      obtain ⟨fs, hfs, h⟩ := exceptBind_ok.mp h
      rw [← Except.ok.inj h]
      refine dict fun f hf => ?_
      obtain ⟨hkey, e, he, hef⟩ := mem_ofEntries hfs f hf
      exact ⟨hkey, e, he, ih e he hef⟩
  | up n => exact nomatch h

/-- Entries of plain data with texts as keys make a map of plain data. -/
theorem plain_ofEntries {fs : List (Value × Value)}
    (h : ∀ f ∈ fs, (∃ k, f.1 = .str k) ∧ f.2.Plain) :
    (Value.dict (Mapping.ofEntries fs)).Plain := by
  obtain ⟨hkeys, hnodup⟩ := Mapping.ofEntries_keys fun f hf => (h f hf).1
  exact .dict hkeys hnodup fun e he =>
    (h e (Mapping.mem_ofEntries (fun f hf => (h f hf).1) e he)).2

/-- Every document is plain data. -/
theorem plain_of_ofValue {level : Nat} {v d : Value} (h : ofValue level v = .ok d) :
    d.Plain := by
  have hitems {ds xs : List Value} (h : ∀ d ∈ ds, ∃ x ∈ xs, d.Plain) :
      (Value.list ds).Plain := by
    refine .list fun d hd => ?_
    obtain ⟨_, _, hplain⟩ := h d hd
    exact hplain
  refine ofValue_induction (motive := fun _ d => d.Plain) plain_of_ofScalar hitems hitems hitems
    (fun h => plain_ofEntries fun f hf => ?_) h
  obtain ⟨hkey, _, _, hplain⟩ := h f hf
  exact ⟨hkey, hplain⟩

theorem plain_of_ofMapping {m fs : Mapping} (h : ofMapping m = .ok fs) :
    (Value.dict fs).Plain := by
  obtain ⟨es, hes, h⟩ := exceptBind_ok.mp h
  rw [← Except.ok.inj h]
  refine plain_ofEntries fun f hf => ?_
  obtain ⟨hkey, _, _, hd⟩ := mem_ofEntries hes f hf
  exact ⟨hkey, plain_of_ofValue hd⟩

theorem encodes_of_ofScalar {s : Scalar} {d : Value} (hs : (Value.scalar s).Encodes)
    (h : ofScalar s = .ok d) : d.Encodes := by
  cases s with
  | null => rw [← Except.ok.inj h]; exact hs
  | bool b => rw [← Except.ok.inj h]; exact hs
  | int i => rw [← Except.ok.inj h]; exact hs
  | float x =>
      rw [← Except.ok.inj h]
      by_cases hx : x.isFinite = true
      · rw [if_pos hx]; exact hs
      · rw [if_neg hx]; exact inherited_encodes.null
  | str s => rw [← Except.ok.inj h]; exact hs
  | bytes b =>
      obtain ⟨s, _, rfl⟩ := exceptMap_ok.mp h
      exact Value.encodes_str s
  | time t => rw [← Except.ok.inj h]; exact Value.encodes_str _
  | status s => rw [← Except.ok.inj h]; exact Value.encodes_str _
  | ref r => rw [← Except.ok.inj h]; exact ofRef_inherits inherited_encodes r

theorem fit_ofEntries {fs : List (Value × Value)}
    (h : ∀ f ∈ fs, (∃ k, f.1 = .str k) ∧ f.2.Encodes) : (Mapping.ofEntries fs).Fit := by
  refine Mapping.Fit.ofEntries fun f hf => ?_
  obtain ⟨⟨k, hk⟩, hencodes⟩ := h f hf
  exact ⟨by rw [hk]; rfl, hencodes⟩

/-- The document of what has a JSON text has one too. -/
theorem encodes_of_ofValue {level : Nat} {v d : Value} (hv : v.Encodes)
    (h : ofValue level v = .ok d) : d.Encodes := by
  have hitems {ds xs : List Value} (hxs : ∀ x ∈ xs, x.Encodes)
      (h : ∀ d ∈ ds, ∃ x ∈ xs, x.Encodes → d.Encodes) : (Value.list ds).Encodes := by
    refine Value.encodes_list.mpr fun d hd => ?_
    obtain ⟨x, hx, hxd⟩ := h d hd
    exact hxd (hxs x hx)
  refine ofValue_induction (motive := fun v d => v.Encodes → d.Encodes)
    (fun h hs => encodes_of_ofScalar hs h)
    (fun h hxs => hitems (Value.encodes_list.mp hxs) h)
    (fun h hxs => hitems (Value.encodes_tuple.mp hxs) h) (fun _ hxs => ?_)
    (fun h hes => ?_) h hv
  · obtain ⟨cs, hcs⟩ := hxs
    exact nomatch hcs
  · refine (fit_ofEntries fun f hf => ?_).encodes
    obtain ⟨hkey, e, he, hef⟩ := h f hf
    exact ⟨hkey, hef (Value.encodes_dict.mp hes e he).2⟩

/-- So fit context data, turned into a document, stays fit. -/
theorem fit_of_ofMapping {m fs : Mapping} (hm : m.Fit) (h : ofMapping m = .ok fs) :
    fs.Fit := by
  obtain ⟨es, hes, h⟩ := exceptBind_ok.mp h
  rw [← Except.ok.inj h]
  refine fit_ofEntries fun f hf => ?_
  obtain ⟨hkey, e, he, hd⟩ := mem_ofEntries hes f hf
  exact ⟨hkey, encodes_of_ofValue (hm e he).2 hd⟩

/-! ## Documents of plain data -/

theorem checkLevel_ok {level : Nat} {u : Unit} :
    checkLevel level = .ok u ↔ level ≤ depthLimit := by
  unfold checkLevel
  split
  · rename_i h
    exact ⟨fun _ => h, fun _ => rfl⟩
  · rename_i h
    exact ⟨(fun hlevel => nomatch hlevel), fun hle => absurd hle h⟩

/-- A context has the document that it has as a value. -/
theorem ofMapping_ok {m fs : Mapping} :
    ofMapping m = .ok fs ↔ ofValue 0 (.dict m) = .ok (.dict fs) := by
  constructor
  · intro h
    obtain ⟨es, hes, h⟩ := exceptBind_ok.mp h
    refine exceptBind_ok.mpr ⟨(), checkLevel_ok.mpr (Nat.zero_le _), ?_⟩
    exact exceptBind_ok.mpr ⟨es, hes, congrArg (fun fs => Except.ok (Value.dict fs))
      (Except.ok.inj h)⟩
  · intro h
    obtain ⟨_, _, h⟩ := exceptBind_ok.mp h
    obtain ⟨es, hes, h⟩ := exceptBind_ok.mp h
    exact exceptBind_ok.mpr ⟨es, hes, congrArg Except.ok (Value.dict.inj (Except.ok.inj h))⟩

/-- Two levels are both allowed when the deeper one is. -/
theorem checkLevel_max {α β γ : Type} (a b : Nat) (x : α) (y : β) (f : α → β → γ) :
    ((checkLevel a).map fun _ => x) >>= (fun x => ((checkLevel b).map fun _ => y) >>=
      fun y => pure (f x y)) = (checkLevel (max a b)).map fun _ => f x y := by
  unfold checkLevel
  by_cases ha : a ≤ depthLimit
  · by_cases hb : b ≤ depthLimit
    · rw [if_pos ha, if_pos hb, if_pos (Nat.max_le.mpr ⟨ha, hb⟩)]
      rfl
    · rw [if_pos ha, if_neg hb, if_neg fun h => hb (Nat.max_le.mp h).2]
      rfl
  · rw [if_neg ha, if_neg fun h => ha (Nat.max_le.mp h).1]
    rfl

/-- So of a container, only what it holds is looked at. -/
theorem checkLevel_outer {β γ : Type} {a b : Nat} (h : a ≤ b) (y : β) (f : β → γ) :
    (checkLevel a >>= fun _ => ((checkLevel b).map fun _ => y) >>= fun y => pure (f y)) =
      (checkLevel b).map fun _ => f y := by
  have hmax := checkLevel_max a b () y fun _ y => f y
  rw [Nat.max_eq_right h] at hmax
  rw [← hmax]
  cases checkLevel a with
  | ok u => rfl
  | error f => rfl

theorem ofItems_plain {level : Nat} {xs : List Value} (hne : xs ≠ [])
    (h : ∀ x ∈ xs, ofValue level x = (checkLevel (x.depthFrom level)).map fun _ => x) :
    ofItems level xs = (checkLevel (Value.depthOfItems level xs)).map fun _ => xs := by
  induction xs with
  | nil => exact absurd rfl hne
  | cons x xs ih =>
      rw [ofItems, h x List.mem_cons_self]
      cases xs with
      | nil =>
          rw [Value.depthOfItems, Value.depthOfItems, Nat.max_eq_left (Value.le_depthFrom x level),
            ofItems]
          cases checkLevel (x.depthFrom level) with
          | ok u => rfl
          | error f => rfl
      | cons y ys =>
          rw [ih (List.cons_ne_nil y ys) fun z hz => h z (List.mem_cons_of_mem _ hz)]
          exact checkLevel_max _ _ x (y :: ys) List.cons

theorem ofEntries_plain {level : Nat} {es : Mapping} (hne : es ≠ [])
    (hkeys : ∀ e ∈ es, ∃ k, e.1 = .str k)
    (h : ∀ e ∈ es, ofValue level e.2 = (checkLevel (e.2.depthFrom level)).map fun _ => e.2) :
    ofEntries level es = (checkLevel (Value.depthOfEntries level es)).map fun _ => es := by
  induction es with
  | nil => exact absurd rfl hne
  | cons e es ih =>
      obtain ⟨key, v⟩ := e
      obtain ⟨k, rfl⟩ : ∃ k, key = .str k := hkeys (key, v) List.mem_cons_self
      rw [ofEntries, h (.str k, v) List.mem_cons_self]
      have hkey : keyText (.str k) = .ok k := rfl
      cases es with
      | nil =>
          rw [Value.depthOfEntries, Value.depthOfEntries,
            Nat.max_eq_left (Value.le_depthFrom v level), ofEntries, hkey]
          cases checkLevel (v.depthFrom level) with
          | ok u => rfl
          | error f => rfl
      | cons f fs =>
          rw [ih (List.cons_ne_nil f fs) (fun x hx => hkeys x (List.mem_cons_of_mem _ hx))
            fun x hx => h x (List.mem_cons_of_mem _ hx), hkey]
          exact checkLevel_max _ _ v (f :: fs) fun d ds => (.str k, d) :: ds

theorem ofScalar_plain {s : Scalar} (hnested : isNested s = false)
    (hs : ofScalar s = .ok (.scalar s)) (level : Nat) :
    ofValue level (.scalar s) =
      (checkLevel ((Value.scalar s).depthFrom level)).map fun _ => .scalar s := by
  rw [ofValue, hnested, if_neg Bool.false_ne_true, hs,
    show (Value.scalar s).depthFrom level = level from rfl]
  cases checkLevel level with
  | ok u => rfl
  | error f => rfl

/-- A document holds plain data as it is, unless it is nested too deeply. -/
theorem ofValue_plain {v : Value} (h : v.Plain) (level : Nat) :
    ofValue level v = (checkLevel (v.depthFrom level)).map fun _ => v := by
  induction h generalizing level with
  | null => exact ofScalar_plain rfl rfl level
  | bool b => exact ofScalar_plain rfl rfl level
  | int i => exact ofScalar_plain rfl rfl level
  | float hx => exact ofScalar_plain rfl (by rw [ofScalar, if_pos hx]) level
  | str s => exact ofScalar_plain rfl rfl level
  | @list xs _ ih =>
      cases xs with
      | nil =>
          rw [ofValue, ofItems, Value.depthFrom]
          cases checkLevel level with
          | ok u => rfl
          | error f => rfl
      | cons x xs =>
          rw [ofValue, ofItems_plain (List.cons_ne_nil x xs) fun y hy => ih y hy (level + 1)]
          exact checkLevel_outer (Nat.le_trans (Nat.le_succ level)
            (Value.le_depthOfItems (x :: xs) (level + 1))) (x :: xs) Value.list
  | @dict es hkeys hnodup _ ih =>
      cases es with
      | nil =>
          rw [ofValue, ofEntries, Value.depthFrom]
          cases checkLevel level with
          | ok u => rfl
          | error f => rfl
      | cons e es =>
          rw [ofValue, ofEntries_plain (List.cons_ne_nil e es) hkeys
            fun x hx => ih x hx (level + 1)]
          have h := checkLevel_outer (Nat.le_trans (Nat.le_succ level)
            (Value.le_depthOfEntries (e :: es) (level + 1))) (e :: es)
            fun fs => Value.dict (Mapping.ofEntries fs)
          rw [Mapping.ofEntries_distinct hkeys hnodup] at h
          exact h

theorem ofValue_shallow {v : Value} (h : v.Plain) (hdepth : v.nestingDepth ≤ depthLimit) :
    ofValue 0 v = .ok v := by
  rw [ofValue_plain h]
  show (checkLevel v.nestingDepth).map _ = _
  exact exceptMap_ok.mpr ⟨(), checkLevel_ok.mpr hdepth, rfl⟩

theorem keyText_of_text {key : Value} {t : String} (h : key.toText? = some t) :
    keyText key = .ok t := by
  cases key with
  | scalar s =>
      cases s with
      | str s => rw [← Option.some.inj h]; rfl
      | status s => rw [← Option.some.inj h]; rfl
      | _ => exact nomatch h
  | _ => exact nomatch h

theorem under_of_ofEntries {level : Nat} {es fs : List (Value × Value)}
    (hkeys : Mapping.Texts es) (h : ofEntries level es = .ok fs) (k : String) :
    List.Forall₂ (fun v d => ofValue level v = .ok d) (Mapping.under es k)
      (Mapping.under fs k) := by
  have hall := forall₂_of_ofEntries h
  clear h
  induction hall with
  | nil => exact .nil
  | @cons e f es fs hef _ ih =>
      obtain ⟨⟨t, htext, hkey⟩, hd⟩ := hef
      obtain ⟨t', ht'⟩ := Option.isSome_iff_exists.mp (hkeys e List.mem_cons_self)
      rw [keyText_of_text ht'] at htext
      have ht : f.1.toText? = some t' := by
        rw [hkey, Except.ok.inj htext]
        rfl
      have hrest := ih fun x hx => hkeys x (List.mem_cons_of_mem _ hx)
      rw [Mapping.under_cons, Mapping.under_cons, ht, ht']
      by_cases htk : some t' = some k
      · rw [if_pos htk, if_pos htk]
        exact .cons hd hrest
      · rw [if_neg htk, if_neg htk]
        exact hrest

/-- So the document of a map holds under a text the documents of what stood there, and
    of several the last one. -/
theorem under_of_ofValue {level : Nat} {m fs : Mapping} (hkeys : m.Texts)
    (h : ofValue level (.dict m) = .ok (.dict fs)) (k : String) :
    ∃ ds, List.Forall₂ (fun v d => ofValue (level + 1) v = .ok d) (m.under k) ds ∧
      fs.under k = ds.getLast?.toList := by
  obtain ⟨_, _, h⟩ := exceptBind_ok.mp h
  obtain ⟨es, hes, h⟩ := exceptBind_ok.mp h
  obtain rfl := Value.dict.inj (Except.ok.inj h)
  have htexts : ∀ e ∈ es, e.1.isText = true := by
    intro e he
    obtain ⟨⟨t, ht⟩, _⟩ := mem_ofEntries hes e he
    rw [ht]
    rfl
  exact ⟨_, under_of_ofEntries hkeys hes k, Mapping.under_ofEntries htexts k⟩

/-- All that is plain is its own document. -/
theorem under_of_ofValue_of_plain {level : Nat} {m fs : Mapping} {k : String} (hkeys : m.Texts)
    (h : ofValue level (.dict m) = .ok (.dict fs)) (hplain : ∀ v ∈ m.under k, v.Plain) :
    fs.under k = (m.under k).getLast?.toList := by
  obtain ⟨ds, hds, hfs⟩ := under_of_ofValue hkeys h k
  have hsame : List.Forall₂ (· = ·) (m.under k) ds := by
    refine (List.forall₂_and_left _ _ |>.mpr ⟨hplain, hds⟩).imp fun v d ⟨hv, hd⟩ => ?_
    rw [ofValue_plain hv] at hd
    obtain ⟨_, _, hd⟩ := exceptMap_ok.mp hd
    exact hd
  rw [List.forall₂_eq_eq_eq] at hsame
  rw [hfs, hsame]

/-- What stood there alone is there still, when it is plain. -/
theorem under_of_ofValue_plain {level : Nat} {m fs : Mapping} {k : String} {v : Value}
    (hkeys : m.Texts) (h : ofValue level (.dict m) = .ok (.dict fs)) (hv : m.under k = [v])
    (hplain : v.Plain) : fs.under k = [v] ∧ v.depthFrom (level + 1) ≤ depthLimit := by
  obtain ⟨ds, hds, hfs⟩ := under_of_ofValue hkeys h k
  rw [hv] at hds
  cases hds with
  | @cons _ d _ _ hd hnil =>
      cases hnil
      rw [ofValue_plain hplain] at hd
      obtain ⟨_, hlevel, rfl⟩ := exceptMap_ok.mp hd
      refine ⟨hfs, ?_⟩
      unfold checkLevel at hlevel
      split at hlevel
      · assumption
      · exact nomatch hlevel

/-- So it does a whole context. -/
theorem ofMapping_plain {m : Mapping} (h : (Value.dict m).Plain) :
    ofMapping m = (checkLevel (Value.dict m).nestingDepth).map fun _ => m := by
  cases h with
  | dict hkeys hnodup hvalues =>
      cases m with
      | nil => rfl
      | cons e es =>
          rw [ofMapping, ofEntries_plain (List.cons_ne_nil e es) hkeys
            fun x hx => ofValue_plain (hvalues x hx) 1]
          show ((checkLevel (Value.dict (e :: es)).nestingDepth).map fun _ => e :: es) >>= _ = _
          cases checkLevel (Value.dict (e :: es)).nestingDepth with
          | ok u => exact congrArg Except.ok (Mapping.ofEntries_distinct hkeys hnodup)
          | error f => rfl

end Document

end Workflow
