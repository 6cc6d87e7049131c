import Workflow.Context
import Workflow.Engine
import Workflow.Proofs.Store

/-! # Value — context data that passes its checks

    A value that has a JSON text does not lead back to itself: it is closed, so taking
    it out of its container, or copying the container, leaves it as it is.  A map passes as
    context data when its keys are texts and its values have JSON texts.

    The heart is `Mapping.Fit`: it is what the checks of context data come to, and
    what every way of writing a context keeps. -/

namespace Workflow

namespace Value

/-- Induction over values, where the parts of a container are those in it. -/
theorem induction {motive : Value → Prop} (scalar : ∀ s, motive (.scalar s))
    (thing : ∀ c id, motive (.thing c id))
    (list : ∀ xs, (∀ x ∈ xs, motive x) → motive (.list xs))
    (tuple : ∀ xs, (∀ x ∈ xs, motive x) → motive (.tuple xs))
    (set : ∀ xs, (∀ x ∈ xs, motive x) → motive (.set xs))
    (dict : ∀ es, (∀ e ∈ es, motive e.2) → motive (.dict es))
    (up : ∀ n, motive (.up n)) : ∀ v, motive v
  | .scalar s   => scalar s
  | .thing c id => thing c id
  | .list xs    => list xs fun x _ => induction scalar thing list tuple set dict up x
  | .tuple xs   => tuple xs fun x _ => induction scalar thing list tuple set dict up x
  | .set xs     => set xs fun x _ => induction scalar thing list tuple set dict up x
  | .dict es    => dict es fun e he =>
      have : sizeOf e.2 < 1 + sizeOf es := by
        have h := List.sizeOf_lt_of_mem he
        obtain ⟨k, v⟩ := e
        rw [Prod.mk.sizeOf_spec] at h
        show sizeOf v < 1 + sizeOf es
        omega
      induction scalar thing list tuple set dict up e.2
  | .up n       => up n

/-! ## Values that lead nowhere back -/

theorem replaceRootItems_eq (f : Nat → Value) (n : Nat) (xs : List Value) :
    replaceRootItems f n xs = xs.map (replaceRoot f n) := by
  induction xs with
  | nil => rfl
  | cons x xs ih => rw [replaceRootItems, ih]; rfl

theorem replaceRootEntries_eq (f : Nat → Value) (n : Nat) (es : List (Value × Value)) :
    replaceRootEntries f n es = es.map fun e => (e.1, replaceRoot f n e.2) := by
  induction es with
  | nil => rfl
  | cons e es ih => rw [replaceRootEntries, ih]; rfl

/-- Has the value a strict JSON text? -/
def Encodes (v : Value) : Prop := ∃ cs, Json.encode false v = .ok cs

theorem encodeItems_ok {xs : List Value} :
    (∃ ts, Json.encodeItems false xs = .ok ts) ↔ ∀ x ∈ xs, x.Encodes := by
  induction xs with
  | nil => exact ⟨fun _ _ h => absurd h List.not_mem_nil, fun _ => ⟨[], rfl⟩⟩
  | cons x xs ih =>
      rw [List.forall_mem_cons, ← ih]
      constructor
      · rintro ⟨ts, h⟩
        obtain ⟨t, ht, h⟩ := exceptBind_ok.mp h
        obtain ⟨ts', hts, _⟩ := exceptBind_ok.mp h
        exact ⟨⟨t, ht⟩, ts', hts⟩
      · rintro ⟨⟨t, ht⟩, ts, hts⟩
        refine ⟨t :: ts, ?_⟩
        rw [Json.encodeItems, ht, hts]
        rfl

theorem encodeEntries_ok {es : List (Value × Value)} :
    (∃ ts, Json.encodeEntries false es = .ok ts) ↔
      ∀ e ∈ es, (∃ k, Json.keyText e.1 = .ok k) ∧ e.2.Encodes := by
  induction es with
  | nil => exact ⟨fun _ _ h => absurd h List.not_mem_nil, fun _ => ⟨[], rfl⟩⟩
  | cons e es ih =>
      rw [List.forall_mem_cons, ← ih]
      constructor
      · rintro ⟨ts, h⟩
        obtain ⟨k, hk, h⟩ := exceptBind_ok.mp h
        obtain ⟨t, ht, h⟩ := exceptBind_ok.mp h
        obtain ⟨ts', hts, _⟩ := exceptBind_ok.mp h
        exact ⟨⟨⟨k, hk⟩, t, ht⟩, ts', hts⟩
      · rintro ⟨⟨⟨k, hk⟩, t, ht⟩, ts, hts⟩
        refine ⟨(Json.quote k ++ ':' :: ' ' :: t) :: ts, ?_⟩
        rw [Json.encodeEntries, hk, ht, hts]
        rfl

theorem encodes_list {xs : List Value} : (Value.list xs).Encodes ↔ ∀ x ∈ xs, x.Encodes := by
  rw [← encodeItems_ok]
  constructor
  · rintro ⟨cs, h⟩
    obtain ⟨ts, hts, _⟩ := exceptMap_ok.mp h
    exact ⟨ts, hts⟩
  · rintro ⟨ts, hts⟩
    exact ⟨_, exceptMap_ok.mpr ⟨ts, hts, rfl⟩⟩

theorem encodes_tuple {xs : List Value} : (Value.tuple xs).Encodes ↔ ∀ x ∈ xs, x.Encodes :=
  encodes_list

theorem encodes_dict {es : Mapping} : (Value.dict es).Encodes ↔
    ∀ e ∈ es, (∃ k, Json.keyText e.1 = .ok k) ∧ e.2.Encodes := by
  rw [← encodeEntries_ok]
  constructor
  · rintro ⟨cs, h⟩
    obtain ⟨ts, hts, _⟩ := exceptMap_ok.mp h
    exact ⟨ts, hts⟩
  · rintro ⟨ts, hts⟩
    exact ⟨_, exceptMap_ok.mpr ⟨ts, hts, rfl⟩⟩

theorem encodes_str (s : String) : (Value.str s).Encodes := ⟨_, rfl⟩

/-- Does the value stay as it is wherever it is moved to? -/
def Closed (v : Value) : Prop := ∀ f n, v.replaceRoot f n = v

theorem closed_scalar (s : Scalar) : (Value.scalar s).Closed := fun _ _ => rfl

theorem closed_list {xs : List Value} (h : ∀ x ∈ xs, x.Closed) : (Value.list xs).Closed := by
  intro f n
  rw [replaceRoot, replaceRootItems_eq, List.map_congr_left fun x hx => h x hx f (n + 1),
    List.map_id']

theorem closed_tuple {xs : List Value} (h : ∀ x ∈ xs, x.Closed) : (Value.tuple xs).Closed := by
  intro f n
  rw [replaceRoot, replaceRootItems_eq, List.map_congr_left fun x hx => h x hx f (n + 1),
    List.map_id']

theorem closed_dict {es : Mapping} (h : ∀ e ∈ es, e.2.Closed) : (Value.dict es).Closed := by
  intro f n
  have hentry : ∀ e ∈ es, (e.1, replaceRoot f (n + 1) e.2) = e :=
    fun e he => Prod.ext rfl (h e he f (n + 1))
  rw [replaceRoot, replaceRootEntries_eq, List.map_congr_left hentry, List.map_id']

/-- A value that has a JSON text leads nowhere back. -/
theorem Encodes.closed {v : Value} (h : v.Encodes) : v.Closed := by
  induction v using Value.induction with
  | scalar s => exact closed_scalar s
  | thing c id => exact fun _ _ => rfl
  | list xs ih => exact closed_list fun x hx => ih x hx (encodes_list.mp h x hx)
  | tuple xs ih => exact closed_tuple fun x hx => ih x hx (encodes_tuple.mp h x hx)
  | set xs _ =>
      obtain ⟨cs, h⟩ := h
      exact nomatch h
  | dict es ih => exact closed_dict fun e he => ih e he (encodes_dict.mp h e he).2
  | up k =>
      obtain ⟨cs, h⟩ := h
      exact nomatch h

/-- Where what takes the place of a reference has no JSON text, a value that has one
    held no such reference, and had one before. -/
theorem encodes_of_replaceRoot {f : Nat → Value} {n : Nat} {v : Value}
    (hf : ∀ n, ¬(f n).Encodes) (h : (v.replaceRoot f n).Encodes) : v.Encodes := by
  induction v using Value.induction generalizing n with
  | scalar s => exact h
  | thing c id => exact h
  | list xs ih =>
      rw [replaceRoot, replaceRootItems_eq, encodes_list, List.forall_mem_map] at h
      exact encodes_list.mpr fun x hx => ih x hx (h x hx)
  | tuple xs ih =>
      rw [replaceRoot, replaceRootItems_eq, encodes_tuple, List.forall_mem_map] at h
      exact encodes_tuple.mpr fun x hx => ih x hx (h x hx)
  | set xs _ =>
      obtain ⟨cs, h⟩ := h
      exact nomatch h
  | dict es ih =>
      rw [replaceRoot, replaceRootEntries_eq, encodes_dict, List.forall_mem_map] at h
      exact encodes_dict.mpr fun e he => ⟨(h e he).1, ih e he (h e he).2⟩
  | up k =>
      rw [replaceRoot] at h
      split at h
      · exact absurd h (hf n)
      · exact h

/-- The items of a closed list stand on their own as they are. -/
theorem detachedItems_of_closed {xs : List Value} (h : ∀ x ∈ xs, x.Closed) :
    detachedItems xs = xs := by
  unfold detachedItems detachedFrom
  refine List.ext_getElem (by rw [List.length_mapIdx]) fun i h₁ h₂ => ?_
  rw [List.getElem_mapIdx]
  exact h _ (List.getElem_mem h₂) _ _

end Value

/-! ## Entries -/

namespace Mapping

variable {m additions : Mapping} {key v : Value} {t k : String}

/-- A key that is a text equals exactly the values that are this text. -/
theorem text_equal (h : key.toText? = some t) (w : Value) :
    key.equal w = (w.toText? == some t) := by
  cases key with
  | scalar s => cases s with
    | str s =>
        rw [← Option.some.inj h]
        exact Value.str_equal s w
    | status s =>
        rw [← Option.some.inj h, ← Value.str_equal]
        cases w with
        | scalar u => cases u with
          | _ => rfl
        | _ => rfl
    | _ => exact nomatch h
  | _ => exact nomatch h

/-- An entry after an insertion is an old one, or holds the new value under the new
    key or under the equal key that stood in its place. -/
theorem mem_insert {e : Value × Value} (h : e ∈ m.insert key v) :
    e ∈ m ∨ e.2 = v ∧ (e.1 = key ∨ key.equal e.1 = true ∧ ∃ w, (e.1, w) ∈ m) := by
  induction m with
  | nil =>
      rw [List.mem_singleton.mp h]
      exact .inr ⟨rfl, .inl rfl⟩
  | cons x m ih =>
      obtain ⟨k', w⟩ := x
      unfold insert at h
      by_cases hk' : key.equal k' = true
      · rw [if_pos hk'] at h
        rcases List.mem_cons.mp h with rfl | h
        · exact .inr ⟨rfl, .inr ⟨hk', w, List.mem_cons_self⟩⟩
        · exact .inl (List.mem_cons_of_mem _ h)
      · rw [if_neg hk'] at h
        rcases List.mem_cons.mp h with rfl | h
        · exact .inl List.mem_cons_self
        · rcases ih h with h | ⟨hv, hk | ⟨heq, w', hw'⟩⟩
          · exact .inl (List.mem_cons_of_mem _ h)
          · exact .inr ⟨hv, .inl hk⟩
          · exact .inr ⟨hv, .inr ⟨heq, w', List.mem_cons_of_mem _ hw'⟩⟩

/-- The values under a text: one or none, where no key is there twice. -/
def under (m : Mapping) (k : String) : List Value :=
  m.filterMap fun e => if e.1.toText? = some k then some e.2 else none

theorem under_cons (e : Value × Value) (m : Mapping) (k : String) :
    under (e :: m) k = if e.1.toText? = some k then e.2 :: m.under k else m.under k := by
  unfold under
  rw [List.filterMap_cons]
  by_cases h : e.1.toText? = some k
  · rw [if_pos h, if_pos h]
  · rw [if_neg h, if_neg h]

theorem field?_eq_head? (m : Mapping) (k : String) : m.field? k = (m.under k).head? := by
  induction m with
  | nil => rfl
  | cons e m ih =>
      rw [under_cons]
      unfold field? find? at ih ⊢
      rw [List.find?_cons, Value.str_equal]
      by_cases h : e.1.toText? = some k
      · rw [if_pos h, beq_iff_eq.mpr h]
        rfl
      · rw [if_neg h, beq_eq_false_iff_ne.mpr h]
        exact ih

theorem under_eq_nil_iff : m.under k = [] ↔ ∀ x ∈ m, x.1.toText? ≠ some k := by
  unfold under
  rw [List.filterMap_eq_nil_iff]
  simp

theorem contains_of_under (h : m.under k = []) : m.contains k = false := by
  refine List.any_eq_false.mpr ?_
  intro x hx
  rw [Value.str_equal, beq_iff_eq]
  exact under_eq_nil_iff.mp h x hx

theorem contains_iff_under : m.contains k = true ↔ m.under k ≠ [] := by
  constructor
  · intro h hnil
    exact nomatch h.symm.trans (contains_of_under hnil)
  · intro h
    obtain ⟨e, he, hkey⟩ : ∃ e ∈ m, e.1.toText? = some k := by
      simpa [under_eq_nil_iff] using h
    refine List.any_eq_true.mpr ⟨e, he, ?_⟩
    rw [Value.str_equal, hkey]
    exact beq_self_eq_true _

/-- What stands under a text after an insertion under a text. -/
theorem under_insert (h : key.toText? = some t) (m : Mapping) (v : Value) (k : String) :
    (m.insert key v).under k = if t = k then v :: (m.under k).tail else m.under k := by
  induction m with
  | nil =>
      rw [insert, under_cons, h]
      simp only [Option.some.injEq]
      rfl
  | cons e m ih =>
      obtain ⟨k', w⟩ := e
      unfold insert
      rw [text_equal h]
      by_cases hk' : k'.toText? = some t
      · rw [if_pos (beq_iff_eq.mpr hk'), under_cons, under_cons, hk']
        simp only [Option.some.injEq]
        split
        · rfl
        · rfl
      · rw [if_neg (fun hb => hk' (beq_iff_eq.mp hb)), under_cons, under_cons, ih]
        by_cases hk : k'.toText? = some k
        · have hne : t ≠ k := by
            rintro rfl
            exact hk' hk
          rw [if_pos hk, if_pos hk, if_neg hne, if_neg hne]
        · rw [if_neg hk, if_neg hk]

theorem under_set (m : Mapping) (t : String) (v : Value) (k : String) :
    (m.set t v).under k = if t = k then v :: (m.under k).tail else m.under k :=
  under_insert rfl m v k

/-- Merging in texts other than a given one leaves what stands under that one. -/
theorem under_merge (h : ∀ e ∈ additions, ∃ t, e.1.toText? = some t ∧ t ≠ k)
    (m : Mapping) : (m.merge additions).under k = m.under k := by
  induction additions generalizing m with
  | nil => rfl
  | cons e additions ih =>
      obtain ⟨t, ht, hne⟩ := h e List.mem_cons_self
      have hrest := fun x hx => h x (List.mem_cons_of_mem _ hx)
      show (merge (m.insert e.1 e.2) additions).under k = _
      rw [ih hrest, under_insert ht, if_neg hne]

/-- Of entries with texts as keys, the last one under a text stays. -/
theorem under_ofEntries {es : List (Value × Value)} (h : ∀ e ∈ es, e.1.isText = true)
    (k : String) : (ofEntries es).under k = (under es k).getLast?.toList := by
  have hmerge (m : Mapping) : (m.merge es).under k =
      (under es k).getLast?.elim (m.under k) fun v => v :: (m.under k).tail := by
    induction es generalizing m with
    | nil => rfl
    | cons e es ih =>
        obtain ⟨t, ht⟩ := Option.isSome_iff_exists.mp (h e List.mem_cons_self)
        show (merge (m.insert e.1 e.2) es).under k = _
        rw [ih (fun x hx => h x (List.mem_cons_of_mem _ hx)), under_insert ht, under_cons, ht]
        by_cases htk : t = k
        · rw [if_pos htk, if_pos (congrArg some htk)]
          cases under es k with
          | nil => rfl
          | cons v vs => rfl
        · rw [if_neg htk, if_neg fun h => htk (Option.some.inj h)]
  refine (hmerge []).trans ?_
  cases (under es k).getLast? with
  | none => rfl
  | some v => rfl

/-! ## Keys that are texts -/

/-- Are all keys texts? -/
def Texts (m : Mapping) : Prop := ∀ e ∈ m, e.1.isText = true

theorem Texts.insert (h : m.Texts) (hk : key.isText = true) : (m.insert key v).Texts := by
  intro e he
  rcases mem_insert he with he | ⟨_, rfl | ⟨_, w, hw⟩⟩
  · exact h e he
  · exact hk
  · exact h (e.1, w) hw

theorem Texts.set (h : m.Texts) (t : String) (v : Value) : (m.set t v).Texts := h.insert rfl

theorem Texts.merge (h : m.Texts) (ha : additions.Texts) : (m.merge additions).Texts := by
  induction additions generalizing m with
  | nil => exact h
  | cons e additions ih =>
      exact ih (h.insert (ha e List.mem_cons_self)) fun x hx => ha x (List.mem_cons_of_mem _ hx)

/-! ## Fit context data -/

/-- Are the keys texts, and have the values JSON texts? -/
def Fit (m : Mapping) : Prop := ∀ e ∈ m, e.1.isText = true ∧ e.2.Encodes

theorem Fit.nil : Fit [] := fun _ h => absurd h List.not_mem_nil

theorem Fit.insert (h : m.Fit) (hk : key.isText = true) (hv : v.Encodes) :
    (m.insert key v).Fit := by
  intro e he
  rcases mem_insert he with he | ⟨hev, hek | ⟨_, w, hw⟩⟩
  · exact h e he
  · rw [hev, hek]
    exact ⟨hk, hv⟩
  · rw [hev]
    exact ⟨(h _ hw).1, hv⟩

theorem Fit.set (h : m.Fit) (k : String) (hv : v.Encodes) : (m.set k v).Fit :=
  h.insert rfl hv

theorem Fit.merge (h : m.Fit) (ha : additions.Fit) : (m.merge additions).Fit := by
  induction additions generalizing m with
  | nil => exact h
  | cons e additions ih =>
      obtain ⟨hk, hv⟩ := ha e List.mem_cons_self
      exact ih (h.insert hk hv) fun x hx => ha x (List.mem_cons_of_mem _ hx)

theorem Fit.ofEntries {es : List (Value × Value)} (h : Fit es) : (ofEntries es).Fit :=
  Fit.nil.merge h

theorem Fit.filter (h : m.Fit) (p : Value × Value → Bool) : Fit (m.filter p) :=
  fun e he => h e (List.mem_filter.mp he).1

/-- A copy is what is kept, when that is closed. -/
theorem copyTop_of_closed {keep : Value → Bool}
    (h : ∀ e ∈ m, keep e.1 = true → e.2.Closed) :
    m.copyTop keep = m.filter fun e => keep e.1 := by
  unfold Mapping.copyTop
  have hentry : ∀ e ∈ m.filter fun e => keep e.1, (e.1, m.detach e.1 e.2) = e := by
    intro e he
    obtain ⟨he, hkeep⟩ := List.mem_filter.mp he
    exact Prod.ext rfl (h e he hkeep _ _)
  rw [List.map_congr_left hentry, List.map_id']

theorem Fit.copy (h : m.Fit) : m.copy = m := by
  rw [Mapping.copy, copyTop_of_closed fun e he _ => (h e he).2.closed,
    List.filter_eq_self.mpr fun _ _ => rfl]

theorem exists_mem_insert (m : Mapping) (key v : Value) : ∃ k, (k, v) ∈ m.insert key v := by
  induction m with
  | nil => exact ⟨key, List.mem_cons_self⟩
  | cons e m ih =>
      obtain ⟨k, w⟩ := e
      unfold insert
      split
      · exact ⟨k, List.mem_cons_self⟩
      · obtain ⟨k', hk'⟩ := ih
        exact ⟨k', List.mem_cons_of_mem _ hk'⟩

/-- A copy is fit only of what is fit itself: what led back to the map leads back to the
    copied value in the copy. -/
theorem Fit.of_copy (h : m.copy.Fit) : m.Fit := by
  intro e he
  have hcopied : (e.1, m.detach e.1 e.2) ∈ m.copy :=
    List.mem_map.mpr ⟨e, List.mem_filter.mpr ⟨he, rfl⟩, rfl⟩
  obtain ⟨hkey, hvalue⟩ := h _ hcopied
  refine ⟨hkey, Value.encodes_of_replaceRoot (fun n hencodes => ?_) hvalue⟩
  obtain ⟨k, hk⟩ := exists_mem_insert m e.1 (.up n)
  obtain ⟨cs, hup⟩ := (Value.encodes_dict.mp hencodes _ hk).2
  exact nomatch hup

/-- What is looked up is what stands there, when that is closed. -/
theorem get?_of_closed (h : ∀ v, m.field? k = some v → v.Closed) :
    m.get? k = m.field? k := by
  unfold Mapping.get? lookup?
  show (m.field? k).map _ = m.field? k
  cases hf : m.field? k with
  | none => rfl
  | some v => exact congrArg some (h v hf _ _)

theorem Fit.field? (h : m.Fit) {k : String} (hk : m.field? k = some v) : v.Encodes := by
  obtain ⟨e, he, hv⟩ := Option.map_eq_some_iff.mp hk
  exact hv ▸ (h e (List.mem_of_find?_eq_some he)).2

/-- So is what is looked up in fit data. -/
theorem Fit.get? (h : m.Fit) (k : String) : m.get? k = m.field? k :=
  get?_of_closed fun _ hv => (h.field? hv).closed

theorem keyText_of_isText (h : key.isText = true) : ∃ k, Json.keyText key = .ok k := by
  cases key with
  | scalar s => cases s with
    | str s => exact ⟨_, rfl⟩
    | status s => exact ⟨_, rfl⟩
    | _ => exact nomatch h
  | _ => exact nomatch h

theorem Fit.encodes (h : m.Fit) : (Value.dict m).Encodes :=
  Value.encodes_dict.mpr fun e he => ⟨keyText_of_isText (h e he).1, (h e he).2⟩

end Mapping

/-! ## The checks -/

theorem keyProblem?_none {allow : Bool} {key : Value} :
    keyProblem? allow key = none ↔
      key.isText = true ∧ (allow = false → isReserved key = false) := by
  unfold keyProblem? isReserved Value.isText
  cases key.toText? with
  | none => exact ⟨(fun h => nomatch h), fun h => nomatch h.1⟩
  | some name =>
      cases allow with
      | true => exact ⟨fun _ => ⟨rfl, (fun h => nomatch h)⟩, fun _ => rfl⟩
      | false =>
          by_cases h : isReservedName name = true
          · simp [h]
          · simp [h]

theorem dataProblem?_none {m : Mapping} : dataProblem? m = none ↔ (Value.dict m).Encodes := by
  unfold dataProblem?
  cases h : Json.encode false (.dict m) with
  | ok cs => exact ⟨fun _ => ⟨cs, h⟩, fun _ => rfl⟩
  | error r =>
      refine ⟨fun hn => (nomatch hn), ?_⟩
      rintro ⟨cs, hcs⟩
      exact nomatch h.symm.trans hcs

/-- What the checks of context data come to. -/
theorem contextProblems_nil {allow : Bool} {m : Mapping} :
    contextProblems allow m = [] ↔
      m.Fit ∧ (allow = false → ∀ e ∈ m, isReserved e.1 = false) := by
  unfold contextProblems
  rw [List.append_eq_nil_iff, List.filterMap_eq_nil_iff, Option.toList_eq_nil_iff,
    dataProblem?_none]
  constructor
  · rintro ⟨hkeys, hdata⟩
    have hkeys := fun e he => keyProblem?_none.mp (hkeys e he)
    exact ⟨fun e he => ⟨(hkeys e he).1, (Value.encodes_dict.mp hdata e he).2⟩,
      fun ha e he => (hkeys e he).2 ha⟩
  · rintro ⟨hfit, hreserved⟩
    exact ⟨fun e he => keyProblem?_none.mpr ⟨(hfit e he).1, fun ha => hreserved ha e he⟩,
      hfit.encodes⟩

/-- A value that passes as context data is a map of fit data. -/
theorem valueProblems_nil {allow : Bool} {v : Value} :
    valueProblems allow v = [] ↔ ∃ m, v = .dict m ∧ contextProblems allow m = [] := by
  cases v with
  | dict m => exact ⟨fun h => ⟨m, rfl, h⟩, fun ⟨_, hm, h⟩ => Value.dict.inj hm ▸ h⟩
  | _ => exact ⟨(fun h => nomatch h), fun ⟨_, hm, _⟩ => nomatch hm⟩

/-- What passes as context data is taken as it is. -/
theorem looseMapping_of_valid {m : Mapping} (h : m.Fit) : looseMapping (.dict m) = .ok m := by
  unfold looseMapping
  cases m with
  | nil => rfl
  | cons e m =>
      rw [if_neg (fun ht => nomatch ht)]
      show Except.ok (Mapping.copy (e :: m)) = _
      rw [h.copy]

end Workflow
