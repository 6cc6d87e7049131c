import Workflow.Inspection.Report
import Workflow.Proofs.Diagnosis
import Workflow.Proofs.Likeness

/-! # Walk — the three measures of a value are read off one walk

    The depth of a value, the types of its leaves and the number of its parts of some kind
    are found by three recursions.  All of them go through the parts of lists and maps, in
    order, and stop at all else, references to enclosing containers included.  So they
    agree on what they visit: one list of visits tells what each of them finds.

    The heart is the three equations on parts, `depthFrom_eq`, `leafTypes_eq` and
    `countChildren_eq`; what is said of a walk follows by induction on parts. -/

namespace Workflow

namespace Value

variable {v x y : Value} {vs : List Value} {level n : Nat} {p : Value → Bool}

/-! ## Parts -/

/-- The parts of a list or a map, in order. -/
def parts : Value → List Value
  | .list xs => xs
  | .dict es => es.map Prod.snd
  | _        => []

/-- Is it a list or a map, or does it refer to one? -/
def isContainer : Value → Bool
  | .list _ | .dict _ | .up _ => true
  | _ => false

/-- Induction over values along the parts of lists and maps. -/
theorem parts_induction {motive : Value → Prop}
    (h : ∀ v, (∀ x ∈ v.parts, motive x) → motive v) : ∀ v, motive v := by
  have hleaf {v : Value} (hv : v.parts = []) : motive v :=
    h v fun x hx => absurd (hv ▸ hx) List.not_mem_nil
  intro v
  induction v using Value.induction with
  | list xs ih => exact h (.list xs) ih
  | dict es ih =>
      refine h (.dict es) fun x hx => ?_
      obtain ⟨e, he, rfl⟩ := List.mem_map.mp hx
      exact ih e he
  | _ => exact hleaf rfl

theorem depthOfItems_eq (level : Nat) (xs : List Value) (a : Nat) (h : level ≤ a) :
    (xs.map (depthFrom level)).foldl max a = max a (depthOfItems level xs) := by
  induction xs generalizing a with
  | nil => exact (Nat.max_eq_left h).symm
  | cons x xs ih =>
      rw [List.map_cons, List.foldl_cons, ih _ (Nat.le_trans h (Nat.le_max_left _ _)),
        depthOfItems, Nat.max_assoc]

theorem depthOfEntries_eq (level : Nat) (es : Mapping) :
    depthOfEntries level es = depthOfItems level (es.map Prod.snd) := by
  induction es with
  | nil => rfl
  | cons e es ih => rw [depthOfEntries, ih]; rfl

/-- The depth of a value is the greatest depth of its parts, one level further down. -/
theorem depthFrom_eq (level : Nat) (v : Value) :
    v.depthFrom level = (v.parts.map (depthFrom (level + 1))).max?.getD level := by
  have hitems (x : Value) (xs : List Value) :
      max (depthFrom (level + 1) x) (depthOfItems (level + 1) xs) =
        ((x :: xs).map (depthFrom (level + 1))).max?.getD level :=
    (depthOfItems_eq (level + 1) xs _ (le_depthFrom x (level + 1))).symm
  cases v with
  | list xs =>
      cases xs with
      | nil => rfl
      | cons x xs => exact hitems x xs
  | dict es =>
      cases es with
      | nil => rfl
      | cons e es =>
          show max (depthFrom (level + 1) e.2) (depthOfEntries (level + 1) es) = _
          rw [depthOfEntries_eq]
          exact hitems e.2 (es.map Prod.snd)
  | _ => rfl

/-- The leaves of a container are those of its parts. -/
theorem leafTypes_eq (h : v.isContainer = true) : v.leafTypes = v.parts.flatMap leafTypes := by
  cases v with
  | list xs =>
      show leafTypesOfItems xs = xs.flatMap leafTypes
      induction xs with
      | nil => rfl
      | cons x xs ih => rw [leafTypesOfItems, ih rfl, List.flatMap_cons]
  | dict es =>
      show leafTypesOfEntries es = (es.map Prod.snd).flatMap leafTypes
      induction es with
      | nil => rfl
      | cons e es ih => rw [leafTypesOfEntries, ih rfl, List.map_cons, List.flatMap_cons]
  | up n => rfl
  | _ => exact nomatch h

/-- What is counted in a value is counted among its parts and in each of them. -/
theorem countChildren_eq (p : Value → Bool) (v : Value) :
    v.countChildren p = v.parts.countP p + (v.parts.map (countChildren p)).sum := by
  cases v with
  | list xs =>
      show countItems p xs = xs.countP p + (xs.map (countChildren p)).sum
      induction xs with
      | nil => rfl
      | cons x xs ih =>
          rw [countItems, ih, List.countP_cons, List.map_cons, List.sum_cons]
          omega
  | dict es =>
      show countEntries p es =
        (es.map Prod.snd).countP p + ((es.map Prod.snd).map (countChildren p)).sum
      induction es with
      | nil => rfl
      | cons e es ih =>
          rw [countEntries, ih, List.map_cons, List.countP_cons, List.map_cons, List.sum_cons]
          omega
  | _ => rfl

/-! ## The walk -/

mutual

/-- The value and all that is below it, in the order in which it is walked, each with the
    number of containers above it, counted from `level`. -/
def walk (level : Nat) : Value → List (Nat × Value)
  | .list xs => (level, .list xs) :: walkItems (level + 1) xs
  | .dict es => (level, .dict es) :: walkEntries (level + 1) es
  | v        => [(level, v)]

/-- The items and all that is below them. -/
def walkItems (level : Nat) : List Value → List (Nat × Value)
  | []      => []
  | x :: xs => walk level x ++ walkItems level xs

/-- The values of the entries and all that is below them. -/
def walkEntries (level : Nat) : List (Value × Value) → List (Nat × Value)
  | []           => []
  | (_, v) :: es => walk level v ++ walkEntries level es

end

/-- A walk goes on with each part in turn. -/
theorem walk_eq (level : Nat) (v : Value) :
    v.walk level = (level, v) :: v.parts.flatMap (walk (level + 1)) := by
  have hitems (xs : List Value) :
      walkItems (level + 1) xs = xs.flatMap (walk (level + 1)) := by
    induction xs with
    | nil => rfl
    | cons x xs ih => rw [walkItems, ih, List.flatMap_cons]
  have hentries (es : Mapping) :
      walkEntries (level + 1) es = (es.map Prod.snd).flatMap (walk (level + 1)) := by
    induction es with
    | nil => rfl
    | cons e es ih => rw [walkEntries, ih, List.map_cons, List.flatMap_cons]
  cases v with
  | list xs => exact congrArg _ (hitems xs)
  | dict es => exact congrArg _ (hentries es)
  | _ => rfl

/-- The name under which a value is told as a leaf, unless it is a container. -/
def leafName? (v : Value) : Option String := if v.isContainer then none else some v.typeName

/-- The leaves of a value are the leaves of its walk. -/
theorem leafTypes_walk (v : Value) (level : Nat) :
    v.leafTypes = (v.walk level).filterMap fun x => x.2.leafName? := by
  induction v using parts_induction generalizing level with
  | h v ih =>
      rw [walk_eq, List.filterMap_cons]
      cases hv : v.isContainer with
      | true =>
          have hname : v.leafName? = none := if_pos hv
          rw [hname, leafTypes_eq hv, List.filterMap_flatMap]
          exact List.flatMap_congr fun x hx => ih x hx (level + 1)
      | false =>
          have hname : v.leafName? = some v.typeName := if_neg (by rw [hv]; exact Bool.false_ne_true)
          rw [hname]
          cases v with
          | list xs => exact nomatch hv
          | dict es => exact nomatch hv
          | up n => exact nomatch hv
          | _ => rfl

/-- What is counted below a value is counted on its walk, the value itself aside. -/
theorem countChildren_walk (p : Value → Bool) (v : Value) (level : Nat) :
    v.countChildren p = (v.walk level).tail.countP fun x => p x.2 := by
  induction v using parts_induction generalizing level with
  | h v ih =>
      have hpart (x : Value) (hx : x ∈ v.parts) :
          (x.walk (level + 1)).countP (fun y => p y.2) =
            (if p x then 1 else 0) + x.countChildren p := by
        rw [ih x hx (level + 1), walk_eq, List.countP_cons, List.tail_cons, Nat.add_comm]
      have hsum (xs : List Value) : xs.countP p + (xs.map (countChildren p)).sum =
          (xs.map fun x => (if p x then 1 else 0) + x.countChildren p).sum := by
        induction xs with
        | nil => rfl
        | cons x xs ih =>
            rw [List.countP_cons, List.map_cons, List.sum_cons, List.map_cons, List.sum_cons, ← ih]
            omega
      rw [walk_eq, List.tail_cons, List.countP_flatMap, countChildren_eq, hsum]
      exact congrArg List.sum (List.map_congr_left hpart).symm

/-! ## Chains of containers -/

/-- The lists and maps that are gone through on the way from a value down to another. -/
inductive Descends : Value → List Value → Value → Prop where
  | stop (v : Value) : Descends v [] v
  | down {v x y : Value} {vs : List Value} (hx : x ∈ v.parts) (h : Descends x vs y) :
      Descends v (v :: vs) y

/-- A walk meets what there is a way down to, on the level of the containers on it. -/
theorem mem_walk : (n, y) ∈ v.walk level ↔ ∃ vs, Descends v vs y ∧ n = level + vs.length := by
  induction v using parts_induction generalizing level with
  | h v ih =>
      rw [walk_eq, List.mem_cons, List.mem_flatMap]
      constructor
      · rintro (h | ⟨x, hx, h⟩)
        · obtain ⟨rfl, rfl⟩ := Prod.mk.inj h
          exact ⟨[], .stop _, rfl⟩
        · obtain ⟨vs, hvs, rfl⟩ := (ih x hx).mp h
          exact ⟨v :: vs, .down hx hvs, by rw [List.length_cons]; omega⟩
      · rintro ⟨vs, hvs, rfl⟩
        cases hvs with
        | stop => exact .inl rfl
        | down hx hvs =>
            exact .inr ⟨_, hx, (ih _ hx).mpr ⟨_, hvs, by rw [List.length_cons]; omega⟩⟩

/-- The depth of a value is the lowest level of its walk. -/
theorem depthFrom_walk (v : Value) (level : Nat) :
    (∃ y, (v.depthFrom level, y) ∈ v.walk level) ∧
      ∀ z ∈ v.walk level, z.1 ≤ v.depthFrom level := by
  induction v using parts_induction generalizing level with
  | h v ih =>
      rw [walk_eq, List.forall_mem_cons]
      refine ⟨?_, le_depthFrom v level, fun z hz => ?_⟩
      · cases hmax : (v.parts.map (depthFrom (level + 1))).max? with
        | none =>
            rw [depthFrom_eq, hmax]
            exact ⟨v, List.mem_cons_self⟩
        | some n =>
            rw [depthFrom_eq, hmax]
            obtain ⟨x, hx, rfl⟩ := List.mem_map.mp (List.max?_eq_some_iff.mp hmax).1
            obtain ⟨y, hy⟩ := (ih x hx (level + 1)).1
            exact ⟨y, List.mem_cons_of_mem _ (List.mem_flatMap.mpr ⟨x, hx, hy⟩)⟩
      · obtain ⟨x, hx, hz⟩ := List.mem_flatMap.mp hz
        have hmem := List.mem_map_of_mem (f := depthFrom (level + 1)) hx
        obtain ⟨n, hmax⟩ := Option.isSome_iff_exists.mp (List.isSome_max?_of_mem hmem)
        rw [depthFrom_eq, hmax]
        exact Nat.le_trans ((ih x hx (level + 1)).2 z hz) ((List.max?_eq_some_iff.mp hmax).2 _ hmem)

/-- The depth of a value is the length of its longest chain of containers. -/
theorem nestingDepth_longest (v : Value) :
    (∃ vs y, Descends v vs y ∧ vs.length = v.nestingDepth) ∧
      ∀ vs y, Descends v vs y → vs.length ≤ v.nestingDepth := by
  obtain ⟨⟨y, hy⟩, hle⟩ := depthFrom_walk v 0
  constructor
  · obtain ⟨vs, hvs, hlength⟩ := mem_walk.mp hy
    exact ⟨vs, y, hvs, by unfold nestingDepth; omega⟩
  · intro vs y hvs
    exact hle (vs.length, y) (mem_walk.mpr ⟨vs, hvs, (Nat.zero_add _).symm⟩)

/-! ## What the measures have in common -/

/-- Each leaf has one name, and no container has any. -/
theorem length_leafTypes (h : v.isContainer = true) :
    v.leafTypes.length = v.countChildren fun x => !x.isContainer := by
  have hname (x : Value) : x.leafName?.isSome = !x.isContainer := by
    unfold leafName?
    cases x.isContainer <;> rfl
  have hroot : v.leafName? = none := if_pos h
  rw [leafTypes_walk v 0, countChildren_walk _ v 0, walk_eq, List.filterMap_cons, hroot,
    List.tail_cons, List.length_filterMap_eq_countP]
  simp only [hname]

/-- Is it a list, a map, a scalar that JSON has a form for, or a reference to a container? -/
def isDatum : Value → Bool
  | .scalar (.null) | .scalar (.bool _) | .scalar (.int _) | .scalar (.float _)
  | .scalar (.str _) | .list _ | .dict _ | .up _ => true
  | _ => false

/-- Is the value built of lists, maps, scalars that JSON has a form for, and references to
    enclosing containers? -/
def isData : Value → Bool := throughout isDatum

theorem isData_of_mem_parts (h : v.isData = true) (hx : x ∈ v.parts) : x.isData = true := by
  cases v with
  | list xs => exact (throughout_list.mp h).2 x hx
  | dict es =>
      obtain ⟨e, he, rfl⟩ := List.mem_map.mp hx
      exact (throughout_dict.mp h).2 e he
  | _ => exact absurd hx List.not_mem_nil

theorem isData_of_mem_walk (h : v.isData = true) (hx : (n, x) ∈ v.walk level) :
    x.isData = true := by
  obtain ⟨vs, hvs, -⟩ := mem_walk.mp hx
  clear hx
  induction hvs with
  | stop v => exact h
  | down hx _ ih => exact ih (isData_of_mem_parts h hx)

/-- In data the leaves of the type of null are just the nulls. -/
theorem leafName?_eq_null (h : x.isData = true) :
    (x.leafName? == some "NoneType") = x.isNull := by
  cases x with
  | scalar s =>
      cases s with
      | null => rfl
      | bool b => rfl
      | int i => rfl
      | float x => rfl
      | str s => rfl
      | _ => exact nomatch h
  | list xs => rfl
  | dict es => rfl
  | up n => rfl
  | _ => exact nomatch h

/-- In data as many nulls are counted as leaves have the type of null. -/
theorem count_leafTypes_null (hdata : v.isData = true) (h : v.isContainer = true) :
    v.leafTypes.count "NoneType" = v.countChildren isNull := by
  have hroot : v.leafName? = none := if_pos h
  rw [leafTypes_walk v 0, countChildren_walk _ v 0, walk_eq, List.filterMap_cons, hroot,
    List.tail_cons, List.count_filterMap]
  refine List.countP_congr fun y hy => ?_
  have hmem : (y.1, y.2) ∈ v.walk 0 := walk_eq 0 v ▸ List.mem_cons_of_mem _ hy
  rw [leafName?_eq_null (isData_of_mem_walk hdata hmem)]

/-! ## The part of a context that is walked -/

/-- References that lead to data are replaced by data. -/
theorem isData_replaceRoot {f : Nat → Value} (hf : ∀ k, (f k).isData = true)
    (h : v.isData = true) : (v.replaceRoot f level).isData = true := by
  induction v using Value.induction generalizing level with
  | list xs ih =>
      rw [replaceRoot, replaceRootItems_eq]
      refine throughout_list.mpr ⟨rfl, fun y hy => ?_⟩
      obtain ⟨x, hx, rfl⟩ := List.mem_map.mp hy
      exact ih x hx ((throughout_list.mp h).2 x hx)
  | dict es ih =>
      rw [replaceRoot, replaceRootEntries_eq]
      refine throughout_dict.mpr ⟨rfl, fun y hy => ?_⟩
      obtain ⟨e, he, rfl⟩ := List.mem_map.mp hy
      exact ih e he ((throughout_dict.mp h).2 e he)
  | up k =>
      rw [replaceRoot]
      split
      · exact hf level
      · rfl
  | scalar s => exact h
  | thing c id => exact h
  | tuple xs _ => cases h
  | set xs _ => cases h

/-- What is left of data when some entries are left out is data. -/
theorem isData_copyTop {m : Mapping} {keep : Value → Bool} (h : (Value.dict m).isData = true) :
    (Value.dict (m.copyTop keep)).isData = true := by
  have hm := (throughout_dict.mp h).2
  refine throughout_dict.mpr ⟨rfl, fun e he => ?_⟩
  obtain ⟨f, hf, rfl⟩ := List.mem_map.mp he
  refine isData_replaceRoot (fun k => throughout_dict.mpr ⟨rfl, fun x hx => ?_⟩)
    (hm f (List.mem_filter.mp hf).1)
  rcases Mapping.mem_insert hx with hx | ⟨hx, -⟩
  · exact hm x hx
  · exact hx ▸ rfl

end Value

/-! ## Tallies -/

/-- Counting a name once more changes what is told of this name. -/
theorem lookup_bumped (counts : List (String × Nat)) (k n : String) :
    (counts.map fun c => if c.1 == k then (c.1, c.2 + 1) else c).lookup n =
      if n = k then (counts.lookup n).map (· + 1) else counts.lookup n := by
  induction counts with
  | nil => split <;> rfl
  | cons c counts ih =>
      obtain ⟨m, i⟩ := c
      rw [List.map_cons, List.lookup_cons]
      by_cases hn : n = m
      · subst hn
        by_cases hk : n = k
        · simp [hk]
        · simp [hk]
      · by_cases hm : m = k
        · simpa [hm, List.lookup_cons, beq_false_of_ne (hm ▸ hn)] using ih
        · simpa [hm, List.lookup_cons, beq_false_of_ne hn] using ih

/-- Counting a name once more adds one for each time that the name is told. -/
theorem sum_bumped (counts : List (String × Nat)) (k : String) :
    ((counts.map fun c => if c.1 == k then (c.1, c.2 + 1) else c).map Prod.snd).sum =
      (counts.map Prod.snd).sum + (counts.map Prod.fst).count k := by
  induction counts with
  | nil => rfl
  | cons c counts ih =>
      simp only [List.map_cons, List.sum_cons, List.count_cons, ih]
      split
      · show c.2 + 1 + _ = _
        omega
      · omega

/-- A name is told when it has been counted. -/
theorem any_iff_lookup (counts : List (String × Nat)) (k : String) :
    (counts.any fun c => c.1 == k) = (counts.lookup k).isSome := by
  induction counts with
  | nil => rfl
  | cons c counts ih =>
      rw [List.any_cons, List.lookup_cons, ih, Bool.beq_comm]
      cases k == c.1 <;> rfl

/-- A tally tells of each name how often it occurs. -/
theorem lookup_tally (names : List String) (n : String) :
    ((tally names).lookup n).getD 0 = names.count n := by
  unfold tally
  induction names using List.reverseRecOn with
  | nil => rfl
  | append_singleton names k ih =>
      rw [List.foldl_append, List.foldl_cons, List.foldl_nil, List.count_append,
        List.count_singleton, ← ih, any_iff_lookup]
      generalize names.foldl _ [] = counts
      by_cases hn : n = k
      · subst hn
        rw [beq_self_eq_true, if_pos rfl]
        cases hk : counts.lookup n with
        | some i =>
            rw [if_pos Option.isSome_some, lookup_bumped, if_pos rfl, hk]
            rfl
        | none =>
            rw [if_neg (fun h => nomatch h), List.lookup_append, hk]
            simp
      · rw [beq_false_of_ne (Ne.symm hn)]
        split
        · rw [lookup_bumped, if_neg hn]
          rfl
        · rw [List.lookup_append]
          simp [List.lookup_cons, beq_false_of_ne hn]

/-- The numbers of a tally add up to the number of names. -/
theorem sum_tally (names : List String) : ((tally names).map Prod.snd).sum = names.length := by
  induction names using List.reverseRecOn with
  | nil => rfl
  | append_singleton names k ih =>
      have hnodup := tally_nodup names
      unfold tally at *
      rw [List.foldl_append, List.foldl_cons, List.foldl_nil, List.length_append, ← ih]
      generalize names.foldl _ [] = counts at *
      split
      · -- a tally tells a name once, so counting it once more adds one
        rename_i hk
        obtain ⟨c, hc, hck⟩ := List.any_eq_true.mp hk
        have hmem : k ∈ counts.map Prod.fst := beq_iff_eq.mp hck ▸ List.mem_map_of_mem hc
        rw [sum_bumped, List.count_eq_one_of_mem hnodup hmem]
        rfl
      · rw [List.map_append, List.sum_append]
        rfl

/-! ## Agreement -/

/-- Do the three measures of a value agree on what they visit? -/
structure Value.Agreed (v : Value) : Prop where
  nulls   : ((tally v.leafTypes).lookup "NoneType").getD 0 = v.countChildren Value.isNull
  total   : ((tally v.leafTypes).map Prod.snd).sum = v.countChildren fun x => !x.isContainer
  leaves  : v.leafTypes = (v.walk 0).filterMap fun x => x.2.leafName?
  counts  : ∀ p, v.countChildren p = (v.walk 0).tail.countP fun x => p x.2
  levels  : (∃ y, (v.nestingDepth, y) ∈ v.walk 0) ∧ ∀ z ∈ v.walk 0, z.1 ≤ v.nestingDepth
  longest : (∃ vs y, v.Descends vs y ∧ vs.length = v.nestingDepth) ∧
    ∀ vs y, v.Descends vs y → vs.length ≤ v.nestingDepth

/-- On a list or a map that is data the measures agree. -/
theorem Value.agreed_of_data {v : Value} (hdata : v.isData = true) (h : v.isContainer = true) :
    v.Agreed where
  nulls   := (lookup_tally _ _).trans (count_leafTypes_null hdata h)
  total   := (sum_tally _).trans (length_leafTypes h)
  leaves  := leafTypes_walk v 0
  counts  := fun p => countChildren_walk p v 0
  levels  := depthFrom_walk v 0
  longest := nestingDepth_longest v

end Workflow
