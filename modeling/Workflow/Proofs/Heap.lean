import Mathlib.Data.Fintype.Card
import Mathlib.Logic.Relation
import Workflow.Proofs.Walk

/-! # Heap — walking containers that stand in memory

    A context is made of containers that are known by where they stand: one of them may be
    shared, and may hold itself.  A walk carries the containers that it has come through and
    stops where it meets one of them again.  It ends, as each step leaves one container less
    that it has not come through, and it finds what is found in the value that the context
    unfolds to, where a container that is met again is a reference to the enclosing one.

    The heart is `path_induction`: the one measure that all walks go down by. -/

namespace Workflow

/-- What stands in one of `n` containers: a scalar, or a container. -/
inductive Cell (n : Nat) where
  | atom (s : Scalar)
  | box (i : Fin n)

/-- A container: a list or a map. -/
inductive Box (n : Nat) where
  | list (cells : List (Cell n))
  | dict (entries : List (Value × Cell n))

/-- What the container holds, in order. -/
def Box.cells {n : Nat} : Box n → List (Cell n)
  | .list cs => cs
  | .dict es => es.map Prod.snd

/-- The containers in memory, by where they stand. -/
def Heap (n : Nat) : Type := Fin n → Box n

namespace Heap

variable {n : Nat} {h : Heap n} {i j : Fin n} {c d : Cell n} {path is : List (Fin n)}

/-- How many containers the path has not come through. -/
def room (path : List (Fin n)) : Nat := (Finset.univ \ path.toFinset).card

theorem room_lt (hi : i ∉ path) : room (i :: path) < room path := by
  refine Finset.card_lt_card ((Finset.ssubset_iff_of_subset fun j hj => ?_).mpr ⟨i, ?_, ?_⟩)
  · simp only [Finset.mem_sdiff, Finset.mem_univ, List.mem_toFinset, true_and, List.mem_cons,
      not_or] at hj ⊢
    exact hj.2
  · simpa using hi
  · simp

/-- Induction along the walks: a cell is a scalar, a container that is on the path, or one
    that the path goes on with. -/
theorem path_induction {motive : List (Fin n) → Cell n → Prop}
    (atom : ∀ path s, motive path (.atom s))
    (met : ∀ path i, i ∈ path → motive path (.box i))
    (new : ∀ path i, i ∉ path → (∀ c, motive (i :: path) c) → motive path (.box i)) :
    ∀ path c, motive path c
  | path, .atom s => atom path s
  | path, .box i  =>
    if hi : i ∈ path then met path i hi
    else new path i hi fun c => path_induction atom met new (i :: path) c
termination_by path => room path
decreasing_by exact room_lt hi

/-! ## Walks that carry a path -/

/-- Length of the longest chain of containers from a cell down, counted from `level`. -/
def depth (h : Heap n) (level : Nat) (path : List (Fin n)) : Cell n → Nat
  | .atom _ => level
  | .box i  =>
    if i ∈ path then level
    else ((h i).cells.map fun c => depth h (level + 1) (i :: path) c).max?.getD level
termination_by room path
decreasing_by exact room_lt ‹_›

/-- The type names of all leaves, in order. -/
def leafTypes (h : Heap n) (path : List (Fin n)) : Cell n → List String
  | .atom s => [s.typeName]
  | .box i  =>
    if i ∈ path then [] else (h i).cells.flatMap fun c => leafTypes h (i :: path) c
termination_by room path
decreasing_by exact room_lt ‹_›

/-- Number of cells, at any depth, that satisfy `q`. -/
def count (h : Heap n) (q : Cell n → Bool) (path : List (Fin n)) : Cell n → Nat
  | .atom _ => 0
  | .box i  =>
    if i ∈ path then 0
    else (h i).cells.countP q + ((h i).cells.map fun c => count h q (i :: path) c).sum
termination_by room path
decreasing_by exact room_lt ‹_›

/-- The value that a cell unfolds to, where a container on the path is a reference to it. -/
def value (h : Heap n) (path : List (Fin n)) : Cell n → Value
  | .atom s => .scalar s
  | .box i  =>
    if i ∈ path then .up (path.idxOf i + 1)
    else match h i with
    | .list cs => .list (cs.map fun c => value h (i :: path) c)
    | .dict es => .dict (es.map fun e => (e.1, value h (i :: path) e.2))
termination_by room path
decreasing_by all_goals exact room_lt ‹_›

/-! ## The walks and the value -/

theorem value_met (hi : i ∈ path) : h.value path (.box i) = .up (path.idxOf i + 1) := by
  rw [value, if_pos hi]

/-- A container unfolds to one whose parts are what its cells unfold to. -/
theorem parts_value (hi : i ∉ path) :
    (h.value path (.box i)).parts = (h i).cells.map (h.value (i :: path)) := by
  rw [value, if_neg hi]
  cases h i with
  | list cs => rfl
  | dict es =>
      show (es.map fun e => (e.1, h.value (i :: path) e.2)).map Prod.snd =
        (es.map Prod.snd).map (h.value (i :: path))
      rw [List.map_map, List.map_map]
      rfl

theorem isContainer_value (i : Fin n) : (h.value path (.box i)).isContainer = true := by
  rw [value]
  split
  · rfl
  · cases h i <;> rfl

/-- Is it a container, or a scalar that JSON has a form for? -/
def isDatum : Cell n → Bool
  | .atom s => (Value.scalar s).isDatum
  | .box _  => true

/-- Are all scalars in memory such that JSON has a form for them? -/
def IsData (h : Heap n) : Prop := ∀ i, ∀ c ∈ (h i).cells, isDatum c = true

instance (h : Heap n) : Decidable h.IsData :=
  inferInstanceAs (Decidable (∀ i, ∀ c ∈ (h i).cells, isDatum c = true))

/-- What stands in memory unfolds to data. -/
theorem IsData.value (hdata : h.IsData) (path : List (Fin n)) (i : Fin n) :
    (h.value path (.box i)).isData = true := by
  have hcell (c : Cell n) (hc : isDatum c = true) : (h.value path c).isData = true := by
    induction path, c using path_induction with
    | atom path s =>
        rw [Heap.value]
        exact hc
    | met path i hi =>
        rw [value_met hi]
        rfl
    | new path i hi ih =>
        have hcells (c : Cell n) (hmem : c ∈ (h i).cells) :
            (h.value (i :: path) c).isData = true := ih c (hdata i c hmem)
        rw [Heap.value, if_neg hi]
        cases hbox : h i with
        | list cs =>
            refine Value.throughout_list.mpr ⟨rfl, fun x hx => ?_⟩
            obtain ⟨c, hc, rfl⟩ := List.mem_map.mp hx
            exact hcells c (hbox ▸ hc)
        | dict es =>
            refine Value.throughout_dict.mpr ⟨rfl, fun x hx => ?_⟩
            obtain ⟨e, he, rfl⟩ := List.mem_map.mp hx
            exact hcells e.2 (hbox ▸ List.mem_map_of_mem he)
  exact hcell (.box i) rfl

/-- The depth that is found in memory is the depth of the value. -/
theorem depth_value (path : List (Fin n)) (c : Cell n) (level : Nat) :
    h.depth level path c = (h.value path c).depthFrom level := by
  induction path, c using path_induction generalizing level with
  | atom path s =>
      rw [depth, value]
      rfl
  | met path i hi =>
      rw [depth, if_pos hi, value_met hi]
      rfl
  | new path i hi ih =>
      rw [depth, if_neg hi, Value.depthFrom_eq, parts_value hi, List.map_map]
      exact congrArg (fun xs : List Nat => xs.max?.getD level)
        (List.map_congr_left fun c _ => ih c (level + 1))

/-- The leaves that are found in memory are the leaves of the value. -/
theorem leafTypes_value (path : List (Fin n)) (c : Cell n) :
    h.leafTypes path c = (h.value path c).leafTypes := by
  induction path, c using path_induction with
  | atom path s =>
      rw [leafTypes, value]
      rfl
  | met path i hi =>
      rw [leafTypes, if_pos hi, value_met hi]
      rfl
  | new path i hi ih =>
      rw [leafTypes, if_neg hi, Value.leafTypes_eq (isContainer_value i), parts_value hi,
        List.flatMap_map]
      exact List.flatMap_congr fun c _ => ih c

/-- What is counted in memory is counted in the value, by a test that can be put to
    both. -/
theorem count_value {q : Cell n → Bool} {p : Value → Bool}
    (hq : ∀ path c, p (h.value path c) = q c) (path : List (Fin n)) (c : Cell n) :
    h.count q path c = (h.value path c).countChildren p := by
  induction path, c using path_induction with
  | atom path s =>
      rw [count, value]
      rfl
  | met path i hi =>
      rw [count, if_pos hi, value_met hi]
      rfl
  | new path i hi ih =>
      rw [count, if_neg hi, Value.countChildren_eq, parts_value hi, List.countP_map, List.map_map]
      have hcells : (h i).cells.countP (p ∘ h.value (i :: path)) = (h i).cells.countP q :=
        List.countP_congr fun c _ => by rw [Function.comp_apply, hq]
      rw [hcells, List.map_congr_left fun c _ => ih c]
      rfl

/-! ## Chains of containers -/

/-- The containers that are gone through on the way from a cell down to another. -/
inductive Descends (h : Heap n) : Cell n → List (Fin n) → Cell n → Prop where
  | stop (c : Cell n) : Descends h c [] c
  | down {i : Fin n} {c d : Cell n} {is : List (Fin n)} (hc : c ∈ (h i).cells)
      (hd : Descends h c is d) : Descends h (.box i) (i :: is) d

/-- A chain in the value comes from a chain in memory that goes through no container twice,
    and through none that is on the path. -/
theorem exists_descends {vs : List Value} {y : Value}
    (hvs : Value.Descends (h.value path c) vs y) :
    ∃ is d, h.Descends c is d ∧ is.Nodup ∧ (∀ i ∈ is, i ∉ path) ∧ is.length = vs.length := by
  have hstop {path : List (Fin n)} {c : Cell n} : ∃ is d, h.Descends c is d ∧ is.Nodup ∧
      (∀ i ∈ is, i ∉ path) ∧ is.length = ([] : List Value).length :=
    ⟨[], c, .stop c, List.nodup_nil, fun _ hi => absurd hi List.not_mem_nil, rfl⟩
  -- only a container that is not on the path unfolds to parts that a chain could go on with
  induction path, c using path_induction generalizing vs with
  | atom path s =>
      rw [value] at hvs
      cases hvs with
      | stop => exact hstop
      | down hx _ => exact absurd hx List.not_mem_nil
  | met path i hi =>
      rw [value_met hi] at hvs
      cases hvs with
      | stop => exact hstop
      | down hx _ => exact absurd hx List.not_mem_nil
  | new path i hi ih =>
      cases hvs with
      | stop => exact hstop
      | down hx hvs =>
          rw [parts_value hi] at hx
          obtain ⟨c, hc, rfl⟩ := List.mem_map.mp hx
          obtain ⟨is, d, hd, hnodup, hfree, hlength⟩ := ih c hvs
          refine ⟨i :: is, d, .down hc hd, List.nodup_cons.mpr ⟨fun hmem => ?_, hnodup⟩,
            List.forall_mem_cons.mpr ⟨hi, fun j hj hmem => ?_⟩, congrArg Nat.succ hlength⟩
          · exact hfree i hmem List.mem_cons_self
          · exact hfree j hj (List.mem_cons_of_mem i hmem)

/-- Every such chain in memory is one in the value. -/
theorem Descends.value (hd : h.Descends c is d) (hnodup : is.Nodup)
    (hfree : ∀ i ∈ is, i ∉ path) :
    ∃ vs y, Value.Descends (h.value path c) vs y ∧ vs.length = is.length := by
  induction hd generalizing path with
  | stop c => exact ⟨[], _, .stop _, rfl⟩
  | @down i c d is hc hd ih =>
      obtain ⟨hi, hnodup⟩ := List.nodup_cons.mp hnodup
      obtain ⟨hpath, hfree⟩ := List.forall_mem_cons.mp hfree
      have hfree : ∀ j ∈ is, j ∉ i :: path := by
        intro j hj hmem
        rcases List.mem_cons.mp hmem with rfl | hmem
        · exact hi hj
        · exact hfree j hj hmem
      obtain ⟨vs, y, hvs, hlength⟩ := ih hnodup hfree
      exact ⟨_, y, .down (parts_value hpath ▸ List.mem_map_of_mem hc) hvs,
        congrArg Nat.succ hlength⟩

/-- The depth that is found in memory is the length of the longest chain that goes through
    no container twice. -/
theorem depth_longest (h : Heap n) (c : Cell n) :
    (∃ is d, h.Descends c is d ∧ is.Nodup ∧ is.length = h.depth 0 [] c) ∧
      ∀ is d, h.Descends c is d → is.Nodup → is.length ≤ h.depth 0 [] c := by
  rw [depth_value]
  obtain ⟨⟨vs, y, hvs, hlength⟩, hle⟩ := Value.nestingDepth_longest (h.value [] c)
  constructor
  · obtain ⟨is, d, hd, hnodup, -, his⟩ := exists_descends hvs
    exact ⟨is, d, hd, hnodup, his.trans hlength⟩
  · intro is d hd hnodup
    have hfree : ∀ i ∈ is, i ∉ [] := fun _ _ => List.not_mem_nil
    obtain ⟨vs, y, hvs, his⟩ := hd.value hnodup hfree
    exact his ▸ hle vs y hvs

/-- No walk goes deeper than there are containers. -/
theorem depth_le (h : Heap n) (c : Cell n) : h.depth 0 [] c ≤ n := by
  obtain ⟨⟨is, d, -, hnodup, hlength⟩, -⟩ := depth_longest h c
  rw [← hlength]
  exact hnodup.length_le_card.trans_eq (Fintype.card_fin n)

/-- Does one container hold another? -/
def Holds (h : Heap n) (i j : Fin n) : Prop := Cell.box j ∈ (h i).cells

/-- Does no container that is reached from this one lead back to itself? -/
def Acyclic (h : Heap n) (i : Fin n) : Prop :=
  ∀ j, Relation.ReflTransGen h.Holds i j → ¬Relation.TransGen h.Holds j j

/-- Each container on a chain is reached from the cell where it begins. -/
theorem Descends.reaches (hd : h.Descends c is d) (hj : j ∈ is) :
    ∃ i, c = .box i ∧ Relation.ReflTransGen h.Holds i j := by
  induction hd with
  | stop c => exact absurd hj List.not_mem_nil
  | @down i c d is hc _ ih =>
      refine ⟨i, rfl, ?_⟩
      rcases List.mem_cons.mp hj with rfl | hj
      · exact .refl
      · obtain ⟨k, rfl, hk⟩ := ih hj
        exact .head hc hk

/-- Without a cycle no chain goes through a container twice. -/
theorem Descends.nodup (hd : h.Descends c is d) (hacyclic : ∀ i, c = .box i → h.Acyclic i) :
    is.Nodup := by
  induction hd with
  | stop c => exact List.nodup_nil
  | @down i c d is hc hd ih =>
      have hi : h.Acyclic i := hacyclic i rfl
      refine List.nodup_cons.mpr ⟨fun hmem => ?_, ih ?_⟩
      · -- met again, the container would lead back to itself
        obtain ⟨k, rfl, hk⟩ := hd.reaches hmem
        exact hi i .refl (.head' hc hk)
      · rintro k rfl
        exact fun j hj => hi j (.head hc hj)

/-! ## What is found in memory -/

/-- Is it null? -/
def isNull : Cell n → Bool
  | .atom .null => true
  | _           => false

/-- Is it no container? -/
def isLeaf : Cell n → Bool
  | .atom _ => true
  | .box _  => false

theorem isNull_value (path : List (Fin n)) (c : Cell n) :
    (h.value path c).isNull = isNull c := by
  cases c with
  | atom s =>
      rw [value]
      cases s <;> rfl
  | box i =>
      have hcontainer : (h.value path (.box i)).isContainer = true := isContainer_value i
      cases hv : h.value path (.box i) with
      | scalar s => exact nomatch (hv ▸ hcontainer : (Value.scalar s).isContainer = true)
      | _ => rfl

theorem isLeaf_value (path : List (Fin n)) (c : Cell n) :
    (!(h.value path c).isContainer) = isLeaf c := by
  cases c with
  | atom s =>
      rw [value]
      rfl
  | box i =>
      rw [isContainer_value]
      rfl

/-- Do the walks through memory find just the measures of the value, no deeper than there
    are containers, and without a cycle the longest chain of containers? -/
structure Measures (h : Heap n) (root : Fin n) (v : Value) : Prop where
  depth   : h.depth 0 [] (.box root) = v.nestingDepth
  leaves  : h.leafTypes [] (.box root) = v.leafTypes
  nulls   : h.count isNull [] (.box root) = v.countChildren Value.isNull
  total   : h.count isLeaf [] (.box root) = v.countChildren fun x => !x.isContainer
  bounded : v.nestingDepth ≤ n
  longest : h.Acyclic root →
    (∃ is d, h.Descends (.box root) is d ∧ is.length = v.nestingDepth) ∧
      ∀ is d, h.Descends (.box root) is d → is.length ≤ v.nestingDepth

theorem measures_value (h : Heap n) (root : Fin n) :
    h.Measures root (h.value [] (.box root)) := by
  have hdepth : h.depth 0 [] (.box root) = (h.value [] (.box root)).nestingDepth :=
    depth_value [] _ 0
  obtain ⟨⟨is, d, hd, -, his⟩, hle⟩ := depth_longest h (.box root)
  rw [hdepth] at his hle
  refine ⟨hdepth, leafTypes_value [] _, count_value isNull_value [] _, count_value isLeaf_value [] _,
    hdepth ▸ depth_le h _, fun hacyclic => ⟨⟨is, d, hd, his⟩, fun is d hd => hle is d hd ?_⟩⟩
  refine hd.nodup ?_
  rintro i hi
  rw [← Cell.box.inj hi]
  exact hacyclic

end Heap

/-- Wherever lists, maps and scalars stand in memory, the walks that carry a path end, find
    the measures of the value that is unfolded, and agree on what they visit.  These
    measures, of the public part of a context, are what is reported. -/
theorem context_walks_agree :
    (∀ (n : Nat) (h : Heap n) (root : Fin n), h.IsData →
      (h.value [] (.box root)).Agreed ∧ h.Measures root (h.value [] (.box root))) ∧
    ∀ (e : Execution) (entries : Mapping), e.context = .dict entries →
      e.context.isData = true → ∃ m, e.publicContext = .ok m ∧ (Value.dict m).Agreed ∧
        Engine.contextAnalysis e = .ok (.record
          [ ("total_keys", .nat m.length),
            ("nested_levels", .nat (Value.dict m).nestingDepth),
            ("data_types", tallyValue (Value.dict m).leafTypes),
            ("size_estimate", .int e.contextSize),
            ("null_values", .nat ((Value.dict m).countChildren Value.isNull)),
            ("empty_collections",
              .nat ((Value.dict m).countChildren Value.isEmptyCollection)) ]) := by
  constructor
  · intro n h root hdata
    exact ⟨Value.agreed_of_data (hdata.value [] root) (Heap.isContainer_value root),
      h.measures_value root⟩
  · intro e entries he hdata
    have hm : e.publicContext = .ok (entries.copyTop fun k => !isReserved k) := by
      unfold Execution.publicContext Execution.entries
      rw [he]
      rfl
    refine ⟨_, hm, Value.agreed_of_data (Value.isData_copyTop (he ▸ hdata)) rfl, ?_⟩
    unfold Engine.contextAnalysis
    rw [hm]
    rfl

/-- A map that holds itself and a list, which holds null and the map; it is seen through a
    copy of its top level. -/
def loopedHeap : Heap 3
  | 0 => .dict [(.str "self", .box 1), (.str "items", .box 2)]
  | 1 => .dict [(.str "self", .box 1), (.str "items", .box 2)]
  | 2 => .list [.atom .null, .box 1]

theorem loopedHeap_value : loopedHeap.value [] (.box 0) = .dict
    [ (.str "self", .dict [(.str "self", .up 1), (.str "items", .list [.null, .up 2])]),
      (.str "items", .list [.null, .dict [(.str "self", .up 1), (.str "items", .up 2)]]) ] := by
  simp [Heap.value, loopedHeap]

/-- A map that holds the same list twice. -/
def sharedHeap : Heap 2
  | 0 => .dict [(.str "left", .box 1), (.str "right", .box 1)]
  | 1 => .list [.atom .null]

theorem sharedHeap_value : sharedHeap.value [] (.box 0) = .dict
    [(.str "left", .list [.null]), (.str "right", .list [.null])] := by
  simp [Heap.value, sharedHeap]

theorem sharedHeap_acyclic : sharedHeap.Acyclic 0 := by
  have hlt : ∀ i j, sharedHeap.Holds i j → i < j := by
    intro i j hij
    unfold Heap.Holds at hij
    match i with
    | 0 =>
        have hj : j = 1 := by simpa [sharedHeap, Box.cells] using hij
        rw [hj]
        decide
    | 1 => simp [sharedHeap, Box.cells] at hij
  intro j _ hj
  have htrans : ∀ k, Relation.TransGen sharedHeap.Holds j k → j < k := by
    intro k hk
    induction hk with
    | single h => exact hlt _ _ h
    | tail _ h ih => exact ih.trans (hlt _ _ h)
  exact lt_irrefl j (htrans j hj)

/-- A crate whose context is the looped map. -/
def loopedCrate : Execution :=
  { crate "exec-1" .null with
    context := .dict [(.str "self", .up 1), (.str "items", .list [.null, .up 2])] }

/-- The looped context is three levels deep, and two of its leaves are null; the shared one
    is as deep as its longest chain of containers. -/
theorem loopedCrate_walks_agree :
    (∃ m, loopedCrate.publicContext = .ok m ∧ loopedHeap.value [] (.box 0) = .dict m ∧
      loopedHeap.depth 0 [] (.box 0) = 3 ∧
      ((tally (Value.dict m).leafTypes).lookup "NoneType").getD 0 = 2) ∧
    ∃ is d, sharedHeap.Descends (.box 0) is d ∧ is.length = 2 := by
  obtain ⟨hmemory, hreport⟩ := context_walks_agree
  constructor
  · obtain ⟨m, hm, hagreed, -⟩ := hreport loopedCrate _ rfl (by decide +kernel)
    obtain ⟨-, hmeasures⟩ := hmemory 3 loopedHeap 0 (by decide)
    refine ⟨m, hm, loopedHeap_value.trans (congrArg Value.dict (Except.ok.inj hm)),
      hmeasures.depth.trans ?_, hagreed.nulls.trans ?_⟩
    · rw [loopedHeap_value]
      rfl
    · rw [← Except.ok.inj hm]
      rfl
  · obtain ⟨-, hmeasures⟩ := hmemory 2 sharedHeap 0 (by decide)
    obtain ⟨⟨is, d, hd, hlength⟩, -⟩ := hmeasures.longest sharedHeap_acyclic
    refine ⟨is, d, hd, hlength.trans ?_⟩
    rw [sharedHeap_value]
    rfl

end Workflow
