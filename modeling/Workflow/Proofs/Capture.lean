import Workflow.Proofs.Checkpoint

/-! # Capture — which states a checkpoint can be stored of

    A checkpoint stands in the context as a document, and a document is only so deep.
    Each part of a value stands one level below it; what has a JSON text is refused a
    document for no other reason than its depth.

    The heart is `ofValue_ok_iff`, which tells the depth exactly. -/

namespace Workflow

namespace Value

/-! ## Levels -/

mutual

/-- How many levels below its own a value takes up in a document. -/
def levels : Value → Nat
  | .scalar s  => if Document.isNested s then 1 else 0
  | .thing _ _ => 0
  | .list xs   => levelsOfItems xs
  | .tuple xs  => levelsOfItems xs
  | .set xs    => levelsOfItems xs
  | .dict es   => levelsOfEntries es
  | .up _      => 0

/-- The levels of the items and of what is below them. -/
def levelsOfItems : List Value → Nat
  | []      => 0
  | x :: xs => max (levels x + 1) (levelsOfItems xs)

/-- The levels of the values of entries and of what is below them. -/
def levelsOfEntries : List (Value × Value) → Nat
  | []           => 0
  | (_, v) :: es => max (levels v + 1) (levelsOfEntries es)

end

variable {level n : Nat}

/-- Items fit in when each of them does, one level further down. -/
theorem add_levelsOfItems_le {xs : List Value} (hn : level ≤ n) :
    level + levelsOfItems xs ≤ n ↔ ∀ x ∈ xs, level + 1 + x.levels ≤ n := by
  induction xs with
  | nil => exact ⟨fun _ _ h => absurd h List.not_mem_nil, fun _ => hn⟩
  | cons x xs ih =>
      rw [List.forall_mem_cons, ← ih, levelsOfItems]
      omega

/-- So do the values of entries. -/
theorem add_levelsOfEntries_le {es : Mapping} (hn : level ≤ n) :
    level + levelsOfEntries es ≤ n ↔ ∀ e ∈ es, level + 1 + e.2.levels ≤ n := by
  induction es with
  | nil => exact ⟨fun _ _ h => absurd h List.not_mem_nil, fun _ => hn⟩
  | cons e es ih =>
      rw [List.forall_mem_cons, ← ih, levelsOfEntries]
      omega

theorem levels_dict_le {es : Mapping} :
    (dict es).levels ≤ n ↔ ∀ e ∈ es, 1 + e.2.levels ≤ n := by
  have h : 0 + levelsOfEntries es ≤ n ↔ ∀ e ∈ es, 0 + 1 + e.2.levels ≤ n :=
    add_levelsOfEntries_le (Nat.zero_le n)
  rwa [Nat.zero_add, Nat.zero_add] at h

end Value

/-! ## What has a document -/

namespace Document

variable {level : Nat}

theorem ofItems_ok_iff {xs : List Value} :
    (∃ ds, ofItems level xs = .ok ds) ↔ ∀ x ∈ xs, ∃ d, ofValue level x = .ok d := by
  induction xs with
  | nil => exact ⟨fun _ _ h => absurd h List.not_mem_nil, fun _ => ⟨[], rfl⟩⟩
  | cons x xs ih =>
      rw [List.forall_mem_cons, ← ih]
      constructor
      · rintro ⟨_, h⟩
        obtain ⟨d, hd, h⟩ := exceptBind_ok.mp h
        obtain ⟨ds, hds, _⟩ := exceptBind_ok.mp h
        exact ⟨⟨d, hd⟩, ds, hds⟩
      · rintro ⟨⟨d, hd⟩, ds, hds⟩
        exact ⟨d :: ds, exceptBind_ok.mpr ⟨d, hd, exceptBind_ok.mpr ⟨ds, hds, rfl⟩⟩⟩

theorem ofEntries_ok_iff {es : Mapping} (hkeys : ∀ e ∈ es, ∃ k, keyText e.1 = .ok k) :
    (∃ fs, ofEntries level es = .ok fs) ↔ ∀ e ∈ es, ∃ d, ofValue level e.2 = .ok d := by
  induction es with
  | nil => exact ⟨fun _ _ h => absurd h List.not_mem_nil, fun _ => ⟨[], rfl⟩⟩
  | cons e es ih =>
      obtain ⟨⟨k, hk⟩, hkeys⟩ := List.forall_mem_cons.mp hkeys
      rw [List.forall_mem_cons, ← ih hkeys]
      constructor
      · rintro ⟨_, h⟩
        obtain ⟨_, _, h⟩ := exceptBind_ok.mp h
        obtain ⟨d, hd, h⟩ := exceptBind_ok.mp h
        obtain ⟨fs, hfs, _⟩ := exceptBind_ok.mp h
        exact ⟨⟨d, hd⟩, fs, hfs⟩
      · rintro ⟨⟨d, hd⟩, fs, hfs⟩
        refine ⟨(.str k, d) :: fs, exceptBind_ok.mpr ⟨k, hk, ?_⟩⟩
        exact exceptBind_ok.mpr ⟨d, hd, exceptBind_ok.mpr ⟨fs, hfs, rfl⟩⟩

/-- Of a scalar with a JSON text there is a form for documents. -/
theorem ofScalar_ok {s : Scalar} (h : (Value.scalar s).Encodes) : ∃ d, ofScalar s = .ok d := by
  cases s with
  | bytes b =>
      obtain ⟨cs, hcs⟩ := h
      exact nomatch hcs
  | _ => exact ⟨_, rfl⟩

/-- A key with a JSON text has one in documents. -/
theorem keyText_ok {key : Value} {k : String} (h : Json.keyText key = .ok k) :
    ∃ t, keyText key = .ok t := by
  cases key with
  | scalar s => cases s with
    | bytes b => exact nomatch h
    | _ => exact ⟨_, rfl⟩
  | _ => exact nomatch h

/-- Behind a level that is not too deep, a document is what comes of the rest. -/
theorem checkLevel_bind_ok {α β : Type} {r : Except Failure α} {f : α → β} :
    (∃ d, (checkLevel level >>= fun _ => r >>= fun x => pure (f x)) = .ok d) ↔
      level ≤ depthLimit ∧ ∃ x, r = .ok x := by
  constructor
  · rintro ⟨d, h⟩
    obtain ⟨u, hu, h⟩ := exceptBind_ok.mp h
    obtain ⟨x, hx, _⟩ := exceptBind_ok.mp h
    exact ⟨checkLevel_ok.mp hu, x, hx⟩
  · rintro ⟨hlevel, x, hx⟩
    exact ⟨f x, exceptBind_ok.mpr ⟨(), checkLevel_ok.mpr hlevel,
      exceptBind_ok.mpr ⟨x, hx, rfl⟩⟩⟩

/-- What has a JSON text has a document where none of its parts is too deep. -/
theorem ofValue_ok_iff {v : Value} (hv : v.Encodes) :
    (∃ d, ofValue level v = .ok d) ↔ level + v.levels ≤ depthLimit := by
  have hitems {xs : List Value} {level : Nat} (hxs : ∀ x ∈ xs, x.Encodes)
      (ih : ∀ x ∈ xs, ∀ {level}, x.Encodes →
        ((∃ d, ofValue level x = .ok d) ↔ level + x.levels ≤ depthLimit)) :
      (level ≤ depthLimit ∧ ∃ ds, ofItems (level + 1) xs = .ok ds) ↔
        level + Value.levelsOfItems xs ≤ depthLimit := by
    rw [ofItems_ok_iff, forall₂_congr fun x hx => ih x hx (hxs x hx)]
    constructor
    · exact fun ⟨hlevel, h⟩ => (Value.add_levelsOfItems_le hlevel).mpr h
    · intro h
      have hlevel : level ≤ depthLimit := Nat.le_trans (Nat.le_add_right _ _) h
      exact ⟨hlevel, (Value.add_levelsOfItems_le hlevel).mp h⟩
  induction v using Value.induction generalizing level with
  | scalar s =>
      obtain ⟨d, hd⟩ := ofScalar_ok hv
      have hlevel : level + (Value.scalar s).levels = if isNested s then level + 1 else level := by
        unfold Value.levels
        split
        · rfl
        · rfl
      rw [hlevel]
      constructor
      · rintro ⟨_, h⟩
        obtain ⟨u, hu, _⟩ := exceptBind_ok.mp h
        exact checkLevel_ok.mp hu
      · exact fun h => ⟨d, exceptBind_ok.mpr ⟨(), checkLevel_ok.mpr h, hd⟩⟩
  | list xs ih =>
      refine checkLevel_bind_ok.trans ?_
      exact hitems (Value.encodes_list.mp hv) fun x hx _ hxv => ih x hx hxv
  | tuple xs ih =>
      refine checkLevel_bind_ok.trans ?_
      exact hitems (Value.encodes_tuple.mp hv) fun x hx _ hxv => ih x hx hxv
  | dict es ih =>
      have hes := Value.encodes_dict.mp hv
      have hkeys : ∀ e ∈ es, ∃ k, keyText e.1 = .ok k := by
        intro e he
        obtain ⟨k, hk⟩ := (hes e he).1
        exact keyText_ok hk
      refine checkLevel_bind_ok.trans ?_
      rw [ofEntries_ok_iff hkeys, forall₂_congr fun e he => ih e he (hes e he).2]
      constructor
      · exact fun ⟨hlevel, h⟩ => (Value.add_levelsOfEntries_le hlevel).mpr h
      · intro h
        have hlevel : level ≤ depthLimit := Nat.le_trans (Nat.le_add_right _ _) h
        exact ⟨hlevel, (Value.add_levelsOfEntries_le hlevel).mp h⟩
  | _ =>
      obtain ⟨cs, hcs⟩ := hv
      exact nomatch hcs

/-- So fit context data has a document just when it is not too deep. -/
theorem ofMapping_ok_iff {m : Mapping} (hm : m.Fit) :
    (∃ fs, ofMapping m = .ok fs) ↔ (Value.dict m).levels ≤ depthLimit := by
  have hkeys : ∀ e ∈ m, ∃ k, keyText e.1 = .ok k := by
    intro e he
    obtain ⟨k, hk⟩ := Mapping.keyText_of_isText (hm e he).1
    exact keyText_ok hk
  have hvalues : (∃ es, ofEntries 1 m = .ok es) ↔ ∀ e ∈ m, 1 + e.2.levels ≤ depthLimit := by
    rw [ofEntries_ok_iff hkeys]
    exact forall₂_congr fun e he => ofValue_ok_iff (hm e he).2
  rw [Value.levels_dict_le, ← hvalues]
  constructor
  · rintro ⟨fs, h⟩
    obtain ⟨es, hes, _⟩ := exceptBind_ok.mp h
    exact ⟨es, hes⟩
  · rintro ⟨es, hes⟩
    exact ⟨_, exceptBind_ok.mpr ⟨es, hes, rfl⟩⟩

end Document

/-! ## Captures -/

namespace Lax

/-- The entries of a map, with the texts that its keys stand for as keys. -/
def respelled (m : Mapping) : Mapping := m.map fun e => (.str ((textOf? e.1).getD ""), e.2)

variable {m : Mapping}

theorem keys_respelled (m : Mapping) : ∀ e ∈ respelled m, ∃ t, e.1 = .str t := by
  intro e he
  obtain ⟨x, _, rfl⟩ := List.mem_map.mp he
  exact ⟨_, rfl⟩

/-- They are the same texts, where the keys are texts already. -/
theorem texts_respelled (htexts : m.Texts) :
    (respelled m).map (fun e => e.1.toText?) = m.map fun e => e.1.toText? := by
  rw [respelled, List.map_map]
  refine List.map_congr_left fun e he => ?_
  obtain ⟨t, ht⟩ := Option.isSome_iff_exists.mp (htexts e he)
  show some ((textOf? e.1).getD "") = e.1.toText?
  rw [textOf?_of_isText (htexts e he), ht]
  rfl

/-- So they are all different if those were. -/
theorem ofEntries_respelled (htexts : m.Texts) (hnodup : (m.map fun e => e.1.toText?).Nodup) :
    Mapping.ofEntries (respelled m) = respelled m := by
  refine Mapping.ofEntries_distinct (keys_respelled m) ?_
  rwa [← Value.nodup_texts_iff (keys_respelled m), texts_respelled htexts]

/-- Fit context data is read with its keys respelled. -/
theorem mapping_of_fit (hm : m.Fit) (path : String) :
    mapping path (.dict m) = .ok (Mapping.ofEntries (respelled m)) := by
  have hall : m.all (fun e => (textOf? e.1).isSome) = true := by
    refine List.all_eq_true.mpr fun e he => ?_
    rw [textOf?_of_isText (hm e he).1]
    exact (hm e he).1
  unfold mapping entries
  dsimp only
  rw [if_pos hall, hm.copy]
  rfl

end Lax

namespace Checkpoint

variable {e : Execution} {m : Mapping}

/-- A map with texts as keys is read.  What is read holds what was there, and all of it
    when no two keys are the same text. -/
theorem mapping_ok (hm : m.Fit) (path : String) :
    ∃ m', Lax.mapping path (.dict m) = .ok m' ∧ (∀ x ∈ m', ∃ y ∈ m, x.2 = y.2) ∧
      ((m.map fun x => x.1.toText?).Nodup → ∀ y ∈ m, ∃ x ∈ m', x.2 = y.2) := by
  refine ⟨_, Lax.mapping_of_fit hm path, ?_, ?_⟩
  · intro x hx
    obtain ⟨y, hy, rfl⟩ := List.mem_map.mp (Mapping.mem_ofEntries (Lax.keys_respelled m) x hx)
    exact ⟨y, hy, rfl⟩
  · intro hnodup y hy
    rw [Lax.ofEntries_respelled (fun x hx => (hm x hx).1) hnodup]
    exact ⟨_, List.mem_map.mpr ⟨y, hy, rfl⟩, rfl⟩

theorem copyTop_of_fit (hm : m.Fit) :
    m.copyTop (fun k => !(Value.str checkpointsKey).equal k) = m.erase checkpointsKey :=
  Mapping.copyTop_of_closed fun x hx _ => (hm x hx).2.closed

/-- Fit context data is captured at a text, and when it is not too deep without its
    checkpoints, what is captured has a document. -/
theorem capture_fit (he : e.context = .dict m) (hm : m.Fit) {step : String}
    (hstep : Lax.textOf? e.currentStep = some step)
    (hlevels : (e.context.without (.str checkpointsKey)).levels ≤ Document.depthLimit)
    (label : String) (now : Timestamp) (s : Serials) :
    ∃ c d, (capture e (.str label)).runAt now s =
        (.ok c, { s with checkpoints := s.checkpoints + 1 }) ∧
      c.capturedStep = step ∧ c.document = .ok d := by
  have hkept : (m.erase checkpointsKey).Fit := hm.filter _
  obtain ⟨captured, hcaptured, hvalues, _⟩ := mapping_ok hkept "captured_context"
  obtain ⟨fs, hfs⟩ : ∃ fs, Document.ofMapping captured = .ok fs := by
    refine (Document.ofMapping_ok_iff (mapping_fit hkept.encodes hcaptured)).mpr ?_
    refine Value.levels_dict_le.mpr fun x hx => ?_
    obtain ⟨y, hy, hxy⟩ := hvalues x hx
    rw [he] at hlevels
    rw [hxy]
    exact Value.levels_dict_le.mp hlevels y hy
  obtain ⟨c, hc⟩ : ∃ c, c = taken e s!"cp-{s.checkpoints + 1}" now label step captured := ⟨_, rfl⟩
  refine ⟨c, .record (c.columns (.dict fs)), ?_, hc ▸ rfl, ?_⟩
  · rw [hc]
    exact runAt_capture he hstep (copyTop_of_fit hm ▸ hcaptured) label now s
  · have hcontext : c.contextDocument = .ok (.dict fs) := by
      unfold contextDocument
      rw [hc]
      exact exceptMap_ok.mpr ⟨fs, hfs, rfl⟩
    rw [document_eq, hcontext]
    rfl

/-- Of fit context data in which no two keys are the same text, what is captured has a
    document only when it is not too deep. -/
theorem levels_of_capture (he : e.context = .dict m) (hm : m.Fit)
    (hkeys : (m.map fun x => x.1.toText?).Nodup) {c : Checkpoint} {label d : Value}
    {now : Timestamp} {s s' : Serials} (hcapture : (capture e label).runAt now s = (.ok c, s'))
    (hdoc : c.document = .ok d) :
    (e.context.without (.str checkpointsKey)).levels ≤ Document.depthLimit := by
  obtain ⟨label', step, captured, _, _, hcaptured, rfl, _⟩ := capture_ok he hcapture
  have hkept : (m.erase checkpointsKey).Fit := hm.filter _
  have hkept_keys : ((m.erase checkpointsKey).map fun x => x.1.toText?).Nodup :=
    hkeys.sublist (List.filter_sublist.map _)
  obtain ⟨captured', hcaptured', _, hvalues⟩ := mapping_ok hkept "captured_context"
  rw [copyTop_of_fit hm, hcaptured'] at hcaptured
  obtain rfl := Checked.ok.inj hcaptured
  obtain ⟨v, hv, _⟩ := document_columns hdoc
  obtain ⟨fs, hfs, _⟩ := exceptMap_ok.mp hv
  have hlevels := (Document.ofMapping_ok_iff (mapping_fit hkept.encodes hcaptured')).mp ⟨fs, hfs⟩
  rw [he]
  refine Value.levels_dict_le.mpr fun y hy => ?_
  obtain ⟨x, hx, hxy⟩ := hvalues hkept_keys y hy
  rw [← hxy]
  exact Value.levels_dict_le.mp hlevels x hx

end Checkpoint

end Workflow
