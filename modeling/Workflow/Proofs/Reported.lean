import Workflow.Proofs.Json
import Workflow.Proofs.Likeness
import Workflow.Proofs.Traversal

/-! # Reported — the report of an error is JSON data

    An error report keeps what JSON has a form for and puts a text, a list or a map in
    the place of all else, whatever is nested in what.  So it is written as JSON, reads
    back as what it was, and reporting it again changes nothing.

    The heart is `reported_induction`: what a report is made of, part by part.  There is
    one way to fail: an integer with too many digits to be shown. -/

namespace Workflow

namespace Value

variable {v w : Value} {r : JsonRefusal}

/-! ## Tests of all parts -/

theorem anyCyclic_eq_false {xs : List Value} :
    anyCyclic xs = false ↔ ∀ x ∈ xs, x.isCyclic = false := by
  induction xs with
  | nil => exact ⟨fun _ _ h => absurd h List.not_mem_nil, fun _ => rfl⟩
  | cons x xs ih => rw [anyCyclic, Bool.or_eq_false_iff, ih, List.forall_mem_cons]

theorem anyCyclicEntry_eq_false {es : Mapping} :
    anyCyclicEntry es = false ↔ ∀ e ∈ es, e.2.isCyclic = false := by
  induction es with
  | nil => exact ⟨fun _ _ h => absurd h List.not_mem_nil, fun _ => rfl⟩
  | cons e es ih => rw [anyCyclicEntry, Bool.or_eq_false_iff, ih, List.forall_mem_cons]

theorem anyLong_of_mem {xs : List Value} {x : Value} (hx : x ∈ xs)
    (h : x.holdsLong = true) : anyLong xs = true := by
  induction xs with
  | nil => exact absurd hx List.not_mem_nil
  | cons y xs ih =>
      rw [anyLong, Bool.or_eq_true]
      rcases List.mem_cons.mp hx with rfl | hx
      · exact .inl h
      · exact .inr (ih hx)

theorem anyLongEntry_of_mem {es : Mapping} {e : Value × Value} (he : e ∈ es)
    (h : e.1.holdsLong = true ∨ e.2.holdsLong = true) : anyLongEntry es = true := by
  induction es with
  | nil => exact absurd he List.not_mem_nil
  | cons f es ih =>
      rw [anyLongEntry, Bool.or_eq_true, Bool.or_eq_true]
      rcases List.mem_cons.mp he with rfl | he
      · exact .inl h
      · exact .inr (ih he)

/-! ## What a report is made of -/

theorem reportedItems_eq (xs : List Value) : reportedItems xs = xs.mapM reported := by
  induction xs with
  | nil => rfl
  | cons x xs ih => rw [reportedItems, ih, List.mapM_cons]

/-- An entry is reported with its key as a text. -/
def reportedEntry (e : Value × Value) : Except JsonRefusal (Value × Value) := do
  let key ← keyDisplay e.1
  let w ← reported e.2
  pure (.str key, w)

theorem reportedEntries_eq (es : Mapping) : reportedEntries es = es.mapM reportedEntry := by
  induction es with
  | nil => rfl
  | cons e es ih =>
      rw [reportedEntries, ih, List.mapM_cons, reportedEntry]
      simp only [bind_assoc, pure_bind]

theorem exists_of_reportedItems {xs ys : List Value} (h : reportedItems xs = .ok ys) :
    ∀ y ∈ ys, ∃ x ∈ xs, x.reported = .ok y :=
  exists_of_mapM_ok (reportedItems_eq xs ▸ h)

theorem exists_of_reportedEntries {es fs : Mapping} (h : reportedEntries es = .ok fs) :
    ∀ f ∈ fs, (∃ k, f.1 = .str k) ∧ ∃ e ∈ es, e.2.reported = .ok f.2 := by
  intro f hf
  obtain ⟨e, he, h⟩ := exists_of_mapM_ok (reportedEntries_eq es ▸ h) f hf
  obtain ⟨key, _, h⟩ := exceptBind_ok.mp h
  obtain ⟨w, hw, h⟩ := exceptBind_ok.mp h
  rw [← Except.ok.inj h]
  exact ⟨⟨key, rfl⟩, e, he, hw⟩

/-- Induction over values and their reports.  The map of a report has texts as keys, each
    of them once. -/
theorem reported_induction {motive : Value → Value → Prop}
    (scalar : ∀ s, motive (.scalar s) s.reported)
    (thing : ∀ c id, motive (.thing c id) (.str (Value.thing c id).display))
    (list : ∀ {xs ys}, (∀ y ∈ ys, ∃ x ∈ xs, motive x y) → motive (.list xs) (.list ys))
    (tuple : ∀ {xs ys}, (∀ y ∈ ys, ∃ x ∈ xs, motive x y) → motive (.tuple xs) (.list ys))
    (set : ∀ {xs ys}, (∀ y ∈ ys, ∃ x ∈ xs, motive x y) → motive (.set xs) (.list ys))
    (dict : ∀ {es fs : Mapping}, (∀ f ∈ fs, ∃ k, f.1 = .str k) → (fs.map Prod.fst).Nodup →
      (∀ f ∈ fs, ∃ e ∈ es, motive e.2 f.2) → motive (.dict es) (.dict fs))
    (up : ∀ n, motive (.up n) (.up n)) (h : v.reported = .ok w) : motive v w := by
  have hitems {xs ys : List Value} (h : reportedItems xs = .ok ys)
      (ih : ∀ x ∈ xs, ∀ {w}, x.reported = .ok w → motive x w) :
      ∀ y ∈ ys, ∃ x ∈ xs, motive x y := by
    intro y hy
    obtain ⟨x, hx, hxy⟩ := exists_of_reportedItems h y hy
    exact ⟨x, hx, ih x hx hxy⟩
  induction v using Value.induction generalizing w with
  | scalar s =>
      rw [← Except.ok.inj h]
      exact scalar s
  | thing c id =>
      rw [← Except.ok.inj h]
      exact thing c id
  | list xs ih =>
      obtain ⟨ys, hys, rfl⟩ := exceptMap_ok.mp h
      exact list (hitems hys fun x hx _ => ih x hx)
  | tuple xs ih =>
      obtain ⟨ys, hys, rfl⟩ := exceptMap_ok.mp h
      exact tuple (hitems hys fun x hx _ => ih x hx)
  | set xs ih =>
      obtain ⟨ys, hys, rfl⟩ := exceptMap_ok.mp h
      exact set (hitems hys fun x hx _ => ih x hx)
  | dict es ih =>
      obtain ⟨fs, hfs, rfl⟩ := exceptMap_ok.mp h
      have hmem := exists_of_reportedEntries hfs
      have htexts : ∀ f ∈ fs, ∃ k, f.1 = .str k := fun f hf => (hmem f hf).1
      obtain ⟨hkeys, hnodup⟩ := Mapping.ofEntries_keys htexts
      refine dict hkeys hnodup fun f hf => ?_
      obtain ⟨_, e, he, hef⟩ := hmem f (Mapping.mem_ofEntries htexts f hf)
      exact ⟨e, he, ih e he hef⟩
  | up n =>
      rw [← Except.ok.inj h]
      exact up n

/-! ## Reporting again -/

theorem reported_scalar_again (s : Scalar) : s.reported.reported = .ok s.reported := by
  cases s <;> rfl

/-- A report is reported as it is. -/
theorem reported_again (h : v.reported = .ok w) : w.reported = .ok w := by
  have hitems {ys xs : List Value} (h : ∀ y ∈ ys, ∃ x ∈ xs, y.reported = .ok y) :
      (Value.list ys).reported = .ok (.list ys) := by
    refine exceptMap_ok.mpr ⟨ys, ?_, rfl⟩
    induction ys with
    | nil => rfl
    | cons y ys ih =>
        obtain ⟨_, _, hy⟩ := h y List.mem_cons_self
        rw [reportedItems, hy, ih fun z hz => h z (List.mem_cons_of_mem _ hz)]
        rfl
  refine reported_induction (motive := fun _ w => w.reported = .ok w) reported_scalar_again
    (fun _ _ => rfl) hitems hitems hitems (fun {es fs} hkeys hnodup h => ?_) (fun _ => rfl) h
  -- keys that are texts show as they are, and none of them comes twice
  refine exceptMap_ok.mpr ⟨fs, ?_, by rw [Mapping.ofEntries_distinct hkeys hnodup]⟩
  clear hnodup
  induction fs with
  | nil => rfl
  | cons f fs ih =>
      obtain ⟨key, w⟩ := f
      obtain ⟨k, rfl⟩ : ∃ k, key = .str k := hkeys (key, w) List.mem_cons_self
      obtain ⟨_, _, hw⟩ := h (.str k, w) List.mem_cons_self
      have hw : w.reported = .ok w := hw
      rw [reportedEntries, hw, ih (fun f hf => hkeys f (List.mem_cons_of_mem _ hf))
        fun f hf => h f (List.mem_cons_of_mem _ hf)]
      rfl

/-! ## What cannot be reported -/

/-- Reporting fails at nothing but an integer with too many digits. -/
theorem reported_error (h : v.reported = .error r) : r = .longInteger ∧ v.holdsLong = true := by
  have hitems {xs : List Value} (h : reportedItems xs = .error r)
      (ih : ∀ x ∈ xs, x.reported = .error r → r = .longInteger ∧ x.holdsLong = true) :
      r = .longInteger ∧ anyLong xs = true := by
    obtain ⟨x, hx, h⟩ := exists_of_mapM_error (reportedItems_eq xs ▸ h)
    obtain ⟨hr, hlong⟩ := ih x hx h
    exact ⟨hr, anyLong_of_mem hx hlong⟩
  induction v using Value.induction with
  | scalar s => exact nomatch h
  | thing c id => exact nomatch h
  | list xs ih => exact hitems (exceptMap_error.mp h) ih
  | tuple xs ih => exact hitems (exceptMap_error.mp h) ih
  | set xs ih => exact hitems (exceptMap_error.mp h) ih
  | dict es ih =>
      obtain ⟨e, he, h⟩ :=
        exists_of_mapM_error (reportedEntries_eq es ▸ exceptMap_error.mp h)
      rcases exceptBind_error.mp h with h | ⟨_, _, h⟩
      · unfold keyDisplay at h
        split at h
        · rename_i hlong
          exact ⟨(Except.error.inj h).symm, anyLongEntry_of_mem he (.inl hlong)⟩
        · exact nomatch h
      rcases exceptBind_error.mp h with h | ⟨_, _, h⟩
      · obtain ⟨hr, hlong⟩ := ih e he h
        exact ⟨hr, anyLongEntry_of_mem he (.inr hlong)⟩
      · exact nomatch h
  | up n => exact nomatch h

/-! ## The text of a report -/

theorem encode_scalar_error {s : Scalar} (h : Json.encode false s.reported = .error r) :
    r = .longInteger ∧ Json.isLong s = true := by
  cases s with
  | int i =>
      have h : Json.encode false (.scalar (.int i)) = .error r := h
      rw [Json.encode] at h
      by_cases hlong : Json.isLong (.int i) = true
      · rw [if_pos hlong] at h
        exact ⟨(Except.error.inj h).symm, hlong⟩
      · rw [if_neg hlong] at h
        cases h
  | bool b => cases b <;> cases h
  | _ => cases h

/-- The report of a value that leads nowhere back is written, unless it holds an integer
    with too many digits. -/
theorem encode_reported_error (hv : v.isCyclic = false) (hw : v.reported = .ok w)
    (h : Json.encode false w = .error r) : r = .longInteger ∧ v.holdsLong = true := by
  have hitems {xs ys : List Value} (h : ∀ y ∈ ys, ∃ x ∈ xs, x.isCyclic = false →
      ∀ r, Json.encode false y = .error r → r = .longInteger ∧ x.holdsLong = true)
      (hxs : anyCyclic xs = false) (r : JsonRefusal)
      (hr : Json.encode false (.list ys) = .error r) :
      r = .longInteger ∧ anyLong xs = true := by
    obtain ⟨y, hy, hr⟩ := Json.exists_of_encodeItems_error (exceptMap_error.mp hr)
    obtain ⟨x, hx, hxy⟩ := h y hy
    obtain ⟨hr, hlong⟩ := hxy (anyCyclic_eq_false.mp hxs x hx) r hr
    exact ⟨hr, anyLong_of_mem hx hlong⟩
  refine reported_induction (motive := fun v w => v.isCyclic = false →
    ∀ r, Json.encode false w = .error r → r = .longInteger ∧ v.holdsLong = true)
    (fun _ _ _ => encode_scalar_error) (fun _ _ _ _ h => nomatch h) hitems hitems hitems
    (fun {es fs} hkeys _ h hes r hr => ?_) (fun _ h => nomatch h) hw hv r h
  obtain ⟨f, hf, hr⟩ := Json.exists_of_encodeEntries_error hkeys (exceptMap_error.mp hr)
  obtain ⟨e, he, hef⟩ := h f hf
  obtain ⟨hr, hlong⟩ := hef (anyCyclicEntry_eq_false.mp hes e he) r hr
  exact ⟨hr, anyLongEntry_of_mem he (.inr hlong)⟩

/-- Are all numbers that the value holds finite, those in keys aside? -/
def holdsFinite : Value → Bool := throughout isFiniteNumber

theorem holdsFinite_list {xs : List Value} :
    (Value.list xs).holdsFinite = true ↔ ∀ x ∈ xs, x.holdsFinite = true :=
  throughout_list.trans (and_iff_right rfl)

theorem holdsFinite_dict {es : Mapping} :
    (Value.dict es).holdsFinite = true ↔ ∀ e ∈ es, e.2.holdsFinite = true :=
  throughout_dict.trans (and_iff_right rfl)

theorem reported_scalar_plain {s : Scalar} (h : (Value.scalar s).isFiniteNumber = true) :
    s.reported.Plain := by
  cases s with
  | null => exact .null
  | bool b => exact .bool b
  | int i => exact .int i
  | float x => exact .float h
  | str s => exact .str s
  | bytes b => exact .str _
  | time t => exact .str _
  | status s => exact .str _
  | ref r =>
      refine record_plain (by simp) fun f hf => ?_
      rcases List.mem_cons.mp hf with rfl | hf
      · exact .str _
      · rw [List.mem_singleton.mp hf]
        exact .str _

/-- Where all numbers are finite, the report of a value that leads nowhere back is plain
    data. -/
theorem reported_plain (hv : v.isCyclic = false) (hfinite : v.holdsFinite = true)
    (hw : v.reported = .ok w) : w.Plain := by
  have hitems {xs ys : List Value} (h : ∀ y ∈ ys, ∃ x ∈ xs, x.isCyclic = false →
      x.holdsFinite = true → y.Plain) (hxs : anyCyclic xs = false)
      (hfinite : (Value.list xs).holdsFinite = true) : (Value.list ys).Plain := by
    refine .list fun y hy => ?_
    obtain ⟨x, hx, hxy⟩ := h y hy
    exact hxy (anyCyclic_eq_false.mp hxs x hx) (holdsFinite_list.mp hfinite x hx)
  refine reported_induction (motive := fun v w => v.isCyclic = false →
    v.holdsFinite = true → w.Plain) (fun _ _ h => reported_scalar_plain h)
    (fun _ _ _ _ => .str _) hitems hitems hitems (fun {es fs} hkeys hnodup h hes hfinite => ?_)
    (fun _ h => nomatch h) hw hv hfinite
  refine .dict hkeys hnodup fun f hf => ?_
  obtain ⟨e, he, hef⟩ := h f hf
  exact hef (anyCyclicEntry_eq_false.mp hes e he) (holdsFinite_dict.mp hfinite e he)

end Value

/-! ## The report of an error -/

namespace WorkflowError

variable {e : WorkflowError} {now : Timestamp} {m : Mapping} {r : JsonRefusal}

/-- Has the execution that the error carries, if any, texts as its names? -/
def Named (e : WorkflowError) : Prop :=
  ∀ x, e.execution = some x →
    (∃ step, x.currentStep = .str step) ∧ ∃ name, x.workflowName = .str name

/-- Does the error carry an integer with too many digits to be shown? -/
def holdsLong (e : WorkflowError) : Bool := e.context.holdsLong || e.details.holdsLong

/-- Are all numbers that the error carries finite, those in keys aside? -/
def holdsFinite (e : WorkflowError) : Bool := e.context.holdsFinite && e.details.holdsFinite

/-- What the report of an error tells before what the error carries. -/
def heading (now : Timestamp) (e : WorkflowError) : List (String × Value) :=
  let of (f : Execution → Value) := (e.execution.map f).getD .null
  [ ("error_class", .str e.kind.className), ("message", .str e.message),
    ("timestamp", .str now.isoText), ("execution_id", of fun x => .str x.id),
    ("current_step", of Execution.currentStep), ("workflow_name", of Execution.workflowName),
    ("severity", .str e.kind.severity.text), ("retryable", .bool e.kind.retryable) ]

/-- The report of an error is its heading and the reports of what it carries. -/
theorem toMapping_ok : e.toMapping now = .ok m ↔
    ∃ c d, e.context.reported = .ok c ∧ e.details.reported = .ok d ∧
      Value.dict m = .record (e.heading now ++ [("context", c), ("details", d)]) := by
  unfold toMapping
  rw [exceptBind_ok]
  refine exists_congr fun c => ?_
  rw [exceptBind_ok, ← exists_and_left]
  refine exists_congr fun d => and_congr_right fun _ => and_congr_right fun _ => ?_
  constructor
  · exact fun hm => congrArg Value.dict (Except.ok.inj hm).symm
  · exact fun hm => congrArg Except.ok (Value.dict.inj hm).symm

theorem toMapping_error (h : e.toMapping now = .error r) :
    r = .longInteger ∧ e.holdsLong = true := by
  unfold holdsLong
  rw [Bool.or_eq_true]
  rcases exceptBind_error.mp h with h | ⟨_, _, h⟩
  · obtain ⟨hr, hlong⟩ := Value.reported_error h
    exact ⟨hr, .inl hlong⟩
  rcases exceptBind_error.mp h with h | ⟨_, _, h⟩
  · obtain ⟨hr, hlong⟩ := Value.reported_error h
    exact ⟨hr, .inr hlong⟩
  · exact nomatch h

/-- The heading of an error's report holds texts, a Boolean and null. -/
theorem heading_fits (h : e.Named) : ∀ f ∈ e.heading now, f.2.Plain ∧ f.2.Encodes := by
  have htext (t : String) : (Value.str t).Plain ∧ (Value.str t).Encodes :=
    ⟨.str t, Value.encodes_str t⟩
  have hof (f : Execution → Value) (hf : ∀ x, e.execution = some x → ∃ t, f x = .str t) :
      ((e.execution.map f).getD .null).Plain ∧ ((e.execution.map f).getD .null).Encodes := by
    cases hx : e.execution with
    | none => exact ⟨.null, _, rfl⟩
    | some x =>
        obtain ⟨t, ht⟩ := hf x hx
        rw [Option.map_some, Option.getD_some, ht]
        exact htext t
  have hbool (b : Bool) : (Value.bool b).Plain ∧ (Value.bool b).Encodes := by
    cases b <;> exact ⟨.bool _, _, rfl⟩
  intro f hf
  simp only [heading, List.mem_cons, List.not_mem_nil, or_false] at hf
  rcases hf with rfl | rfl | rfl | rfl | rfl | rfl | rfl | rfl
  · exact htext _
  · exact htext _
  · exact htext _
  · exact hof _ fun x _ => ⟨x.id, rfl⟩
  · exact hof _ fun x hx => (h x hx).1
  · exact hof _ fun x hx => (h x hx).2
  · exact htext _
  · exact hbool _

/-- What keeps an error that leads nowhere back from being written as JSON is an integer
    with too many digits. -/
theorem toJson_error (hnamed : e.Named) (hacyclic : e.isCyclic = false)
    (h : e.toJson now = .error r) : r = .longInteger ∧ e.holdsLong = true := by
  rcases exceptBind_error.mp h with h | ⟨m, hm, h⟩
  · exact toMapping_error h
  obtain ⟨hc, hd⟩ := Bool.or_eq_false_iff.mp hacyclic
  obtain ⟨c, d, hcontext, hdetails, hm⟩ := toMapping_ok.mp hm
  rw [hm] at h
  have h := exceptMap_error.mp (exceptMap_error.mp h)
  obtain ⟨f, hf, hr⟩ := Json.exists_of_encodeEntries_error (fun f hf => by
    obtain ⟨g, _, rfl⟩ := List.mem_map.mp hf
    exact ⟨g.1, rfl⟩) h
  obtain ⟨g, hg, rfl⟩ := List.mem_map.mp hf
  have hr : Json.encode false g.2 = .error r := hr
  unfold holdsLong
  rw [Bool.or_eq_true]
  rcases List.mem_append.mp hg with hg | hg
  · obtain ⟨cs, hcs⟩ := (heading_fits hnamed g hg).2
    exact nomatch hcs.symm.trans hr
  rcases List.mem_cons.mp hg with rfl | hg
  · obtain ⟨hr, hlong⟩ := Value.encode_reported_error hc hcontext hr
    exact ⟨hr, .inl hlong⟩
  · rw [List.mem_singleton.mp hg] at hr
    obtain ⟨hr, hlong⟩ := Value.encode_reported_error hd hdetails hr
    exact ⟨hr, .inr hlong⟩

theorem toMapping_plain (hnamed : e.Named) (hacyclic : e.isCyclic = false)
    (hfinite : e.holdsFinite = true) (h : e.toMapping now = .ok m) : (Value.dict m).Plain := by
  obtain ⟨hc, hd⟩ := Bool.or_eq_false_iff.mp hacyclic
  obtain ⟨hcf, hdf⟩ := (Bool.and_eq_true _ _).mp hfinite
  obtain ⟨c, d, hcontext, hdetails, hm⟩ := toMapping_ok.mp h
  rw [hm]
  refine Value.record_plain (by simp [heading]) fun f hf => ?_
  rcases List.mem_append.mp hf with hf | hf
  · exact (heading_fits hnamed f hf).1
  rcases List.mem_cons.mp hf with rfl | hf
  · exact Value.reported_plain hc hcf hcontext
  · rw [List.mem_singleton.mp hf]
    exact Value.reported_plain hd hdf hdetails

/-- The report of an error that carries nothing cyclic: it is written as JSON, and fails to
    be at nothing but an integer with too many digits; where all numbers are finite, its
    text is read as just the report; and a report is reported as it is. -/
theorem reports_read_back (hnamed : e.Named) (hacyclic : e.isCyclic = false)
    (now : Timestamp) :
    (e.holdsLong = false → ∃ text, e.toJson now = .ok text) ∧
    (∀ r, e.toJson now = .error r → r = .longInteger ∧ e.holdsLong = true) ∧
    (∀ text, e.toJson now = .ok text → e.holdsFinite = true →
      ∃ m, e.toMapping now = .ok m ∧ Json.read text = .ok (.dict m)) ∧
    ∀ v w : Value, v.reported = .ok w → w.reported = .ok w := by
  refine ⟨fun hlong => ?_, fun r => toJson_error hnamed hacyclic, fun text htext hfinite => ?_,
    fun _ _ => Value.reported_again⟩
  · cases h : e.toJson now with
    | ok text => exact ⟨text, rfl⟩
    | error r => exact nomatch hlong.symm.trans (toJson_error hnamed hacyclic h).2
  · obtain ⟨m, hm, htext⟩ := exceptBind_ok.mp htext
    exact ⟨m, hm, Json.read_write (toMapping_plain hnamed hacyclic hfinite hm) htext⟩

/-- The error of a parcel of some weight, with every kind of value and two keys that show as
    the same text. -/
def overweight (weight : Value) : WorkflowError where
  kind := .context
  message := "too heavy"
  execution := some
    { id := "exec-1", workflowName := .str "parcel", subject := .subject "Box" "7"
      currentStep := .str "packed", status := .failed, context := .dict [], history := []
      assignedActor := none, version := 0, createdAt := .defaultNow, updatedAt := .defaultNow }
  context := .dict
    [ (.int 1, .scalar (.status .failed)), (.str "1", .tuple [.set [.bool true], .null]),
      (.scalar (.time .defaultNow), .scalar (.ref (.actor "user" "ada"))) ]
  details := .dict
    [(.str "weight", weight), (.str "raw", .list [.scalar (.bytes [0, 255]), .thing "Box" none])]

theorem overweight_named (weight : Value) : (overweight weight).Named := by
  intro x hx
  rw [← Option.some.inj hx]
  exact ⟨⟨"packed", rfl⟩, "parcel", rfl⟩

/-- A parcel of four pounds. -/
theorem overweight_reads_back :
    ∃ text m, (overweight (.int 4)).toJson .defaultNow = .ok text ∧
      (overweight (.int 4)).toMapping .defaultNow = .ok m ∧
      Json.read text = .ok (.dict m) := by
  obtain ⟨hwritten, _, hread, _⟩ :=
    reports_read_back (overweight_named (.int 4)) rfl .defaultNow
  obtain ⟨text, htext⟩ := hwritten (by decide +kernel)
  obtain ⟨m, hm, hback⟩ := hread text htext (by decide +kernel)
  exact ⟨text, m, htext, hm, hback⟩

/-- A weight with too many digits leaves the error without a text. -/
theorem overweight_unwritten :
    let e := overweight (.int (10 ^ digitLimit))
    e.Named ∧ e.isCyclic = false ∧ e.toJson .defaultNow = .error .longInteger :=
  ⟨overweight_named _, by decide +kernel, by decide +kernel⟩

end WorkflowError

end Workflow
