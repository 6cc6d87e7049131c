import Workflow.Proofs.Admission
import Workflow.Proofs.Table

/-! # Lookup — the executions of a subject in either store

    A subject that is given as a reference is kept as that reference, whatever its kind; a
    map or a thing makes a reference to a subject.  A store in memory looks for executions
    whose reference is the one that it is asked for, a table for rows whose two columns are
    its type and its id, and a row has no kind.  So what was created for an actor is found
    in a table by any query with its type and id, in memory only by an actor.

    The heart is `Abreast.run`, one creation in both stores at once; what a lookup comes to
    after any creations, and when the stores answer alike, is read off what it leaves. -/

namespace Workflow

variable {w wm wt : World} {e x : Execution} {r : EntityRef} {query : Value}
  {es : List Execution}

/-- Related items that agree in what is read of them make equal lists of it. -/
theorem map_eq_of_forall₂ {α β γ : Type} {R : α → β → Prop} {f : α → γ} {g : β → γ} {xs : List α}
    {ys : List β} (h : List.Forall₂ R xs ys) (hfg : ∀ x y, R x y → f x = g y) :
    xs.map f = ys.map g := by
  rw [← List.forall₂_eq_eq_eq, List.forall₂_map_left_iff, List.forall₂_map_right_iff]
  exact h.imp hfg

namespace EntityRef

/-- Do the references point at the same entity, whatever their kinds? -/
def agrees (r s : EntityRef) : Bool := r.type == s.type && r.id == s.id

theorem eq_iff_agrees {r s : EntityRef} : r = s ↔ r.agrees s = true ∧ r.kind = s.kind := by
  unfold agrees
  rw [Bool.and_eq_true, beq_iff_eq, beq_iff_eq]
  cases r
  cases s
  rw [mk.injEq, and_comm]

end EntityRef

namespace Execution

/-- Is the context of the execution one that has a document? -/
def isShallow (e : Execution) : Bool := decide (e.context.levels ≤ Document.depthLimit)

/-- Is the second execution what a row shows of the first, times and history included? -/
def ShownAs (e shown : Execution) : Prop :=
  ∃ name step entries, e.workflowName = .str name ∧ e.currentStep = .str step ∧
    Document.ofValue 0 e.context = .ok (.dict entries) ∧
    shown = e.reread e.id name step entries e.history e.createdAt e.updatedAt

/-- Executions in the order of their creation times, those of one time as they stand. -/
def byCreation (es : List Execution) : List Execution :=
  es.mergeSort fun x y => decide (x.createdAt.instant ≤ y.createdAt.instant)

theorem ShownAs.id_eq {shown : Execution} (h : e.ShownAs shown) : shown.id = e.id := by
  obtain ⟨_, _, _, _, _, _, rfl⟩ := h
  rfl

/-- What is shown of executions has their ids. -/
theorem ids_of_shownAs {found : List Execution} (h : List.Forall₂ ShownAs es found) :
    found.map (·.id) = es.map (·.id) :=
  (map_eq_of_forall₂ h fun _ _ hshown => hshown.id_eq.symm).symm

/-- Executions that were created in turn stand in the order of their creation times. -/
theorem byCreation_of_ordered
    (h : (es.map (·.createdAt.instant)).Pairwise (· ≤ ·)) : byCreation es = es :=
  List.mergeSort_of_pairwise ((List.pairwise_map.mp h).imp decide_eq_true)

end Execution

/-! ## Creations in turn -/

/-- The creation of an execution through an engine, at a time. -/
structure Creation where
  engine   : Engine
  workflow : String
  subject  : Value
  actor    : Value := .null
  context  : Value := .dict []
  now      : Timestamp := .defaultNow

namespace Creation

/-- What the creation comes to. -/
def run (c : Creation) (w : World) : Except Failure Execution × World :=
  (c.engine.create c.workflow c.subject c.actor c.context).run { w with now := c.now }

/-- What creations come to, one after the other. -/
def runAll : List Creation → World → List (Except Failure Execution) × World
  | [],      w => ([], w)
  | c :: cs, w =>
    let first := c.run w
    let others := runAll cs first.2
    (first.1 :: others.1, others.2)

/-- The executions among what creations came to. -/
def made (rs : List (Except Failure Execution)) : List Execution :=
  rs.filterMap Except.toOption

/-- What creations in turn come to in an empty store in memory. -/
def inMemory (cs : List Creation) : List (Except Failure Execution) × World :=
  runAll cs { store := .memory {} }

/-- What they come to in an empty table. -/
def inTable (cs : List Creation) : List (Except Failure Execution) × World :=
  runAll cs { store := .table {} }

/-- Is the workflow one with a first step, the context valid, and are subject and actor such
    that references can be made of them? -/
structure Admitted (c : Creation) : Prop where
  workflow : ∃ d, c.engine.registry.get? c.workflow = some d ∧
    ∃ initial, d.initialStep? = some initial
  context  : ∃ m, looseMapping c.context = .ok m ∧ contextProblems false m = []
  subject  : ∃ r, EntityRef.toSubject c.subject = .ok r
  actor    : c.actor.truthy = true → ∃ a, EntityRef.toActor c.actor = .ok a

/-- Did the creation come to an execution when it is admitted, and only then, and to one of
    its subject, of its time? -/
def Makes (c : Creation) (result : Except Failure Execution) : Prop :=
  ((∃ e, result = .ok e) ↔ c.Admitted) ∧
    ∀ e, result = .ok e → EntityRef.toSubject c.subject = .ok e.subject ∧ e.createdAt = c.now

/-- The world in which the creation inserts an execution. -/
def begun (c : Creation) (w : World) : World :=
  { w with
    now     := c.now
    serials := { w.serials with executions := w.serials.executions + 1 } }

/-- A creation that is not admitted fails before anything is drawn. -/
theorem create_fails {c : Creation} (h : ¬ c.Admitted) :
    ∃ f, c.engine.create c.workflow c.subject c.actor c.context = .fail f := by
  generalize hk : c.engine.create c.workflow c.subject c.actor c.context = k
  unfold Engine.create at hk
  -- A check that fails is the failure; one that is passed leads to the next.
  rcases hd : c.engine.registry.get? c.workflow with _ | d
  · exact ⟨_, by rw [← hk, hd]⟩
  rw [hd] at hk
  dsimp only at hk
  rcases hinitial : d.initialStep? with _ | initial
  · exact ⟨_, by rw [← hk, hinitial]⟩
  rw [hinitial] at hk
  rcases hm : looseMapping c.context with f | m
  · exact ⟨f, by rw [← hk, hm]; rfl⟩
  rw [hm] at hk
  replace hk : (if !(contextProblems false m).isEmpty then _ else _ : Client Execution) = k := hk
  by_cases hvalid : contextProblems false m = []
  case neg => exact ⟨_, by rw [← hk, if_pos (by simpa using hvalid)]⟩
  rw [hvalid, if_neg nofun] at hk
  rcases hr : EntityRef.toSubject c.subject with f | r
  · exact ⟨f, by rw [← hk, hr]; rfl⟩
  rw [hr] at hk
  replace hk : (if c.actor.truthy then _ else _ : Client Execution) = k := hk
  have hactor : ¬ (c.actor.truthy = true → ∃ a, EntityRef.toActor c.actor = .ok a) :=
    fun hactor => h ⟨⟨d, hd, initial, hinitial⟩, ⟨m, hm, hvalid⟩, ⟨r, hr⟩, hactor⟩
  obtain ⟨htruthy, hnone⟩ := Classical.not_imp.mp hactor
  rw [if_pos htruthy] at hk
  rcases ha : EntityRef.toActor c.actor with f | a
  · exact ⟨f, by rw [← hk, ha]; rfl⟩
  · exact absurd ⟨a, ha⟩ hnone

/-- One that is admitted comes to what the insertion of a new execution comes to; any other
    leaves the store alone. -/
theorem run_cases (c : Creation) :
    (c.Admitted ∧ ∃ d initial r a m, contextProblems false m = [] ∧
      EntityRef.toSubject c.subject = .ok r ∧ ∀ w, c.run w = (c.begun w).insert
        (Engine.created { w with now := c.now } d initial r a m)) ∨
    ¬ c.Admitted ∧ ∃ f, ∀ w, c.run w = (.error f, { w with now := c.now }) := by
  by_cases h : c.Admitted
  · obtain ⟨d, hd, initial, hinitial⟩ := h.workflow
    obtain ⟨m, hcontext, hm⟩ := h.context
    obtain ⟨r, hr⟩ := h.subject
    obtain ⟨a, hcreate⟩ := Engine.create_eq hd hinitial hcontext hm hr h.actor
    refine .inl ⟨h, d, initial, r, a, m, hm, hr, fun w => ?_⟩
    unfold run
    rw [hcreate]
    exact Engine.run_newExecution d initial r a m _
  · obtain ⟨f, hf⟩ := create_fails h
    refine .inr ⟨h, f, fun w => ?_⟩
    unfold run
    rw [hf]
    rfl

end Creation

/-! ## Both stores at once -/

/-- Executions that were drawn at different turns have different ids. -/
theorem executionId_inj {m n : Nat} (h : s!"exec-{m}" = s!"exec-{n}") : m = n := by
  have hdigits : Nat.toDigits 10 m = Nat.toDigits 10 n :=
    String.ofList_injective ((String.append_right_inj "exec-").mp h)
  rw [← Nat.ofDigitChars_ten_toDigits (n := m), hdigits, Nat.ofDigitChars_ten_toDigits]

/-- Does the row hold the execution, in columns by which it is found and listed? -/
structure TableRow.Holds (row : TableRow) (e : Execution) : Prop where
  id      : row.id = e.id
  type    : row.subjectType = e.subject.type
  subject : row.subjectId = e.subject.id
  created : row.createdText = e.createdAt.isoText
  shown   : ∃ shown, e.ShownAs shown ∧ ∀ now, row.toExecution now = .ok shown

/-- So does the row of an execution with texts as names, whose history lasts and whose times
    are of universal time. -/
theorem TableRow.holds_of_row {row : TableRow} {name step : String}
    (hrow : ofExecution e = .ok row) (howns : e.OwnsId) (hname : e.workflowName = .str name)
    (hstep : e.currentStep = .str step) (hhistory : ∀ r ∈ e.history, r.Lasts)
    (hcreated : e.createdAt.offset = some 0) (hupdated : e.updatedAt.offset = some 0) :
    row.Holds e := by
  obtain ⟨hid, -, htime, -⟩ := ofExecution_columns hrow howns
  obtain ⟨htype, hsubject⟩ : row.subjectType = e.subject.type ∧
      row.subjectId = e.subject.id := by
    obtain ⟨_, hfilled, htexts⟩ := exceptBind_ok.mp hrow
    obtain ⟨_, _, _, _, _, _, _, _, rfl⟩ := Row.ofExecution_ok hfilled
    obtain ⟨_, htype, hsubject, _⟩ := ofRow_names htexts
    exact ⟨htype, hsubject⟩
  obtain ⟨id', name', step', entries, hentries, hid', hname', hstep', hread⟩ :=
    toExecution_ofExecution hrow
  rw [show e.idValue = .str e.id from howns] at hid'
  rw [hname] at hname'
  rw [hstep] at hstep'
  obtain rfl := Checked.ok.inj hid'
  obtain rfl := Checked.ok.inj hname'
  obtain rfl := Checked.ok.inj hstep'
  refine ⟨hid, htype, hsubject, htime, _, ⟨name, step, entries, hname, hstep, hentries, rfl⟩,
    fun now => ?_⟩
  have hshown := hread row.createdText now
  rw [htime, Timestamp.ofIsoText?_isoText hcreated, Timestamp.ofIsoText?_isoText hupdated,
    Row.records_of_lasts hhistory, ← htime] at hshown
  exact hshown

namespace Engine

variable (w : World) (d : Definition) (initial : String) (r : EntityRef) (a : Option EntityRef)
  {m : Mapping}

/-- An execution that is created with a shallow context has a row that holds it. -/
theorem created_row (hm : m.Fit) (hnow : w.now.offset = some 0)
    (hshallow : (created w d initial r a m).isShallow = true) :
    ∃ row, TableRow.ofExecution (created w d initial r a m) = .ok row ∧
      row.Holds (created w d initial r a m) := by
  obtain ⟨entries, hentries⟩ :=
    (Document.ofMapping_ok_iff hm).mpr (of_decide_eq_true hshallow)
  obtain ⟨row, hrow⟩ : ∃ row, TableRow.ofExecution (created w d initial r a m) = .ok row :=
    TableRow.ofExecution_of_document rfl rfl rfl (Document.ofMapping_ok.mp hentries)
      (Document.fit_of_ofMapping hm hentries).encodes rfl
  exact ⟨row, hrow, TableRow.holds_of_row hrow rfl rfl rfl
    (fun _ hx => absurd hx List.not_mem_nil) hnow hnow⟩

/-- With any other context it has none. -/
theorem created_no_row (hm : m.Fit) (hdeep : (created w d initial r a m).isShallow = false) :
    ∃ f, TableRow.ofExecution (created w d initial r a m) = .error f := by
  cases hrow : TableRow.ofExecution (created w d initial r a m) with
  | error f => exact ⟨f, rfl⟩
  | ok row =>
      obtain ⟨_, _, _, entries, hentries, -⟩ := TableRow.toExecution_ofExecution hrow
      exact absurd ((Document.ofMapping_ok_iff hm).mp ⟨entries, Document.ofMapping_ok.mpr hentries⟩)
        (of_decide_eq_false hdeep)

end Engine

/-- In memory, what has a new id is inserted. -/
theorem World.insert_new {m : MemoryStore} (hm : w.store = .memory m)
    (hnew : ∀ x ∈ m.executions, x.id ≠ e.id) :
    w.insert e = (.ok e, { w with store := .memory ⟨m.executions ++ [e]⟩ }) := by
  have hnone : m.get? e.id = none := by
    refine List.find?_eq_none.mpr fun x hx => ?_
    rw [beq_iff_eq]
    exact hnew x hx
  unfold insert
  rw [hm]
  simp only [Store.create, MemoryStore.create, hnone, Option.isSome_none, Bool.false_eq_true,
    if_false, Except.map]

/-- Do the two worlds keep these executions, the one in memory and the other, as far as they
    are shallow, in a table? -/
structure Abreast (es : List Execution) (wm wt : World) : Prop where
  memory    : wm.store = .memory ⟨es⟩
  table     : ∃ rows, wt.store = .table ⟨rows⟩ ∧
    List.Forall₂ TableRow.Holds rows (es.filter Execution.isShallow)
  serials   : wt.serials = wm.serials
  drawn     : ∀ e ∈ es, ∃ n ≤ wm.serials.executions, e.id = s!"exec-{n}"
  universal : ∀ e ∈ es, e.createdAt.offset = some 0

namespace Abreast

open Creation

/-- Empty stores keep nothing. -/
theorem empty : Abreast [] { store := .memory {} } { store := .table {} } where
  memory    := rfl
  table     := ⟨[], rfl, .nil⟩
  serials   := rfl
  drawn     := fun _ he => absurd he List.not_mem_nil
  universal := fun _ he => absurd he List.not_mem_nil

/-- The next id is new. -/
theorem ne_of_mem (h : Abreast es wm wt) (hx : x ∈ es) :
    x.id ≠ s!"exec-{wm.serials.executions + 1}" := by
  obtain ⟨n, hn, hid⟩ := h.drawn x hx
  intro hsame
  have := executionId_inj (hid.symm.trans hsame)
  omega

/-- Nor has any row that id. -/
theorem ne_of_mem_rows (h : Abreast es wm wt) {rows : List TableRow}
    (hrows : List.Forall₂ TableRow.Holds rows (es.filter Execution.isShallow)) {row : TableRow}
    (hrow : row ∈ rows) : row.id ≠ s!"exec-{wm.serials.executions + 1}" := by
  have hids : rows.map (·.id) = (es.filter Execution.isShallow).map (·.id) :=
    map_eq_of_forall₂ hrows fun _ _ hholds => hholds.id
  obtain ⟨x, hx, hid⟩ := List.mem_map.mp (hids ▸ List.mem_map_of_mem hrow)
  rw [← hid]
  exact h.ne_of_mem (List.mem_filter.mp hx).1

/-- Where the next execution is kept on both sides, the stores keep abreast. -/
theorem add (h : Abreast es wm wt) (c : Creation) {rows : List TableRow}
    (hid : e.id = s!"exec-{wm.serials.executions + 1}") (hcreated : e.createdAt.offset = some 0)
    (hrows : List.Forall₂ TableRow.Holds rows ((es ++ [e]).filter Execution.isShallow)) :
    Abreast (es ++ [e]) { c.begun wm with store := .memory ⟨es ++ [e]⟩ }
      { c.begun wt with store := .table ⟨rows⟩ } where
  memory    := rfl
  table     := ⟨rows, rfl, hrows⟩
  serials   := by
    unfold begun
    rw [h.serials]
  drawn     := by
    refine List.forall_mem_append.mpr ⟨fun x hx => ?_, List.forall_mem_singleton.mpr ?_⟩
    · obtain ⟨n, hn, hx⟩ := h.drawn x hx
      exact ⟨n, hn.trans (Nat.le_succ _), hx⟩
    · exact ⟨_, Nat.le_refl _, hid⟩
  universal :=
    List.forall_mem_append.mpr ⟨h.universal, List.forall_mem_singleton.mpr hcreated⟩

/-- The table takes the next execution in when it has a row, and then holds it. -/
theorem insert_row (h : Abreast es wm wt) (c : Creation)
    (hid : e.id = s!"exec-{wm.serials.executions + 1}")
    (hrow : e.isShallow = true → ∃ row, TableRow.ofExecution e = .ok row ∧ row.Holds e)
    (hnone : e.isShallow = false → ∃ f, TableRow.ofExecution e = .error f) :
    ∃ result rows,
      (c.begun wt).insert e = (result, { c.begun wt with store := .table ⟨rows⟩ }) ∧
      made [result] = [e].filter Execution.isShallow ∧
      List.Forall₂ TableRow.Holds rows ((es ++ [e]).filter Execution.isShallow) := by
  obtain ⟨rows, htable, hrows⟩ := h.table
  have hinsert := World.insert_table (w := c.begun wt) htable
    fun row hmem => hid ▸ h.ne_of_mem_rows hrows hmem
  rw [List.filter_append]
  cases hshallow : e.isShallow with
  | true =>
      obtain ⟨row, hrow, hholds⟩ := hrow hshallow
      rw [hrow] at hinsert
      rw [List.filter_cons_of_pos hshallow]
      exact ⟨_, _, hinsert, rfl, List.rel_append hrows (.cons hholds .nil)⟩
  | false =>
      obtain ⟨f, hf⟩ := hnone hshallow
      rw [hf] at hinsert
      rw [List.filter_cons_of_neg (Bool.eq_false_iff.mp hshallow), List.filter_nil,
        List.append_nil]
      refine ⟨.error f, rows, hinsert.trans ?_, rfl, hrows⟩
      unfold begun
      rw [← htable]

/-- One creation in both stores: memory keeps what is created, and so does the table, but
    for what has a context that is too deep. -/
theorem run (h : Abreast es wm wt) {c : Creation} (hnow : c.now.offset = some 0) :
    Abreast (es ++ made [(c.run wm).1]) (c.run wm).2 (c.run wt).2 ∧
      made [(c.run wt).1] = (made [(c.run wm).1]).filter Execution.isShallow ∧
      c.Makes (c.run wm).1 := by
  rcases c.run_cases with ⟨hadmitted, d, initial, r, a, m, hm, hr, hinsert⟩ | ⟨hno, f, hf⟩
  · have hfit := (contextProblems_nil.mp hm).1
    -- The same id is drawn on both sides, so one execution is inserted in both stores.
    have hsame : Engine.created { wt with now := c.now } d initial r a m =
        Engine.created { wm with now := c.now } d initial r a m := by
      unfold Engine.created
      rw [h.serials]
    obtain ⟨result, rows, htable, hresult, hrows⟩ := h.insert_row c rfl
      (Engine.created_row { wm with now := c.now } d initial r a hfit hnow)
      (Engine.created_no_row { wm with now := c.now } d initial r a hfit)
    have hmemory := World.insert_new (w := c.begun wm)
      (e := Engine.created { wm with now := c.now } d initial r a m) h.memory
      fun x hx => h.ne_of_mem hx
    rw [hinsert, hinsert, hsame, hmemory, htable]
    exact ⟨h.add c rfl hnow hrows, hresult, iff_of_true ⟨_, rfl⟩ hadmitted,
      fun _ he => Except.ok.inj he ▸ ⟨hr, rfl⟩⟩
  · rw [hf, hf]
    refine ⟨?_, rfl, iff_of_false (fun ⟨_, he⟩ => nomatch he) hno, fun _ he => nomatch he⟩
    show Abreast (es ++ []) _ _
    rw [List.append_nil]
    exact ⟨h.memory, h.table, h.serials, h.drawn, h.universal⟩

/-- So after any creations in turn. -/
theorem runAll (h : Abreast es wm wt) {cs : List Creation}
    (hcs : ∀ c ∈ cs, c.now.offset = some 0) :
    Abreast (es ++ made (Creation.runAll cs wm).1) (Creation.runAll cs wm).2
        (Creation.runAll cs wt).2 ∧
      made (Creation.runAll cs wt).1 =
        (made (Creation.runAll cs wm).1).filter Execution.isShallow ∧
      List.Forall₂ Creation.Makes cs (Creation.runAll cs wm).1 := by
  induction cs generalizing es wm wt with
  | nil => exact ⟨(List.append_nil es).symm ▸ h, rfl, .nil⟩
  | cons c cs ih =>
      obtain ⟨hc, hcs⟩ := List.forall_mem_cons.mp hcs
      obtain ⟨hfirst, hmade, hmakes⟩ := h.run hc
      obtain ⟨hothers, hrest, hall⟩ := ih hfirst hcs
      have hcons (r : Except Failure Execution) (rs : List (Except Failure Execution)) :
          made (r :: rs) = made [r] ++ made rs := by
        rw [← List.singleton_append]
        exact List.filterMap_append
      unfold Creation.runAll
      dsimp only
      rw [hcons _ (Creation.runAll cs (c.run wm).2).1, hcons _ (Creation.runAll cs (c.run wt).2).1,
        List.filter_append, ← hmade, ← hrest, ← List.append_assoc]
      exact ⟨hothers, rfl, .cons hmakes hall⟩

end Abreast

/-! ## Looking up -/

/-- A lookup with a query that a subject can be made of comes to what the store finds. -/
theorem Engine.run_executionsForSubject (hquery : EntityRef.toSubject query = .ok r) (w : World) :
    (executionsForSubject query).run w = (w.store.findForSubject w.now (.ref r), w) := by
  unfold executionsForSubject
  rw [hquery]
  show (Client.ofExcept (w.store.findForSubject w.now (.ref r))).run w = _
  cases w.store.findForSubject w.now (.ref r) with
  | ok es => rfl
  | error f => rfl

/-- Times of universal time are in order just when their standard texts are. -/
theorem Timestamp.isoText_le_iff {t u : Timestamp} (ht : t.offset = some 0)
    (hu : u.offset = some 0) : t.isoText ≤ u.isoText ↔ t.instant ≤ u.instant := by
  refine ⟨fun h => ?_, isoText_le ht hu⟩
  by_contra hlt
  -- The texts would be equal, and so would what is read of them.
  have hsame : t.isoText = u.isoText :=
    String.le_antisymm h (isoText_le hu ht (Int.le_of_lt (Int.not_le.mp hlt)))
  have heq := ofIsoText?_isoText ht
  rw [hsame, ofIsoText?_isoText hu] at heq
  rw [Option.some.inj heq] at hlt
  exact hlt (Int.le_refl _)

/-- Related lists are related when they are sorted by keys that agree. -/
theorem rel_mergeSort {α β : Type} {R : α → β → Prop} {xs : List α} {ys : List β}
    {le : α → α → Bool} {le' : β → β → Bool} (h : List.Forall₂ R xs ys)
    (hle : ∀ p ∈ xs.zip ys, ∀ q ∈ xs.zip ys, le p.1 q.1 = le' p.2 q.2) :
    List.Forall₂ R (xs.mergeSort le) (ys.mergeSort le') := by
  -- Both are what is left of one sorted list of pairs.
  have hxs := List.map_mergeSort (r := fun p q : α × β => le p.1 q.1) (s := le) (f := Prod.fst)
    (l := xs.zip ys) fun _ _ _ _ => rfl
  have hys := List.map_mergeSort (r := fun p q : α × β => le p.1 q.1) (s := le') (f := Prod.snd)
    (l := xs.zip ys) hle
  rw [List.map_fst_zip h.length_eq.le] at hxs
  rw [List.map_snd_zip h.length_eq.ge] at hys
  rw [← hxs, ← hys, List.forall₂_map_left_iff, List.forall₂_map_right_iff, List.forall₂_same]
  intro p hp
  exact (List.forall₂_iff_zip.mp h).2 (List.mem_mergeSort.mp hp)

namespace TableStore

/-- Rows that hold executions show them. -/
theorem executions_of_holds {rows : List TableRow} (h : List.Forall₂ TableRow.Holds rows es) :
    ∃ found, List.Forall₂ Execution.ShownAs es found ∧
      ∀ now, executions now rows = .ok found := by
  induction h with
  | nil => exact ⟨[], .nil, fun _ => rfl⟩
  | cons hholds _ ih =>
      obtain ⟨shown, hshown, hread⟩ := hholds.shown
      obtain ⟨found, hall, hfound⟩ := ih
      exact ⟨shown :: found, .cons hshown hall, fun now =>
        exceptBind_ok.mpr ⟨_, hread now, exceptBind_ok.mpr ⟨_, hfound now, rfl⟩⟩⟩

/-- They are sorted by what the executions have as creation times. -/
theorem sorted_of_holds {rows : List TableRow} (h : List.Forall₂ TableRow.Holds rows es)
    (hcreated : ∀ e ∈ es, e.createdAt.offset = some 0) :
    List.Forall₂ TableRow.Holds (sorted rows) (Execution.byCreation es) := by
  refine rel_mergeSort h fun p hp q hq => ?_
  have hkey {p : TableRow × Execution} (hp : p ∈ rows.zip es) :
      p.1.createdText = p.2.createdAt.isoText ∧ p.2.createdAt.offset = some 0 :=
    ⟨((List.forall₂_iff_zip.mp h).2 hp).created, hcreated _ (List.of_mem_zip hp).2⟩
  rw [(hkey hp).1, (hkey hq).1]
  exact decide_eq_decide.mpr (Timestamp.isoText_le_iff (hkey hp).2 (hkey hq).2)

/-- So a lookup by type and id shows the executions that are held for them, by creation. -/
theorem findForSubject_of_holds {rows : List TableRow}
    (h : List.Forall₂ TableRow.Holds rows es)
    (hcreated : ∀ e ∈ es, e.createdAt.offset = some 0) (r : EntityRef) :
    ∃ found, List.Forall₂ Execution.ShownAs
        (Execution.byCreation (es.filter fun e => e.subject.agrees r)) found ∧
      ∀ now, findForSubject ⟨rows⟩ now (.ref r) = .ok found := by
  have hcolumns (row : TableRow) (e : Execution) (hholds : row.Holds e) :
      (row.subjectType == r.type && row.subjectId == r.id) = e.subject.agrees r := by
    rw [hholds.type, hholds.subject]
    rfl
  have hpicked := List.rel_filter (p := fun row : TableRow =>
    row.subjectType == r.type && row.subjectId == r.id) (q := fun e => e.subject.agrees r)
    (fun row e hholds => iff_of_eq (congrArg (· = true) (hcolumns row e hholds))) h
  exact executions_of_holds (sorted_of_holds hpicked fun e he =>
    hcreated e (List.mem_filter.mp he).1)

end TableStore

/-! ## What is found -/

namespace Creation

/-- The creation times of executions are those of their creations, in turn. -/
theorem createdAt_sublist {cs : List Creation} {rs : List (Except Failure Execution)}
    (h : List.Forall₂ Makes cs rs) :
    ((made rs).map (·.createdAt)).Sublist (cs.map (·.now)) := by
  induction h with
  | nil => exact .slnil
  | @cons c result cs rs hmakes _ ih =>
      cases result with
      | error f => exact ih.cons _
      | ok e =>
          show (e.createdAt :: (made rs).map (·.createdAt)).Sublist _
          rw [(hmakes.2 e rfl).2]
          exact ih.cons_cons _

/-- So executions were made in the order of their creation times, if the clock was never
    set back. -/
theorem made_ordered {cs : List Creation} {rs : List (Except Failure Execution)}
    (h : List.Forall₂ Makes cs rs) (hclock : (cs.map (·.now.instant)).Pairwise (· ≤ ·)) :
    ((made rs).map (·.createdAt.instant)).Pairwise (· ≤ ·) := by
  have hsub := (createdAt_sublist h).map Timestamp.instant
  rw [List.map_map, List.map_map] at hsub
  exact hclock.sublist hsub

end Creation

/-- Of two tests, one of which asks for more, the same items pass where both do. -/
theorem map_filter_eq_iff {α β : Type} {f : α → β} {p q : α → Bool} {xs : List α}
    (hpq : ∀ x, p x = true → q x = true) :
    (xs.filter q).map f = (xs.filter p).map f ↔ ∀ x ∈ xs, q x = true → p x = true := by
  have hboth : (xs.filter q).filter p = xs.filter p := by
    rw [List.filter_filter]
    refine List.filter_congr fun x _ => ?_
    rw [Bool.eq_iff_iff, Bool.and_eq_true]
    exact and_iff_left_of_imp (hpq x)
  constructor
  · intro h x hx hqx
    have hlength := congrArg List.length h
    rw [List.length_map, List.length_map, ← hboth] at hlength
    have hall := List.filter_sublist.eq_of_length hlength.symm
    exact List.filter_eq_self.mp hall x (List.mem_filter.mpr ⟨hx, hqx⟩)
  · intro h
    rw [← hboth, List.filter_eq_self.mpr fun x hx =>
      h x (List.mem_filter.mp hx).1 (List.mem_filter.mp hx).2]

namespace Abreast

/-- A lookup in memory finds the executions for the very reference. -/
theorem lookup_memory (h : Abreast es wm wt) (hquery : EntityRef.toSubject query = .ok r)
    (now : Timestamp) : (Engine.executionsForSubject query).run { wm with now } =
      (.ok (es.filter fun e => e.subject == r), { wm with now }) := by
  rw [Engine.run_executionsForSubject hquery]
  show (wm.store.findForSubject now (.ref r), _) = _
  rw [h.memory]
  rfl

/-- A lookup in the table finds the shallow ones with its type and id, by creation. -/
theorem lookup_table (h : Abreast es wm wt) (hquery : EntityRef.toSubject query = .ok r) :
    ∃ found, (∀ now, (Engine.executionsForSubject query).run { wt with now } =
        (.ok found, { wt with now })) ∧
      List.Forall₂ Execution.ShownAs (Execution.byCreation
        ((es.filter fun e => e.subject.agrees r).filter Execution.isShallow)) found := by
  obtain ⟨rows, htable, hrows⟩ := h.table
  obtain ⟨found, hshown, hfound⟩ := TableStore.findForSubject_of_holds hrows
    (fun e he => h.universal e (List.mem_filter.mp he).1) r
  have hcomm : ((es.filter Execution.isShallow).filter fun e => e.subject.agrees r) =
      (es.filter fun e => e.subject.agrees r).filter Execution.isShallow := by
    rw [List.filter_filter, List.filter_filter]
    exact List.filter_congr fun _ _ => Bool.and_comm _ _
  refine ⟨found, fun now => ?_, hcomm ▸ hshown⟩
  rw [Engine.run_executionsForSubject hquery]
  show (wt.store.findForSubject now (.ref r), _) = _
  rw [htable]
  exact congrArg (·, _) (hfound now)

end Abreast

/-- The same executions are found by the reference as by its type and id just when all of
    the latter are of its kind. -/
theorem Execution.same_ids_iff : ((es.filter fun e => e.subject.agrees r).map (·.id) =
    (es.filter fun e => e.subject == r).map (·.id)) ↔
      ∀ e ∈ es.filter fun e => e.subject.agrees r, e.subject.kind = r.kind := by
  rw [map_filter_eq_iff fun e he => (EntityRef.eq_iff_agrees.mp (beq_iff_eq.mp he)).1,
    List.forall_mem_filter]
  refine forall₃_congr fun e _ hagrees => ?_
  rw [beq_iff_eq, EntityRef.eq_iff_agrees]
  exact and_iff_right hagrees

/-- After any creations in turn, of which memory makes those that are admitted, a lookup for
    a subject is answered by either store, and leaves it alone.  Memory finds the executions
    that were made for the very reference that the query comes to, in the order of their
    creation; a table finds those with its type and id, as their rows show them, in the order
    of their creation times, which is the same order where the clock was never set back.  A
    table makes the executions that memory makes, but for those with a context that is too
    deep.  So where there are none of these, both find the same ids exactly when all
    executions with the type and id are of the kind of the reference. -/
theorem subject_found (cs : List Creation) (hcs : ∀ c ∈ cs, c.now.offset = some 0)
    (hquery : EntityRef.toSubject query = .ok r) :
    let made := Creation.made (Creation.inMemory cs).1
    let same := made.filter fun e => e.subject == r
    let alike := made.filter fun e => e.subject.agrees r
    List.Forall₂ Creation.Makes cs (Creation.inMemory cs).1 ∧
    Creation.made (Creation.inTable cs).1 = made.filter Execution.isShallow ∧
    (∀ now, (Engine.executionsForSubject query).run { (Creation.inMemory cs).2 with now } =
      (.ok same, { (Creation.inMemory cs).2 with now })) ∧
    ∃ found,
      (∀ now, (Engine.executionsForSubject query).run { (Creation.inTable cs).2 with now } =
        (.ok found, { (Creation.inTable cs).2 with now })) ∧
      List.Forall₂ Execution.ShownAs
        (Execution.byCreation (alike.filter Execution.isShallow)) found ∧
      ((cs.map (·.now.instant)).Pairwise (· ≤ ·) →
        List.Forall₂ Execution.ShownAs (alike.filter Execution.isShallow) found ∧
        ((∀ e ∈ made, e.isShallow = true) →
          (found.map (·.id) = same.map (·.id) ↔ ∀ e ∈ alike, e.subject.kind = r.kind))) := by
  intro made same alike
  obtain ⟨habreast, hmade, hmakes⟩ := Abreast.empty.runAll hcs
  obtain ⟨found, hfound, hshown⟩ := habreast.lookup_table hquery
  refine ⟨hmakes, hmade, habreast.lookup_memory hquery, found, hfound, hshown, fun hclock => ?_⟩
  have hpicked : ((alike.filter Execution.isShallow).map (·.createdAt.instant)).Sublist
      (made.map (·.createdAt.instant)) :=
    (List.filter_sublist.trans List.filter_sublist).map _
  have hordered : Execution.byCreation (alike.filter Execution.isShallow) =
      alike.filter Execution.isShallow :=
    Execution.byCreation_of_ordered ((Creation.made_ordered hmakes hclock).sublist hpicked)
  replace hshown : List.Forall₂ Execution.ShownAs (alike.filter Execution.isShallow) found :=
    hordered ▸ hshown
  refine ⟨hshown, fun hshallow => ?_⟩
  rw [List.filter_eq_self.mpr fun e he => hshallow e (List.mem_filter.mp he).1] at hshown
  rw [Execution.ids_of_shownAs hshown]
  exact Execution.same_ids_iff

/-- The creation of a parcel for a subject. -/
def parcelFor (subject : Value) : Creation :=
  { engine := parcelEngine, workflow := "parcel", subject }

/-- Parcels for one box, given as a map, as a thing and as an actor, and one for a crate. -/
def boxCreations : List Creation :=
  [ parcelFor (.dict [(.str "type", .str "Box"), (.str "id", .int 7)]),
    parcelFor (.thing "Box" (some (.str "7"))), parcelFor (.ref (.actor "Box" "7")),
    parcelFor (.ref (.subject "Crate" "7")) ]

/-- A table finds all parcels for the box, memory those that were not made for an actor. -/
theorem boxCreations_found :
    let query : Value := .thing "Box" (some (.int 7))
    (∀ c ∈ boxCreations, c.now.offset = some 0) ∧
    EntityRef.toSubject query = .ok (.subject "Box" "7") ∧
    (∃ same, ((Engine.executionsForSubject query).run (Creation.inMemory boxCreations).2).1 =
      .ok same ∧ same.map (·.id) = ["exec-1", "exec-2"]) ∧
    ∃ found, ((Engine.executionsForSubject query).run (Creation.inTable boxCreations).2).1 =
      .ok found ∧ found.map (·.id) = ["exec-1", "exec-2", "exec-3"] := by
  intro query
  have hcs : ∀ c ∈ boxCreations, c.now.offset = some 0 := by decide
  have hquery : EntityRef.toSubject query = .ok (.subject "Box" "7") := rfl
  obtain ⟨_, _, hmemory, found, hfound, _, hclock⟩ := subject_found boxCreations hcs hquery
  obtain ⟨hshown, _⟩ := hclock (by decide +kernel)
  refine ⟨hcs, hquery, ⟨_, congrArg Prod.fst (hmemory _), ?_⟩, found,
    congrArg Prod.fst (hfound _), ?_⟩
  · decide +kernel
  · rw [Execution.ids_of_shownAs hshown]
    decide +kernel

/-- A parcel that is made for an actor is not found in memory by the actor's type and id,
    though a table finds it. -/
theorem actorParcel_missed :
    let cs := [parcelFor (.ref (.actor "Box" "7"))]
    let query : Value := .dict [(.str "type", .str "Box"), (.str "id", .str "7")]
    (Creation.made (Creation.inMemory cs).1).map (fun e => (e.id, e.subject)) =
      [("exec-1", .actor "Box" "7")] ∧
    EntityRef.toSubject query = .ok (.subject "Box" "7") ∧
    ((Engine.executionsForSubject query).run (Creation.inMemory cs).2).1.toOption.map
      (·.map (·.id)) = some [] ∧
    ((Engine.executionsForSubject query).run (Creation.inTable cs).2).1.toOption.map
      (·.map (·.id)) = some ["exec-1"] := by
  intro cs query
  refine ⟨?_, rfl, ?_, ?_⟩
  · decide +kernel
  · decide +kernel
  · decide +kernel

end Workflow
