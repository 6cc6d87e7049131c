import Workflow.Proofs.Operation
import Workflow.Proofs.Row

/-! # Ledger — what operations do to the list of checkpoints

    The stored checkpoints of an execution are a ledger: an operation leaves it as it
    is, or enters one more at its end, where the oldest go when there are too many.
    The heart is `Ledger.of_change`, which says so of every operation at once. -/

namespace Workflow

variable {g : Engine} {base p e : Execution} {m : Moment} {op : Operation} {n n' : Nat}
  {ds ds' : List Value}

/-- Is the document one of a checkpoint that is read in full, taken under one of the
    first ids? -/
def Checkpoint.Legible (n : Nat) (d : Value) : Prop :=
  d.Plain ∧ ∃ c k, Checkpoint.Reads d c ∧ (∀ r ∈ c.capturedHistory, r.Lasts) ∧
    c.id = s!"cp-{k}" ∧ k ≤ n

theorem Checkpoint.Legible.mono {d : Value} (h : Legible n d) (hn : n ≤ n') : Legible n' d := by
  obtain ⟨hplain, c, k, hreads, hhistory, hid, hk⟩ := h
  exact ⟨hplain, c, k, hreads, hhistory, hid, Nat.le_trans hk hn⟩

/-- Are these documents the stored checkpoints of an execution, all of them legible,
    and its history one that lasts? -/
structure Ledger (n : Nat) (ds : List Value) (e : Execution) : Prop where
  current : ∃ step, e.currentStep = .str step
  history : ∀ r ∈ e.history, r.Lasts
  listed  : ∃ entries : Mapping, e.context = .dict entries ∧ entries.Texts ∧
    (entries.under checkpointsKey = [] ∧ ds = [] ∨
      entries.under checkpointsKey = [.list ds])
  legible : ∀ d ∈ ds, Checkpoint.Legible n d

namespace Ledger

theorem mono (h : Ledger n ds e) (hn : n ≤ n') : Ledger n' ds e :=
  ⟨h.current, h.history, h.listed, fun d hd => (h.legible d hd).mono hn⟩

theorem committed (h : Ledger n ds e) (v : Int) (now : Timestamp) :
    Ledger n ds (e.committed v now) := ⟨h.current, h.history, h.listed, h.legible⟩

theorem plain (h : Ledger n ds e) : ∀ d ∈ ds, d.Plain := fun d hd => (h.legible d hd).1

/-- The ledger is what is stored. -/
theorem stored_eq (h : Ledger n ds e) : Checkpoint.stored e = .ok ds := by
  obtain ⟨entries, he, _, hds⟩ := h.listed
  exact Checkpoint.stored_of_under he hds fun d hd => (h.plain d hd).closed

theorem unique (h : Ledger n ds e) (h' : Ledger n' ds' e) : ds = ds' :=
  Except.ok.inj (h.stored_eq.symm.trans h'.stored_eq)

/-- What is found in it has plain entries and a history that lasts. -/
theorem found {id : String} {now : Timestamp} {s s' : Serials} {c : Checkpoint}
    (h : Ledger n ds e) (hfound : (Checkpoint.find e id).runAt now s = (.ok c, s')) :
    (Value.dict (c.capturedContext.getD [])).Plain ∧ ∀ r ∈ c.capturedHistory, r.Lasts := by
  obtain ⟨_, ds', d, freshId, hds', hd, hread⟩ := Checkpoint.find_ok (fun ds' hds' d hd =>
    (h.plain d (Except.ok.inj (h.stored_eq.symm.trans hds') ▸ hd)).closed) hfound
  obtain rfl := Except.ok.inj (h.stored_eq.symm.trans hds')
  obtain ⟨hplain, c', _, hreads, hhistory, _⟩ := h.legible d hd
  obtain rfl := Checked.ok.inj (hreads.2 now freshId ▸ hread)
  exact ⟨Checkpoint.plain_of_read hplain hread, hhistory⟩

/-- The entries of its context have texts as keys, and at most one of them is the list
    of checkpoints. -/
theorem entries {entries : Mapping} (h : Ledger n ds e) (he : e.context = .dict entries) :
    entries.Texts ∧ (entries.under checkpointsKey).tail = [] := by
  obtain ⟨entries', he', htexts, hds⟩ := h.listed
  rw [← Value.dict.inj (he'.symm.trans he)]
  refine ⟨htexts, ?_⟩
  rcases hds with ⟨h, _⟩ | h
  · rw [h]
    rfl
  · rw [h]
    rfl

/-- Another execution with a context where the same stands has the same ledger. -/
theorem relocated {entries entries' : Mapping} (h : Ledger n ds base)
    (he : base.context = .dict entries) (hp : p.context = .dict entries')
    (htexts : entries.Texts → entries'.Texts)
    (hunder : entries'.under checkpointsKey = entries.under checkpointsKey)
    (hcurrent : ∃ step, p.currentStep = .str step) (hhistory : ∀ r ∈ p.history, r.Lasts) :
    Ledger n ds p := by
  obtain ⟨entries₀, he₀, htexts₀, hds⟩ := h.listed
  obtain rfl : entries = entries₀ := Value.dict.inj (he.symm.trans he₀)
  rw [← hunder] at hds
  exact ⟨hcurrent, hhistory, ⟨entries', hp, htexts htexts₀, hds⟩, h.legible⟩

/-- A history that goes on with a record that lasts goes on lasting. -/
theorem history_concat (h : Ledger n ds base) {r : TransitionRecord} (hr : r.Lasts) :
    ∀ x ∈ base.history ++ [r], x.Lasts := by
  intro x hx
  rcases List.mem_append.mp hx with hx | hx
  · exact h.history x hx
  · exact List.mem_singleton.mp hx ▸ hr

/-- What a row shows of an execution with a ledger has the same one: the stored
    checkpoints were documents before. -/
theorem reread (h : Ledger n ds e) {now : Timestamp} {e' : Execution} (hr : Reread now e e') :
    Ledger n ds e' := by
  obtain ⟨entries, he, htexts, hds⟩ := h.listed
  obtain ⟨step, hstep⟩ := h.current
  obtain ⟨fs, hfs, he'⟩ := hr.context
  rw [he] at hfs
  have hhistory : e'.history = e.history :=
    Except.ok.inj (hr.history.symm.trans (Row.records_of_lasts h.history now))
  refine ⟨⟨step, hr.currentStep_eq hstep⟩, hhistory ▸ h.history,
    ⟨fs, he', (Document.plain_of_ofValue hfs).texts, ?_⟩, h.legible⟩
  rcases hds with ⟨hnone, hnil⟩ | hds
  · obtain ⟨vs, hvs, hunder⟩ := Document.under_of_ofValue htexts hfs checkpointsKey
    rw [hnone] at hvs
    cases hvs
    exact .inl ⟨hunder, hnil⟩
  · exact .inr (Document.under_of_ofValue_plain htexts hfs hds (.list h.plain)).1

end Ledger

/-! ## Entering a checkpoint -/

/-- A checkpoint of an execution with a ledger lasts, and its document is the new last
    one. -/
theorem Engine.Stows.enters {s : Serials} {onto context : Mapping} {c : Checkpoint}
    (h : g.Stows base m s onto c context) (htime : m.time.offset = some 0)
    (hbase : Ledger m.before.checkpoints ds base) :
    ∃ d, c.document = .ok d ∧ c.Lasts ∧ c.id = s!"cp-{m.after.checkpoints}" ∧
      m.before.checkpoints < m.after.checkpoints ∧
      context = onto.set checkpointsKey
        (.list (Checkpoint.newest g.settings.recovery.maxCheckpoints (ds ++ [d]))) := by
  obtain ⟨entries, he, _⟩ := hbase.listed
  obtain ⟨step, hstep⟩ := hbase.current
  obtain ⟨label, captured, hc, _, hafter⟩ := h.taken_eq he hstep
  have hstored : ∀ ds', Checkpoint.stored base = .ok ds' → ds = ds' :=
    fun ds' hds' => Except.ok.inj (hbase.stored_eq.symm.trans hds')
  obtain ⟨ds', d, hds', hd, hcontext⟩ := h.context_eq fun ds' hds' =>
    hstored ds' hds' ▸ fun d hd => (hbase.plain d hd).closed
  refine ⟨d, hd, ?_, ?_, ?_, hstored ds' hds' ▸ hcontext⟩
  · rw [hc]
    exact ⟨.universal htime, hbase.history⟩
  · rw [hc, hafter]
    rfl
  · rw [hafter]
    exact Nat.lt_succ_of_le h.later

/-- So the ledger goes on with it, over entries with at most one list of checkpoints. -/
theorem Engine.Stows.ledger {s : Serials} {onto context : Mapping} {c : Checkpoint}
    (h : g.Stows base m s onto c context) (htime : m.time.offset = some 0)
    (hbase : Ledger m.before.checkpoints ds base)
    (htexts : onto.Texts) (honto : (onto.under checkpointsKey).tail = [])
    (hp : p.context = .dict context) (hcurrent : ∃ step, p.currentStep = .str step)
    (hhistory : ∀ r ∈ p.history, r.Lasts) : ∃ d, c.document = .ok d ∧ Ledger m.after.checkpoints
      (Checkpoint.newest g.settings.recovery.maxCheckpoints (ds ++ [d])) p := by
  obtain ⟨d, hd, hlasts, hid, hlt, rfl⟩ := h.enters htime hbase
  obtain ⟨o, hreads, _⟩ := Checkpoint.document_reads hlasts hd
  refine ⟨d, hd, hcurrent, hhistory, ⟨_, hp, htexts.set _ _, .inr ?_⟩, fun x hx => ?_⟩
  · rw [Mapping.under_set, if_pos rfl, honto]
  · rcases List.mem_append.mp (Checkpoint.mem_of_mem_newest hx) with hx | hx
    · exact (hbase.legible x hx).mono (Nat.le_of_lt hlt)
    · rw [List.mem_singleton.mp hx]
      exact ⟨Checkpoint.document_plain hd, _, _, hreads, hlasts.2, hid, Nat.le_refl _⟩

/-! ## Every operation -/

/-- Does the operation enter a checkpoint when it writes? -/
def Operation.enters : Operation → Bool
  | .createCheckpoint .. => true
  | .restore ..          => true
  | .recover ..          => true
  | _                    => false

/-- What a write of the operation makes of a ledger. -/
def Operation.Relists (g : Engine) (op : Operation) (ds ds' : List Value) : Prop :=
  if op.enters then
    ∃ d, ds' = Checkpoint.newest g.settings.recovery.maxCheckpoints (ds ++ [d])
  else ds' = ds

/-- What a write of the operation makes of the ledger of a snapshot: when it enters a
    checkpoint, it is one of this snapshot. -/
def Operation.Extends (g : Engine) (op : Operation) (base : Execution) (m : Moment)
    (ds ds' : List Value) : Prop :=
  if op.enters then
    ∃ s onto c context d, g.Stows base m s onto c context ∧ c.document = .ok d ∧
      ds' = Checkpoint.newest g.settings.recovery.maxCheckpoints (ds ++ [d])
  else ds' = ds

theorem Operation.Extends.relists (h : op.Extends g base m ds ds') : op.Relists g ds ds' := by
  unfold Extends at h
  unfold Relists
  by_cases henters : op.enters = true
  · rw [if_pos henters] at h ⊢
    obtain ⟨_, _, _, _, d, _, _, hds'⟩ := h
    exact ⟨d, hds'⟩
  · rw [if_neg henters] at h ⊢
    exact h

/-- Does the workflow of the execution require no reserved key? -/
def Engine.Unreserved (g : Engine) (e : Execution) : Prop :=
  ∀ d, g.definitionFor e = .ok (some d) → ∀ k ∈ d.requiredKeys, isReservedName k = false

theorem Engine.unreserved_of_registry
    (hkeys : ∀ name d, g.registry.get? name = some d → ∀ k ∈ d.requiredKeys,
      isReservedName k = false) (e : Execution) : g.Unreserved e := by
  intro d hd
  obtain ⟨name, _, hregistered⟩ := definitionFor_some hd
  exact hkeys name d hregistered

/-- The keys that are required depend on nothing but the name of the workflow. -/
theorem Engine.Unreserved.of_workflowName {g : Engine} {e p : Execution} (h : g.Unreserved e)
    (hname : p.workflowName = e.workflowName) : g.Unreserved p := by
  have hdefinition : g.definitionFor p = g.definitionFor e := by
    unfold Engine.definitionFor
    rw [hname]
  exact fun d hd => h d (hdefinition ▸ hd)

/-- An actor that an argument stands for is an actor. -/
theorem Engine.StandsFor.kind {actor : Value} {ref : Option EntityRef}
    (h : StandsFor actor ref) : ∀ r, ref = some r → r.kind = .actor := by
  have hloose {v : Value} {r : EntityRef} (h : EntityRef.ofLoose .actor v = .ok r) :
      r.kind = .actor := by
    unfold EntityRef.ofLoose at h
    split at h
    · unfold EntityRef.ofMapping at h
      split at h
      · rw [← Except.ok.inj h]
      · exact nomatch h
      · exact nomatch h
    · split at h
      · exact nomatch h
      · rw [← Except.ok.inj h]
    · exact nomatch h
  rcases h with ⟨_, rfl⟩ | ⟨r, hr, rfl⟩
  · exact fun r hr => nomatch hr
  · intro r' hr'
    rw [← Option.some.inj hr']
    unfold EntityRef.toActor at hr
    split at hr
    · rw [← Except.ok.inj hr]; rfl
    · rw [← Except.ok.inj hr]; rfl
    · rw [← Except.ok.inj hr]; rfl
    · exact hloose hr

/-- Whatever an operation may write over an execution with a ledger has one, which
    the operation leaves as it is or goes on with. -/
theorem Ledger.of_change (hkeys : g.Unreserved base) (h : Change g base m op p)
    (htime : m.time.offset = some 0) (hcount : m.before.checkpoints ≤ m.after.checkpoints)
    (hbase : Ledger m.before.checkpoints ds base) :
    ∃ ds', Ledger m.after.checkpoints ds' p ∧ op.Extends g base m ds ds' := by
  obtain ⟨entries, he, htexts, _⟩ := hbase.listed
  have hsystem (a b action : String) :
      (⟨a, b, action, some .systemRecovery, m.time⟩ : TransitionRecord).Lasts :=
    ⟨.universal htime, fun r hr => Option.some.inj hr ▸ rfl⟩
  -- What is written without a checkpoint keeps what stands under their key.
  have hkept {entries' : Mapping} (hop : op.enters = false) (hp : p.context = .dict entries')
      (htexts : entries.Texts → entries'.Texts)
      (hunder : entries'.under checkpointsKey = entries.under checkpointsKey)
      (hcurrent : ∃ step, p.currentStep = .str step) (hhistory : ∀ r ∈ p.history, r.Lasts) :
      ∃ ds', Ledger m.after.checkpoints ds' p ∧ op.Extends g base m ds ds' := by
    refine ⟨ds, (hbase.relocated he hp htexts hunder hcurrent hhistory).mono hcount, ?_⟩
    unfold Operation.Extends
    rw [if_neg (Bool.eq_false_iff.mp hop)]
  -- What is written with one goes on with its document.
  have hentered {s : Serials} {onto context : Mapping} {c : Checkpoint}
      (hop : op.enters = true) (hc : g.Stows base m s onto c context)
      (honto : onto.Texts ∧ (onto.under checkpointsKey).tail = [])
      (hp : p.context = .dict context) (hcurrent : ∃ step, p.currentStep = .str step)
      (hhistory : ∀ r ∈ p.history, r.Lasts) :
      ∃ ds', Ledger m.after.checkpoints ds' p ∧ op.Extends g base m ds ds' := by
    obtain ⟨d, hd, hledger⟩ := hc.ledger htime hbase honto.1 honto.2 hp hcurrent hhistory
    refine ⟨_, hledger, ?_⟩
    unfold Operation.Extends
    rw [if_pos hop]
    exact ⟨_, _, c, _, d, hc, hd, rfl⟩
  cases h with
  | advanced _ hvalues hactor hcontext =>
      rw [he] at hcontext
      exact hkept rfl (updated_dict hcontext) (fun h => h.merge (texts_of_valid hvalues))
        (under_merge_valid hvalues entries) ⟨_, rfl⟩
        (hbase.history_concat ⟨.universal htime, hactor.kind⟩)
  | marked _ hcontext =>
      obtain ⟨v, rfl, _⟩ := failedContext_dict he hcontext
      refine hkept rfl rfl (fun h => h.set _ _) ?_ hbase.current hbase.history
      rw [Mapping.under_set, if_neg (by decide)]
  | merged hvalues hcontext =>
      rw [he] at hcontext
      exact hkept rfl (updated_dict hcontext) (fun h => h.merge (texts_of_valid hvalues))
        (under_merge_valid hvalues entries) hbase.current hbase.history
  | paused _ => exact hkept rfl he id rfl hbase.current hbase.history
  | resumed _ => exact hkept rfl he id rfl hbase.current hbase.history
  | checkpointed he' hc => exact hentered rfl hc (hbase.entries he') rfl hbase.current hbase.history
  | restored hfound hbackup =>
      obtain ⟨honto, hhistory⟩ := hbase.found hfound
      refine hentered rfl hbackup ⟨honto.texts, ?_⟩ rfl ⟨_, rfl⟩ hhistory
      -- the context of a listed checkpoint is plain, so it has no key twice
      rcases Mapping.under_of_plain honto checkpointsKey with h | ⟨v, h⟩
      · rw [h]
        rfl
      · rw [h]
        rfl
  | @filled t d context missing hdef hfill _ =>
      rw [he] at hfill
      exact hkept rfl (fillContext_dict hfill) fillMissing_texts
        (under_fillMissing d (hkeys d hdef) entries) hbase.current hbase.history
  | @reset t d context missing initial hdef hfill _ _ =>
      rw [he] at hfill
      exact hkept rfl (fillContext_dict hfill) fillMissing_texts
        (under_fillMissing d (hkeys d hdef) entries) ⟨_, rfl⟩
        (hbase.history_concat (hsystem _ _ _))
  | moved _ _ _ _ _ _ he' hc =>
      exact hentered rfl hc (hbase.entries he') rfl ⟨_, rfl⟩ (hbase.history_concat (hsystem _ _ _))
  | prepared _ he' hc => exact hentered rfl hc (hbase.entries he') rfl hbase.current hbase.history

/-- What is created has an empty ledger. -/
theorem Ledger.of_creates (h : op.Creates g m e) (n : Nat) : Ledger n [] e := by
  cases op with
  | create workflow subject actor context =>
      obtain ⟨d, initial, subject, actor, values, hd, hinitial, hvalues, he⟩ := h
      obtain ⟨id, s, _, he⟩ := Draft.runAt_bind_ok.mp he
      obtain ⟨now, s', _, he⟩ := Draft.runAt_bind_ok.mp he
      obtain ⟨rfl, _⟩ := Draft.runAt_pure_ok.mp he
      exact ⟨⟨initial, rfl⟩, (fun r hr => absurd hr List.not_mem_nil),
        ⟨values, rfl, texts_of_valid hvalues, .inl ⟨under_of_valid hvalues, rfl⟩⟩,
        fun d hd => absurd hd List.not_mem_nil⟩
  | _ => exact h.elim

end Workflow
