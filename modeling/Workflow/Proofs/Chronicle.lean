import Workflow.Proofs.Audit
import Workflow.Proofs.Restore

/-! # Chronicle — the list of checkpoints is a log of bounded length

    Every commit that enters a checkpoint writes a document, of the snapshot that it
    replaces, behind those that are kept already.  The documents in the order of these
    commits are the log of an execution; its list holds the newest of them, as many as
    there is room for, whoever else writes to the execution in between and whatever saves
    are lost.

    The heart is `Chronicle.commit`, one commit; `Chronicled.step` carries it through a
    run, for each execution that is created in it and whose workflow leaves the reserved
    keys alone. -/

namespace Workflow

variable {g : Engine} {op : Operation} {base p e e' : Execution} {m : Moment} {d : Value}
  {c : Checkpoint} {ds log : List Value} {n n' : Nat} {id : String}

/-- What is created is of the workflow that was asked for. -/
theorem Operation.Creates.named (h : op.Creates g m e) :
    ∃ name, e.workflowName = .str name := by
  cases op with
  | create workflow subject actor context =>
      obtain ⟨d, initial, subject, actor, values, _, _, _, he⟩ := h
      obtain ⟨id, s, _, he⟩ := Draft.runAt_bind_ok.mp he
      obtain ⟨now, s', _, he⟩ := Draft.runAt_bind_ok.mp he
      obtain ⟨rfl, _⟩ := Draft.runAt_pure_ok.mp he
      exact ⟨d.name, rfl⟩
  | _ => exact h.elim

/-! ## Documents -/

namespace Mapping

variable {m : Mapping} {k : String}

/-- Nothing stands under the key that a copy leaves out. -/
theorem under_copyTop (m : Mapping) (k : String) :
    (m.copyTop fun key => !(Value.str k).equal key).under k = [] := by
  refine under_eq_nil_iff.mpr ?_
  intro x hx
  obtain ⟨y, hy, rfl⟩ := List.mem_map.mp hx
  have hkeep : (!(Value.str k).equal y.1) = true := (List.mem_filter.mp hy).2
  rw [Value.str_equal, Bool.not_eq_true', beq_eq_false_iff_ne] at hkeep
  exact hkeep

theorem Texts.copyTop (h : m.Texts) (keep : Value → Bool) : (m.copyTop keep).Texts := by
  intro x hx
  obtain ⟨y, hy, rfl⟩ := List.mem_map.mp hx
  exact h y (List.mem_filter.mp hy).1

end Mapping

namespace Lax

/-- A map that is read of one with texts as keys has texts as keys, and nothing under a
    key that the other lacks. -/
theorem mapping_under {path k : String} {es captured : Mapping} (htexts : es.Texts)
    (h : mapping path (.dict es) = .ok captured) (hk : es.under k = []) :
    captured.Texts ∧ captured.under k = [] := by
  unfold mapping entries at h
  dsimp only at h
  split at h
  · rw [← Checked.ok.inj h]
    have hitems : ∀ f ∈ es.copy.map fun x => (Value.str ((textOf? x.1).getD ""), x.2),
        ∃ x ∈ es, f.1 = .str ((textOf? x.1).getD "") := by
      intro f hf
      obtain ⟨y, hy, rfl⟩ := List.mem_map.mp hf
      obtain ⟨x, hx, rfl⟩ := List.mem_map.mp hy
      exact ⟨x, (List.mem_filter.mp hx).1, rfl⟩
    have hstrs : ∀ f ∈ es.copy.map fun x => (Value.str ((textOf? x.1).getD ""), x.2),
        f.1.isText = true := by
      intro f hf
      obtain ⟨x, _, hx⟩ := hitems f hf
      rw [hx]
      rfl
    refine ⟨Mapping.Texts.merge (fun _ hx => absurd hx List.not_mem_nil) hstrs, ?_⟩
    have hnone : Mapping.under (es.copy.map fun x => (Value.str ((textOf? x.1).getD ""), x.2)) k
        = [] := by
      -- a key that is a text is read as this text
      refine Mapping.under_eq_nil_iff.mpr ?_
      intro f hf
      obtain ⟨x, hx, hkey⟩ := hitems f hf
      obtain ⟨t, ht⟩ := Option.isSome_iff_exists.mp (htexts x hx)
      have hne : x.1.toText? ≠ some k := Mapping.under_eq_nil_iff.mp hk x hx
      rw [hkey, textOf?_of_isText (htexts x hx), ht]
      rw [ht] at hne
      exact hne
    rw [Mapping.under_ofEntries hstrs, hnone]
    rfl
  · exact nomatch h

end Lax

namespace Document

/-- So the document of a map holds nothing under a key that the map lacks. -/
theorem ofMapping_under {es fs : Mapping} {k : String} (htexts : es.Texts)
    (h : ofMapping es = .ok fs) (hk : es.under k = []) : fs.under k = [] := by
  obtain ⟨ds, hds, hunder⟩ := under_of_ofValue htexts (ofMapping_ok.mp h) k
  rw [hk] at hds
  cases hds
  exact hunder

end Document

namespace Checkpoint

/-- Does the document hold a list of checkpoints among the data that was captured? -/
def HoldsList (d : Value) : Prop :=
  ∃ fields captured : Mapping, d = .dict fields ∧
    fields.field? "captured_context" = some (.dict captured) ∧
    captured.contains checkpointsKey = true

/-- Is the document read as a checkpoint that was taken in universal time, whenever it is
    read, and does it hold no list of checkpoints? -/
structure Sealed (d : Value) : Prop where
  reads : ∃ c, Reads d c ∧ c.createdAt.offset = some 0
  bare  : ¬HoldsList d

/-- What was dropped to make room before is dropped again. -/
theorem newest_concat {α : Type} (limit : Int) (xs : List α) (x : α) :
    newest limit (newest limit xs ++ [x]) = newest limit (xs ++ [x]) := by
  have hkept : newest limit xs ++ [x] = (xs ++ [x]).drop (xs.length - limit.toNat) :=
    (List.drop_append_of_le_length (Nat.sub_le _ _)).symm
  rw [hkept]
  unfold newest
  rw [List.drop_drop, List.length_drop, List.length_append, List.length_singleton]
  congr 1
  omega

end Checkpoint

/-- The document of a checkpoint that was taken of an execution with a ledger is sealed:
    the capture leaves the list out. -/
theorem Engine.Stows.isSealed {s : Serials} {onto context : Mapping}
    (h : g.Stows base m s onto c context) (htime : m.time.offset = some 0)
    (hbase : Ledger m.before.checkpoints ds base) (hd : c.document = .ok d) :
    Checkpoint.Sealed d := by
  obtain ⟨entries, hentries, htexts, _⟩ := hbase.listed
  obtain ⟨step, hstep⟩ := hbase.current
  obtain ⟨label, captured, hc, hcaptured, _⟩ := h.taken_eq hentries hstep
  obtain ⟨_, _, hlasts, _⟩ := h.enters htime hbase
  obtain ⟨o, hreads, _⟩ := Checkpoint.document_reads hlasts hd
  refine ⟨⟨_, hreads, ?_⟩, ?_⟩
  · rw [hc]
    exact htime
  · rintro ⟨fields, held, hfields, hfield, hcontains⟩
    obtain ⟨v, hv, rfl⟩ := Checkpoint.document_columns hd
    have hfield : some v = some (.dict held) := by
      rw [← hfield, ← Value.dict.inj hfields]
      rfl
    rw [Option.some.inj hfield] at hv
    -- what the document holds is the document of what was captured
    have hdocument : (Document.ofMapping captured).map Value.dict = .ok (.dict held) := by
      rw [← hv, hc]
      rfl
    obtain ⟨fs, hfs, hheld⟩ := exceptMap_ok.mp hdocument
    rw [Value.dict.inj hheld] at hfs
    obtain ⟨hcapturedTexts, hcapturedUnder⟩ := Lax.mapping_under (htexts.copyTop _) hcaptured
      (Mapping.under_copyTop entries checkpointsKey)
    have hunder := Document.ofMapping_under hcapturedTexts hfs hcapturedUnder
    exact nomatch hcontains.symm.trans (Mapping.contains_of_under hunder)

namespace Checkpoint

/-! ## What is kept is read -/

/-- The time between two times of universal time is known. -/
theorem elapsedMicros_of_universal {now t : Timestamp} (hnow : now.offset = some 0)
    (ht : t.offset = some 0) : elapsedMicros now t = .ok (now.instant - t.instant) := by
  unfold elapsedMicros Timestamp.since? Timestamp.isAware
  rw [hnow, ht]
  rfl

theorem Sealed.listed (h : Sealed d) : ∃ c, Reads d c ∧ ∀ now : Timestamp,
    now.offset = some 0 → ∃ v, listed now c = .ok v := by
  obtain ⟨c, hreads, htime⟩ := h.reads
  refine ⟨c, hreads, ?_⟩
  intro now hnow
  exact ⟨_, exceptBind_ok.mpr ⟨_, elapsedMicros_of_universal hnow htime, rfl⟩⟩

theorem listAll_ok {cs : List Checkpoint} {now : Timestamp}
    (h : ∀ c ∈ cs, ∃ v, listed now c = .ok v) : ∃ vs, listAll now cs = .ok vs := by
  induction cs with
  | nil => exact ⟨[], rfl⟩
  | cons c cs ih =>
      rw [List.forall_mem_cons] at h
      obtain ⟨v, hv⟩ := h.1
      obtain ⟨vs, hvs⟩ := ih h.2
      exact ⟨v :: vs, exceptBind_ok.mpr ⟨v, hv, exceptBind_ok.mpr ⟨vs, hvs, rfl⟩⟩⟩

end Checkpoint

/-! ## The log of an execution -/

section Log

variable {ι : Type} {ops : ι → Operation} {xs : List (Commit ι)}

/-- Is the document that of a checkpoint of the snapshot on which the commit was decided, and
    has it come last in the list that was written? -/
def Commit.Enters (g : Engine) (ops : ι → Operation) (x : Commit ι) (d : Value) : Prop :=
  ∃ base m label s c older, Change g base m (ops x.client) x.write.offered ∧
    x.write.expected = base.version ∧
    (Checkpoint.capture base label).runAt m.time s = (.ok c, m.after) ∧ c.document = .ok d ∧
    Checkpoint.stored x.write.offered =
      .ok (Checkpoint.newest g.settings.recovery.maxCheckpoints (older ++ [d]))

/-- The commits that enter a checkpoint. -/
def entering (ops : ι → Operation) (xs : List (Commit ι)) : List (Commit ι) :=
  xs.filter fun x => (ops x.client).enters

/-- Are these the documents of the checkpoints that were entered by commits to an
    execution, in order, and is its list the newest of them? -/
structure Chronicle (g : Engine) (ops : ι → Operation) (xs : List (Commit ι))
    (log : List Value) (n : Nat) (e : Execution) : Prop where
  entered  : List.Forall₂ (Commit.Enters g ops) (entering ops xs) log
  kept     : Ledger n (Checkpoint.newest g.settings.recovery.maxCheckpoints log) e
  faithful : ∀ d ∈ log, Checkpoint.Sealed d

namespace Chronicle

theorem mono (h : Chronicle g ops xs log n e) (hn : n ≤ n') : Chronicle g ops xs log n' e :=
  ⟨h.entered, h.kept.mono hn, h.faithful⟩

/-- What a reader is shown has the log of what was put in. -/
theorem shown {slot : Slot} (h : Chronicle g ops xs log n e) (hholds : slot.Holds e)
    (hshows : slot.Shows e') : Chronicle g ops xs log n e' := by
  refine ⟨h.entered, ?_, h.faithful⟩
  cases hholds with
  | value =>
      obtain rfl : e = e' := hshows
      exact h.kept
  | row created hrow =>
      obtain ⟨now, hshows⟩ := hshows
      exact h.kept.reread (TableRow.reread_of_row hrow hshows)

/-- What is created has an empty log. -/
theorem of_creates (h : op.Creates g m e) (n : Nat) : Chronicle g ops [] [] n e := by
  refine ⟨.nil, ?_, fun _ hd => absurd hd List.not_mem_nil⟩
  rw [show Checkpoint.newest g.settings.recovery.maxCheckpoints ([] : List Value) = [] from
    List.drop_nil]
  exact .of_creates h n

/-- A commit goes on with the log by the document of the checkpoint that it enters, if it
    enters one. -/
theorem commit (h : Chronicle g ops xs log n base) (hkeys : g.Unreserved base) {i : ι}
    (hchange : Change g base m (ops i) p) (htime : m.time.offset = some 0)
    (hcount : m.before.checkpoints ≤ m.after.checkpoints)
    (hbase : Ledger m.before.checkpoints ds base) (now : Timestamp) :
    ∃ log', Chronicle g ops
      (xs ++ [⟨i, now, ⟨p, base.version, p.committed base.version now⟩⟩]) log'
      m.after.checkpoints (p.committed base.version now) := by
  obtain ⟨ds', hledger, hextends⟩ := hbase.of_change hkeys hchange htime hcount
  -- the ledger that was decided on is the end of the log, whenever it was read
  obtain rfl : ds = Checkpoint.newest g.settings.recovery.maxCheckpoints log :=
    hbase.unique h.kept
  unfold Operation.Extends at hextends
  by_cases henters : (ops i).enters = true
  · rw [if_pos henters] at hextends
    obtain ⟨s, onto, c, context, d, hstows, hd, rfl⟩ := hextends
    rw [Checkpoint.newest_concat] at hledger
    refine ⟨log ++ [d], ?_, hledger.committed _ _, ?_⟩
    · unfold entering
      rw [List.filter_append, List.filter_cons, if_pos henters, List.filter_nil]
      refine List.rel_append h.entered (.cons ?_ .nil)
      obtain ⟨label, htaken⟩ := hstows.taken
      exact ⟨base, m, label, s, c, log, hchange, rfl, htaken, hd, hledger.stored_eq⟩
    · intro x hx
      rcases List.mem_append.mp hx with hx | hx
      · exact h.faithful x hx
      · rw [List.mem_singleton.mp hx]
        exact hstows.isSealed htime hbase hd
  · rw [if_neg henters] at hextends
    rw [hextends] at hledger
    refine ⟨log, ?_, hledger.committed _ _, h.faithful⟩
    unfold entering
    rw [List.filter_append, List.filter_cons, if_neg henters, List.filter_nil,
      List.append_nil]
    exact h.entered

end Chronicle

/-- What is known of a slot after commits to it: it was not filled by any, or each
    execution that it shows has a log, if its workflow leaves the reserved keys alone. -/
inductive Account (g : Engine) (ops : ι → Operation) (xs : List (Commit ι)) (n : Nat) :
    Option Slot → Prop where
  | empty : xs = [] → Account g ops xs n none
  | filled {slot : Slot} :
      (∀ e, slot.Shows e → (∃ name, e.workflowName = .str name) ∧
        (g.Unreserved e → ∃ log, Chronicle g ops xs log n e)) → Account g ops xs n (some slot)

namespace Account

variable {slot new : Slot}

theorem mono {o : Option Slot} (h : Account g ops xs n o) (hn : n ≤ n') :
    Account g ops xs n' o := by
  cases h with
  | empty hnil => exact .empty hnil
  | filled hshown =>
      refine .filled fun e hshows => ⟨(hshown e hshows).1, fun hkeys => ?_⟩
      obtain ⟨log, hlog⟩ := (hshown e hshows).2 hkeys
      exact ⟨log, hlog.mono hn⟩

/-- What is put into a slot is shown with its name, and has its log. -/
theorem of_holds (hholds : new.Holds p) {name : String} (hname : p.workflowName = .str name)
    (hlog : g.Unreserved p → ∃ log, Chronicle g ops xs log n p) :
    Account g ops xs n (some new) := by
  refine .filled fun e hshows => ?_
  have hsame : e.workflowName = .str name := by
    cases hholds with
    | value =>
        rw [← show p = e from hshows]
        exact hname
    | row created hrow =>
        obtain ⟨now, hshows⟩ := hshows
        exact (TableRow.reread_of_row hrow hshows).workflowName_eq hname
  refine ⟨⟨name, hsame⟩, fun hkeys => ?_⟩
  obtain ⟨log, hlog⟩ := hlog (hkeys.of_workflowName (hname.trans hsame.symm))
  exact ⟨log, hlog.shown hholds hshows⟩

/-- What is created begins its log. -/
theorem created (h : Account g ops xs n none) (hcreates : op.Creates g m p)
    (hholds : new.Holds p) : Account g ops xs n (some new) := by
  obtain ⟨name, hname⟩ := hcreates.named
  cases h with
  | empty hnil =>
      rw [hnil]
      exact of_holds hholds hname fun _ => ⟨[], .of_creates hcreates n⟩

/-- What is committed goes on with the log of what it replaces. -/
theorem commit (h : Account g ops xs n (some slot)) (hshows : slot.Shows base) {i : ι}
    (hchange : Change g base m (ops i) p) (htime : m.time.offset = some 0)
    (hcount : m.before.checkpoints ≤ m.after.checkpoints) (hafter : m.after.checkpoints ≤ n)
    (hbase : g.Unreserved base → ∃ ds, Ledger m.before.checkpoints ds base) (now : Timestamp)
    (hholds : new.Holds (p.committed base.version now)) :
    Account g ops (xs ++ [⟨i, now, ⟨p, base.version, p.committed base.version now⟩⟩]) n
      (some new) := by
  cases h with
  | filled hshown =>
      obtain ⟨⟨name, hname⟩, hlog⟩ := hshown base hshows
      have hsame := hchange.sameIdentity.workflow
      refine of_holds hholds (hsame.trans hname) fun hkeys => ?_
      have hkeys : g.Unreserved base := hkeys.of_workflowName hsame.symm
      obtain ⟨log, hlog⟩ := hlog hkeys
      obtain ⟨ds, hds⟩ := hbase hkeys
      obtain ⟨log', hlog'⟩ := hlog.commit hkeys hchange htime hcount hds now
      exact ⟨log', hlog'.mono hafter⟩

end Account

/-! ## Every run -/

variable [DecidableEq ι] {c : Climate} {w : World} {es : List (Event ι)} {store : Store}

/-- Clients are kept track of, every id that was free at the start has its account, and
    clients decide on snapshots of these that have their ledgers. -/
structure Chronicled (g : Engine) (ops : ι → Operation) (first : Store) (w : World)
    (es : List (Event ι)) : Prop where
  tracked  : Tracked w es
  accounts : ∀ id, first.slot? id = none →
    Account g ops (commitsTo es id) w.serials.checkpoints (w.store.slot? id)
  informed : Informed
    (fun n e => first.slot? e.id = none → g.Unreserved e → ∃ ds, Ledger n ds e) w es

namespace Chronicled

theorem start (hw : w.store.Keyed) : Chronicled g ops w.store w ([] : List (Event ι)) := by
  refine ⟨.start hw, ?_, .start w⟩
  intro id hfree
  rw [hfree]
  exact .empty rfl

/-- Every request that is served keeps the accounts. -/
theorem step (h : Chronicled g ops store w es) (hc : c.Spares) (hallows : c.Allows w)
    (huniversal : ∀ t, c.calendar t → t.offset = some 0) {i : ι} {q : Request}
    (hq : (ops i).terms g (Trail.of es i) q) :
    Chronicled g ops store (w.answer q).2 (es ++ [⟨i, q, (w.answer q).1, w.now⟩]) := by
  have howns : q.OwnsId :=
    Operation.terms_ownsId hq fun base hread => (h.tracked.reads i base hread).1
  have hdrawn := Operation.terms_drawn (w := w) hq
  have hinformed := h.informed.step (q := q)
    (P := fun n e => store.slot? e.id = none → g.Unreserved e → ∃ ds, Ledger n ds e)
    (fun hn hP hfree hkeys => by
      obtain ⟨ds, hds⟩ := hP hfree hkeys
      exact ⟨ds, hds.mono hn⟩)
    (huniversal _ hallows.1) hq fun base hshown hfree hkeys => by
      obtain ⟨_, slot, hslot, hshows⟩ := Tracked.shows_of_shown h.tracked.keyed hshown
      have haccount := h.accounts base.id hfree
      rw [hslot] at haccount
      cases haccount with
      | filled hfilled =>
          obtain ⟨log, hlog⟩ := (hfilled base hshows).2 hkeys
          exact ⟨_, hlog.kept⟩
  refine ⟨h.tracked.step hc.contests hallows howns i, ?_, hinformed⟩
  intro id hfree
  have hbefore := (h.accounts id hfree).mono hdrawn
  have hstep := World.slotStep_answer hc hallows h.tracked.keyed howns
  generalize (w.answer q).2.serials.checkpoints = drawn at hdrawn hbefore ⊢
  generalize (w.answer q).1 = a at hstep ⊢
  generalize (w.answer q).2.store = store' at hstep ⊢
  -- without a commit to the id, and with the slot as it was, the account is as it was
  have hsame {a : q.Answer} (hcommit : (⟨i, q, a, w.now⟩ : Event ι).commit? = none) :
      commitsTo (es ++ [⟨i, q, a, w.now⟩]) id = commitsTo es id := by
    unfold commitsTo
    rw [commits_concat_none es hcommit]
  cases hstep using SlotStep.by_effect with
  | idle _ hcommit =>
      rw [hsame (hcommit i)]
      exact hbefore
  | @inserted _ x new hnone hholds hslots =>
      rw [hsame rfl, hslots id]
      by_cases hid : x.id = id
      · rw [if_pos hid]
        rw [← hid, hnone, hid] at hbefore
        obtain ⟨mo, _, hcreates⟩ := hq
        exact hbefore.created hcreates hholds
      · rw [if_neg hid]
        exact hbefore
  | @saved _ p v old new hold hversion hholds hslots =>
      obtain ⟨base, mo, hread, hmo, hchange, rfl⟩ := hq
      rw [hslots id]
      have hpid : p.id = base.id := hchange.id_eq.1
      by_cases hid : p.id = id
      · rw [if_pos hid]
        rw [← hid, hold, hid] at hbefore
        -- the save expects the version of its snapshot, so the slot still shows that
        have hshows : old.Shows base :=
          h.tracked.shows_of_version hread (hpid ▸ hold) hversion
        obtain ⟨hledger, hcount, hafter⟩ := h.informed.moments i base mo hread hmo
        have hcommits : commitsTo (es ++ [⟨i, .save p base.version,
            .ok (p.committed base.version w.now), w.now⟩]) id =
            commitsTo es id ++
              [⟨i, w.now, ⟨p, base.version, p.committed base.version w.now⟩⟩] :=
          commitsTo_concat_self es rfl hid
        rw [hcommits]
        exact hbefore.commit hshows hchange (h.informed.times i mo hmo) hcount
          (Nat.le_trans hafter hdrawn) (hledger (hpid ▸ hid ▸ hfree)) w.now hholds
      · rw [if_neg hid, commitsTo_concat_other es rfl hid]
        exact hbefore

end Chronicled

end Log

end Workflow
