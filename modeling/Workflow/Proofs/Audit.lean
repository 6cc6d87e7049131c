import Mathlib.Data.Set.Card
import Workflow.Proofs.Commit

/-! # Audit — histories are only appended to

    Whatever an execution is when it is stored, what replaces it tells of the same
    execution, with the next version, and its history goes on with at most one record;
    only a restoration puts another history in place.  How many records a commit appends
    depends on the operation alone, so in a run without recoveries the history of what was
    created there counts the actions that succeeded on it.

    The heart is `Change.appends`; the count is an induction over runs, `Counted.step`. -/

namespace Workflow

variable {g : Engine} {base p e : Execution} {m : Moment} {op : Operation} {t : Trail}
  {id : String}

/-! ## One commit -/

/-- Do both tell of the same execution: its id, its workflow, what it is about and when it
    was created? -/
structure SameIdentity (base e : Execution) : Prop where
  id       : e.id = base.id
  workflow : e.workflowName = base.workflowName
  subject  : e.subject = base.subject
  created  : e.createdAt = base.createdAt

/-- No operation changes the identity of an execution. -/
theorem Change.sameIdentity (h : Change g base m op p) : SameIdentity base p := by
  cases h <;> exact ⟨rfl, rfl, rfl, rfl⟩

theorem SameIdentity.committed (h : SameIdentity base p) (v : Int) (now : Timestamp) :
    SameIdentity base (p.committed v now) := ⟨h.id, h.workflow, h.subject, h.created⟩

namespace Operation

/-- Is the operation one of recovery, which may write records of the system? -/
def IsRecovery : Operation → Prop
  | .restore ..   => True
  | .recover ..   => True
  | .autoRepair _ => True
  | _             => False

/-- How many records may a commit append that the operation goes on from like this?  An
    action one when it succeeds and none when it leaves its mark, a repair at most one, a
    move one, and everything else none. -/
def Records : (op : Operation) → Client op.Result → Nat → Prop
  | .perform ..,         client, n =>
      (n = 1 ∧ ∃ e, client = .done (.done e)) ∨ (n = 0 ∧ ∃ f, client = .fail f)
  | .autoRepair _,       _,      n => n ≤ 1
  | .recover _ word _ _, _,      n => n = if Strategy.ofText? word = some .manual then 0 else 1
  | _,                   _,      n => n = 0

/-- Has the operation succeeded in what appends a record? -/
def Succeeds : (op : Operation) → Client op.Result → Prop
  | .perform ..,         .done (.done _) => True
  | .recover _ word _ _, .done _         => Strategy.ofText? word ≠ some .manual
  | _,                   _               => False

/-- The execution that an action has moved, when it has succeeded. -/
def performed? : (op : Operation) → Client op.Result → Option Execution
  | .perform .., .done (.done e) => some e
  | _,           _               => none

theorem succeeds_of_performed {client : Client op.Result}
    (h : (op.performed? client).isSome = true) : op.Succeeds client := by
  unfold performed? at h
  split at h
  · trivial
  · cases h

end Operation

open Operation in
/-- A change goes on with the history, and with as many records as the operation may
    append, unless it restores an old one. -/
theorem Change.appends {client : Client op.Result} (h : Change g base m op p)
    (hconcludes : op.Concludes g base p e client) (hop : ¬op.IsRestore) :
    ∃ added, p.history = base.history ++ added ∧ op.Records client added.length := by
  have hnone {p : Execution} {op : Operation} {client : Client op.Result}
      (hhistory : p.history = base.history) (h : op.Records client 0) :
      ∃ added, p.history = base.history ++ added ∧ op.Records client added.length :=
    ⟨[], hhistory.trans (List.append_nil _).symm, h⟩
  cases h with
  | advanced _ _ _ _ =>
      obtain ⟨_, ⟨rfl, d, step, a, ref, context, now, _, hp⟩ | ⟨⟨f, rfl⟩, context, hp⟩⟩ :=
        hconcludes
      · exact ⟨_, rfl, .inl ⟨rfl, e, rfl⟩⟩
      · exact hnone (by rw [hp]) (.inr ⟨rfl, f, rfl⟩)
  | marked _ _ =>
      obtain ⟨_, ⟨rfl, d, step, a, ref, context, now, _, hp⟩ | ⟨⟨f, rfl⟩, _, _⟩⟩ := hconcludes
      · exact ⟨_, congrArg Execution.history hp, .inl ⟨rfl, e, rfl⟩⟩
      · exact hnone rfl (.inr ⟨rfl, f, rfl⟩)
  | merged _ _ => exact hnone rfl rfl
  | paused _ => exact hnone rfl rfl
  | resumed _ => exact hnone rfl rfl
  | checkpointed _ _ => exact hnone rfl rfl
  | restored _ _ => exact absurd trivial hop
  | filled _ _ _ => exact hnone rfl (Nat.zero_le 1)
  | reset _ _ _ _ => exact ⟨_, rfl, Nat.le_refl 1⟩
  | @moved _ word _ _ _ _ _ _ _ _ _ hword hmanual _ _ _ _ _ _ =>
      refine ⟨_, rfl, ?_⟩
      show 1 = if Strategy.ofText? word = some .manual then 0 else 1
      rw [hword, if_neg fun h => hmanual (Option.some.inj h)]
  | @prepared _ word _ _ _ _ _ hword _ _ =>
      refine hnone rfl ?_
      show 0 = if Strategy.ofText? word = some .manual then 0 else 1
      rw [if_pos hword]

/-! ## Counting actions -/

/-- Has the client appended a record to an execution by the one write that it made? -/
def Operation.Appended (op : Operation) (t : Trail) (id : String) : Prop :=
  op.IsPerform ∧ ∃ base x, t.read = some base ∧ t.writes = [x] ∧ base.id = id ∧
    x.offered.history.length = base.history.length + 1

/-- Those are the actions that have succeeded on it. -/
theorem Operation.performed?_iff {client : Client op.Result}
    (hk : client.Keeps (op.onceTerms g []) (op.Ends g []) (op.Fails []) t)
    (hstored : ∀ x ∈ t.writes, x.stored.id = x.offered.id) :
    (∃ e, op.performed? client = some e ∧ e.id = id) ↔ op.Appended t id := by
  cases op with
  | perform target action actor additional =>
      constructor
      · rintro ⟨e, hperformed, rfl⟩
        cases client with
        | done r =>
            cases (show g.Acted action actor additional [] t r from hk) with
            | refused _ => exact nomatch hperformed
            | advanced hread hopen _ _ _ _ hw =>
                obtain rfl := Option.some.inj hperformed
                refine ⟨trivial, _, _, hread, hw, ?_, by simp [Engine.advance]⟩
                exact (hstored _ (by rw [hw]; exact List.mem_singleton_self _)).symm
        | _ => exact nomatch hperformed
      · rintro ⟨_, base, x, hread, hw, rfl, hlength⟩
        cases client with
        | ask q next => exact absurd (hk.1.2 trivial) (hw ▸ List.cons_ne_nil _ _)
        | done r =>
            cases (show g.Acted action actor additional [] t r from hk) with
            | refused hw' => exact absurd hw' (hw ▸ List.cons_ne_nil _ _)
            | @advanced base' e d step a values ref context m' hread' _ _ _ _ _ hw' =>
                refine ⟨e, rfl, ?_⟩
                obtain rfl := Option.some.inj (hread'.symm.trans hread)
                exact hstored _ (by rw [hw']; exact List.mem_singleton_self _)
        | fail f =>
            cases (show Mutation.Failed s!"action {action.display}" true [] t f from hk) with
            | clean hw' => exact absurd hw' (hw ▸ List.cons_ne_nil _ _)
            | marked _ hmark hw' =>
                -- A mark appends nothing.
                obtain ⟨_, _, context, hread', _, _, _, _, rfl⟩ := hmark
                obtain rfl := Option.some.inj (hread'.symm.trans hread)
                rw [hw] at hw'
                rw [(List.cons.inj hw').1] at hlength
                exact absurd hlength (Nat.ne_of_lt (Nat.lt_succ_self _))
  | _ =>
      constructor
      · rintro ⟨_, h, _⟩
        exact nomatch h
      · intro h
        exact h.1.elim

variable {ι : Type} [DecidableEq ι] {ops : ι → Operation} {c : Climate} {w : World}
  {es : List (Event ι)} {s : System ι fun i => (ops i).Result} {store : Store}

/-- The clients that have appended a record to an execution. -/
def Appenders (ops : ι → Operation) (es : List (Event ι)) (id : String) : Set ι :=
  {i | (ops i).Appended (Trail.of es i) id}

/-- What one client does leaves the others among those that have appended a record. -/
theorem mem_appenders_concat {ev : Event ι} {j : ι} (hj : ev.client ≠ j) :
    j ∈ Appenders ops (es ++ [ev]) id ↔ j ∈ Appenders ops es id := by
  unfold Appenders
  rw [Set.mem_ofPred_eq, Set.mem_ofPred_eq, Trail.of_concat_other es hj]

/-- A client that asks for something has not appended a record yet. -/
theorem notMem_appenders {q : Request} {i : ι}
    (hq : (ops i).onceTerms g [] (Trail.of es i) q) : i ∉ Appenders ops es id := by
  rintro ⟨hop, _, _, _, hw, _⟩
  exact absurd (hq.2 hop) (hw ▸ List.cons_ne_nil _ _)

/-- A client that has not appended a record comes to those that have by its own doing
    only. -/
theorem appenders_concat (ev : Event ι) (hev : ev.client ∉ Appenders ops es id) :
    Appenders ops (es ++ [ev]) id = Appenders ops es id ∨
      ev.client ∈ Appenders ops (es ++ [ev]) id ∧
        Appenders ops (es ++ [ev]) id = insert ev.client (Appenders ops es id) := by
  by_cases hmem : ev.client ∈ Appenders ops (es ++ [ev]) id
  · refine .inr ⟨hmem, ?_⟩
    ext j
    rw [Set.mem_insert_iff]
    by_cases hj : ev.client = j
    · subst hj
      exact iff_of_true hmem (.inl rfl)
    · rw [mem_appenders_concat hj, or_iff_right (Ne.symm hj)]
  · refine .inl ?_
    ext j
    by_cases hj : ev.client = j
    · subst hj
      exact iff_of_false hmem hev
    · exact mem_appenders_concat hj

/-- Without a commit, those who have appended a record stay the same. -/
theorem appenders_of_uncommitted (ev : Event ι)
    (hq : (ops ev.client).onceTerms g [] (Trail.of es ev.client) ev.request)
    (hev : ev.commit? = none) : Appenders ops (es ++ [ev]) id = Appenders ops es id := by
  rcases appenders_concat ev (notMem_appenders hq) with h | ⟨⟨hop, _, _, _, hw, _⟩, _⟩
  · exact h
  · rw [Trail.writes_of, commitsOf, commits_concat_none es hev, ← commitsOf,
      ← Trail.writes_of, hq.2 hop] at hw
    exact nomatch hw

/-- With the commit of an action, its client is among them if it has appended a record. -/
theorem mem_appenders_commit {i : ι} {now : Timestamp}
    (hread : (Trail.of es i).read = some base)
    (hnil : (ops i).IsPerform → (Trail.of es i).writes = []) :
    i ∈ Appenders ops (es ++ [⟨i, .save p base.version, .ok e, now⟩]) id ↔
      (ops i).IsPerform ∧ base.id = id ∧
        p.history.length = base.history.length + 1 := by
  unfold Appenders Operation.Appended
  rw [Set.mem_ofPred_eq, Trail.of_concat_self es rfl]
  constructor
  · rintro ⟨hop, base', x, hread', hw, rfl, hlength⟩
    obtain rfl := Option.some.inj (hread.symm.trans hread')
    have hw : (Trail.of es i).writes ++ [⟨p, base.version, e⟩] = [x] := hw
    rw [hnil hop] at hw
    obtain rfl := (List.cons.inj hw).1
    exact ⟨hop, rfl, hlength⟩
  · rintro ⟨hop, rfl, hlength⟩
    refine ⟨hop, base, ⟨p, base.version, e⟩, hread, ?_, rfl, hlength⟩
    show (Trail.of es i).writes ++ [(⟨p, base.version, e⟩ : Write)] = _
    rw [hnil hop, List.nil_append]

/-- Nothing is appended to what the store does not hold. -/
theorem Tracked.appenders_eq_empty (h : Tracked w es) (hnone : w.store.slot? id = none) :
    Appenders ops es id = ∅ := by
  rw [Set.eq_empty_iff_forall_notMem]
  rintro i ⟨_, base, _, hread, _, rfl, _⟩
  obtain ⟨_, slot, hslot, _⟩ := h.reads i base hread
  rw [hnone] at hslot
  exact nomatch hslot

/-- Outside recovery only an action appends a record. -/
theorem Change.records (h : Change g base m op p) (hop : ¬op.IsRecovery) :
    (op.IsPerform ∧ p.history.length = base.history.length + 1) ∨
      p.history.length = base.history.length := by
  cases h with
  | advanced _ _ _ _ => exact .inl ⟨trivial, by simp [Engine.advance]⟩
  | restored _ _ => exact absurd trivial hop
  | reset _ _ _ _ => exact absurd trivial hop
  | moved _ _ _ _ _ _ _ _ => exact absurd trivial hop
  | _ => exact .inr rfl

/-- Clients are kept track of, and what is shown under an id that was free at the start
    has as many records as clients have appended to it. -/
structure Counted (ops : ι → Operation) (first : Store) (w : World) (es : List (Event ι)) :
    Prop where
  tracked : Tracked w es
  counts  : ∀ id slot e, first.slot? id = none → w.store.slot? id = some slot →
    slot.Shows e → (Appenders ops es id).encard = e.history.length

namespace Counted

/-- Every request that is served keeps the count. -/
theorem step (h : Counted ops store w es) (hc : c.Spares) (hallows : c.Allows w)
    (hops : ∀ i, ¬(ops i).IsRecovery) {i : ι} {q : Request}
    (hq : (ops i).onceTerms g [] (Trail.of es i) q) :
    Counted ops store (w.answer q).2 (es ++ [⟨i, q, (w.answer q).1, w.now⟩]) := by
  have howns : q.OwnsId :=
    Operation.terms_ownsId hq.1 fun base hread => (h.tracked.reads i base hread).1
  refine ⟨h.tracked.step hc.contests hallows howns i, fun id slot e hfirst hslot hshows => ?_⟩
  -- Where nothing is committed and the slot stays, the count stays.
  have hsame (hcommit : (⟨i, q, (w.answer q).1, w.now⟩ : Event ι).commit? = none)
      (hslot : w.store.slot? id = some slot) :
      (Appenders ops (es ++ [⟨i, q, (w.answer q).1, w.now⟩]) id).encard =
        e.history.length := by
    rw [appenders_of_uncommitted ⟨i, q, (w.answer q).1, w.now⟩ hq hcommit]
    exact h.counts id slot e hfirst hslot hshows
  have hstep := World.slotStep_answer hc hallows h.tracked.keyed howns
  generalize (w.answer q).1 = a at hsame hstep ⊢
  generalize (w.answer q).2.store = store' at hstep hslot
  cases hstep using SlotStep.by_effect with
  | idle _ hcommit => exact hsame (hcommit i) hslot
  | @inserted _ x new hnone hholds hslots =>
      rw [hslots id] at hslot
      by_cases hid : x.id = id
      · rw [if_pos hid] at hslot
        obtain rfl := Option.some.inj hslot
        obtain ⟨m, _, hcreates⟩ := hq.1
        rw [appenders_of_uncommitted ⟨i, .insert x, .ok x, w.now⟩ hq rfl,
          h.tracked.appenders_eq_empty (hid ▸ hnone), hholds.length_history hshows,
          hcreates.fresh.2.1, Set.encard_empty]
        rfl
      · rw [if_neg hid] at hslot
        exact hsame rfl hslot
  | @saved _ p v old new hold hversion hholds hslots =>
      have hnot : i ∉ Appenders ops es id := notMem_appenders hq
      obtain ⟨⟨base, m, hread, _, hchange, rfl⟩, hnil⟩ := hq
      have hpid : p.id = base.id := hchange.id_eq.1
      have hmem := @mem_appenders_commit base p (p.committed base.version w.now) id ι _ ops es i
        w.now hread hnil
      have happenders := appenders_concat
        (⟨i, .save p base.version, .ok (p.committed base.version w.now), w.now⟩ : Event ι) hnot
      rw [hslots id] at hslot
      by_cases hid : p.id = id
      · rw [if_pos hid] at hslot
        obtain rfl := Option.some.inj hslot
        -- The store showed the snapshot up to now, so it had been counted.
        have hcount : (Appenders ops es id).encard = base.history.length := by
          have hshown : old.Shows base :=
            h.tracked.shows_of_version hread (hpid ▸ hold) hversion
          exact h.counts id old base hfirst (hid ▸ hold) hshown
        rw [hholds.length_history hshows]
        show _ = ((p.history.length : ℕ) : ℕ∞)
        rcases happenders with heq | ⟨hin, heq⟩
        · rcases hchange.records (hops i) with ⟨hop, hlength⟩ | hlength
          · exact absurd (heq ▸ hmem.mpr ⟨hop, hpid ▸ hid, hlength⟩) hnot
          · rw [heq, hcount, hlength]
        · rw [heq, Set.encard_insert_of_notMem hnot, hcount, (hmem.mp hin).2.2]
          rfl
      · rw [if_neg hid] at hslot
        rcases happenders with heq | ⟨hin, _⟩
        · rw [heq]
          exact h.counts id slot e hfirst hslot hshows
        · exact absurd (hpid.trans (hmem.mp hin).2.1) hid

end Counted

/-! ## Runs -/

/-- What an operation has succeeded in that appends a record is one commit. -/
theorem Operation.commit_of_succeeds (hrun : System.Run c ⟨w, fun i => (ops i).client g⟩ es s)
    {i : ι} (hk : (s.clients i).Keeps ((ops i).onceTerms g []) ((ops i).Ends g [])
      ((ops i).Fails []) (Trail.of es i)) (h : (ops i).Succeeds (s.clients i)) :
    ∃ x, commitsOf es i = [x] := by
  suffices hwrites : ∃ x, (Trail.of es i).writes = [x] by
    obtain ⟨x, hx⟩ := hwrites
    obtain ⟨now, hof, _⟩ := hrun.commitsOf_singleton hx
    exact ⟨_, hof⟩
  generalize s.clients i = client at hk h
  generalize Trail.of es i = t at hk
  generalize ops i = op at client hk h
  cases op with
  | perform target action actor additional =>
      cases client with
      | done r =>
          cases (show g.Acted action actor additional [] t r from hk) with
          | refused _ => exact h.elim
          | advanced _ _ _ _ _ _ hw => exact ⟨_, hw⟩
      | _ => exact h.elim
  | recover target word step force =>
      cases client with
      | done r => exact hk h
      | _ => exact h.elim
  | _ => cases client <;> exact h.elim

/-- The history of an execution is only appended to, by as many records as the operation
    has to tell of, and its identity stays: whatever is committed replaces what the store
    held, as the next version of it.  So outside recovery the history of an execution
    counts the actions that have succeeded on it. -/
theorem histories_appended (hc : c.Contests) (hw : w.store.Keyed)
    (hrun : System.Run c ⟨w, fun i => (ops i).client g⟩ es s) :
    (∀ i p v next e, s.clients i = .ask (.save p v) next →
      (s.world.answer (.save p v)).1 = .ok e →
      ∃ base, s.world.store.Replaces (s.world.answer (.save p v)).2.store base e ∧
        SameIdentity base e ∧ e.version = base.version + 1 ∧
        (¬(ops i).IsRestore → ∃ added, e.history = base.history ++ added ∧
          (ops i).Records (next (.ok e)) added.length)) ∧
    (∀ i, (ops i).Succeeds (s.clients i) → ∃ x, commitsOf es i = [x]) ∧
    (c.Spares → (∀ i, ¬(ops i).IsRecovery) → ∀ id slot e, w.store.slot? id = none →
      s.world.store.slot? id = some slot → slot.Shows e →
      {i | ∃ moved, (ops i).performed? (s.clients i) = some moved ∧ moved.id = id}.encard =
        e.history.length) := by
  obtain ⟨_, _, hkeeps⟩ := Operation.tracked_of_run hc hw hrun
  refine ⟨fun i p v next e hask hsaved => ?_, fun i h => ?_, fun hspares hops id slot e => ?_⟩
  · obtain ⟨base, m, hchange, rfl, hreplaces, hconcludes⟩ :=
      Operation.commit_of_run hc hw hrun hask hsaved
    exact ⟨base, hreplaces, hchange.sameIdentity.committed _ _, rfl,
      fun hop => hchange.appends hconcludes hop⟩
  · exact Operation.commit_of_succeeds hrun (hkeeps i) h
  · have hstart : Counted ops w.store w [] := by
      refine ⟨.start hw, fun id slot e hfirst hslot _ => ?_⟩
      rw [hfirst] at hslot
      exact nomatch hslot
    obtain ⟨hcounted, _⟩ := hrun.invariant _ _ _ (Counted ops w.store)
      (fun i => Operation.keeps_once g (ops i) {}) hstart
      (fun _ _ _ _ _ _ h => ⟨⟨h.tracked.keyed, h.tracked.reads⟩, h.counts⟩)
      fun w es i q h hallows hq => h.step hspares hallows hops hq
    intro hfirst hslot hshows
    rw [← hcounted.counts id slot e hfirst hslot hshows]
    congr 1
    ext i
    refine Operation.performed?_iff (g := g) (hkeeps i) fun x hx => ?_
    rw [Trail.writes_of] at hx
    obtain ⟨y, hy, rfl⟩ := List.mem_map.mp hx
    rw [hrun.stored_eq (List.mem_filter.mp hy).1]
    rfl

/-- Operations on one review: it is opened, a note is added, and two submit it. -/
def reviewOperations : Nat → Operation
  | 0 => .create "review" (.ref (.subject "Document" "7")) .null (.dict [])
  | 1 => .mergeContext (.id (.str "exec-1")) (.dict [(.str "note", .str "hurry")])
  | 2 => .perform (.id (.str "exec-1")) (.str "submit") (.str "ann") .null
  | _ => .perform (.id (.str "exec-1")) (.str "submit") (.str "bob") .null

theorem reviewOperations_not_recovery (i : Nat) : ¬(reviewOperations i).IsRecovery := by
  unfold reviewOperations
  split <;> exact id

/-- Clients at these operations. -/
def reviewDesk : System Nat fun i => (reviewOperations i).Result :=
  ⟨{}, fun i => (reviewOperations i).client reviewEngine⟩


/-- Of two submissions that were decided on the same snapshot one succeeds, and is all that
    the history tells of; what it commits is the next version of what was opened. -/
theorem reviewDesk_history :
    let q := reviewDesk.follow [0, 0, 2, 2, 2, 3, 3, 3]
    let r := reviewDesk.follow [0, 0, 2, 2, 2, 3, 3, 3, 2, 3, 3, 3, 3, 3, 3, 1, 1, 1, 1]
    (∃ p v e base, (q.2.world.answer (.save p v)).1 = .ok e ∧
      q.2.world.store.Replaces (q.2.world.answer (.save p v)).2.store base e ∧
      SameIdentity base e ∧ e.version = base.version + 1 ∧
      ∃ added, e.history = base.history ++ added) ∧
    (∃ x, commitsOf r.1 2 = [x]) ∧
    {i | ∃ moved, (reviewOperations i).performed? (r.2.clients i) = some moved ∧
      moved.id = "exec-1"}.encard = 1 := by
  intro q r
  have hcalm : Climate.calm.Allows reviewDesk.world :=
    ⟨trivial, fun d h => absurd h List.not_mem_nil⟩
  have hkeyed : reviewDesk.world.store.Keyed := fun e he => absurd he List.not_mem_nil
  have hq : System.Run .calm reviewDesk q.1 q.2 := .of_schedule hcalm _
  have hr : System.Run .calm reviewDesk r.1 r.2 := .of_schedule hcalm _
  obtain ⟨hcommits, _, _⟩ :=
    histories_appended (w := reviewDesk.world) Climate.calm_spares.contests hkeyed hq
  obtain ⟨_, hsucceeds, hcount⟩ :=
    histories_appended (w := reviewDesk.world) Climate.calm_spares.contests hkeyed hr
  refine ⟨?_, hsucceeds 2 ?_, ?_⟩
  · have hsaved : ((q.2.clients 2).saved? q.2.world).isSome = true := by decide +kernel
    obtain ⟨e, he⟩ := Option.isSome_iff_exists.mp hsaved
    obtain ⟨p, v, next, hclient, he⟩ := Client.saved?_some he
    obtain ⟨base, hreplaces, hsame, hversion, happends⟩ := hcommits 2 p v next e hclient he
    obtain ⟨added, hadded, _⟩ := happends id
    exact ⟨p, v, e, base, he, hreplaces, hsame, hversion, added, hadded⟩
  · have hperformed : ((reviewOperations 2).performed? (r.2.clients 2)).isSome = true := by
      decide +kernel
    generalize r.2.clients 2 = client at hperformed ⊢
    exact Operation.succeeds_of_performed hperformed
  · have hstored : ((r.2.world.store.slot? "exec-1").bind Slot.value?).map (·.history.length) =
        some 1 := by decide +kernel
    obtain ⟨e, he, hlength⟩ := Option.map_eq_some_iff.mp hstored
    obtain ⟨slot, hslot, he⟩ := Option.bind_eq_some_iff.mp he
    obtain rfl := Slot.value?_some he
    rw [hcount Climate.calm_spares reviewOperations_not_recovery "exec-1" (.value e) e rfl
      hslot rfl, hlength]
    rfl

end Workflow
