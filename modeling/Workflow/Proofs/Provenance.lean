import Workflow.Proofs.Audit
import Workflow.Proofs.Restore
import Workflow.Proofs.Sound

/-! # Provenance — whose record a retry goes back to

    A retry goes back to the last record that does not bear the name of an action of the
    system.  Each record of a history was appended by one commit, an action or an operation
    of recovery, and only the latter bear such a name, as long as no workflow declares one.

    The heart is `Traced`, which leads every record back to its commit; `Sourced.step`
    carries it through a run, for each execution that is created in it. -/

namespace Workflow

variable {g : Engine} {op : Operation} {base p e : Execution} {m : Moment} {id : String}

/-! ## One commit -/

/-- Does a registered workflow declare an action of this name? -/
def Engine.Declares (g : Engine) (action : String) : Prop :=
  ∃ name d, g.registry.get? name = some d ∧ ∃ step ∈ d.steps, ∃ a ∈ step.actions, a.name = action

/-- What the system records bears a name of the system. -/
theorem isSystemAction_recovery (strategy : Strategy) :
    isSystemAction s!"recovery:{strategy.text}" = true := by
  cases strategy <;> decide

theorem isSystemAction_reset : isSystemAction Engine.resetAction = true := by decide

/-- A change appends nothing, or a record that lasts: that of a declared action, if it is
    one, and else one of the system. -/
theorem Change.sourced (h : Change g base m op p) (hop : ¬op.IsRestore)
    (htime : m.time.offset = some 0) :
    p.history = base.history ∨ ∃ r, p.history = base.history ++ [r] ∧ r.Lasts ∧
      (op.IsPerform ∧ g.Declares r.action ∨ ¬op.IsPerform ∧ isSystemAction r.action = true) := by
  have hsystem (source step action : String) :
      (⟨source, step, action, some .systemRecovery, m.time⟩ : TransitionRecord).Lasts :=
    ⟨.universal htime, fun r hr => Option.some.inj hr ▸ rfl⟩
  cases h with
  | @advanced _ _ _ _ _ d step a _ _ hopen _ hactor _ =>
      obtain ⟨name, _, hd⟩ := hopen.registered
      have hstep : step ∈ d.steps := (Definition.findStep?_some hopen.current.2).2
      have ha : a ∈ step.actions := List.mem_of_find?_eq_some hopen.named.2
      exact .inr ⟨_, rfl, ⟨.universal htime, hactor.kind⟩,
        .inl ⟨trivial, name, d, hd, step, hstep, a, ha, rfl⟩⟩
  | restored _ _ => exact absurd trivial hop
  | reset _ _ _ _ => exact .inr ⟨_, rfl, hsystem _ _ _, .inr ⟨id, isSystemAction_reset⟩⟩
  | moved _ _ _ _ _ _ _ _ =>
      exact .inr ⟨_, rfl, hsystem _ _ _, .inr ⟨id, isSystemAction_recovery _⟩⟩
  | _ => exact .inl rfl

/-! ## Histories and their commits -/

variable {ι : Type} {ops : ι → Operation} {acts acts' : ι → Prop} {xs : List (Commit ι)}
  {rs : List TransitionRecord} {slot new : Slot}

/-- Has each record been appended by one of the commits, in their order, that of a declared
    action by a client that acts and any other one by the system? -/
inductive Traced (g : Engine) (acts : ι → Prop) :
    List (Commit ι) → List TransitionRecord → Prop
  | start : Traced g acts [] []
  | acted {xs rs x r} (h : Traced g acts xs rs) (hacts : acts x.client)
      (hstored : x.write.stored.history = rs ++ [r]) (hdeclared : g.Declares r.action) :
      Traced g acts (xs ++ [x]) (rs ++ [r])
  | moved {xs rs x r} (h : Traced g acts xs rs) (hacts : ¬acts x.client)
      (hsystem : isSystemAction r.action = true) : Traced g acts (xs ++ [x]) (rs ++ [r])
  | kept {xs rs x} (h : Traced g acts xs rs) (hacts : ¬acts x.client) :
      Traced g acts (xs ++ [x]) rs

/-- The last record that does not bear a name of the system. -/
def lastOfCaller (rs : List TransitionRecord) : Option TransitionRecord :=
  rs.reverse.find? fun r => !isSystemAction r.action

/-- That is the last record of all where no name is one of the system. -/
theorem lastOfCaller_eq_getLast? (h : ∀ r ∈ rs, isSystemAction r.action = false) :
    lastOfCaller rs = rs.getLast? := by
  unfold lastOfCaller
  rw [← List.head?_reverse]
  cases hrs : rs.reverse with
  | nil => rfl
  | cons r rest =>
      have hr : r ∈ rs := List.mem_reverse.mp (hrs ▸ List.mem_cons_self)
      rw [List.find?_cons_of_pos (by rw [h r hr]; rfl)]
      rfl

theorem lastOfCaller_concat (rs : List TransitionRecord) (r : TransitionRecord) :
    lastOfCaller (rs ++ [r]) =
      if isSystemAction r.action = true then lastOfCaller rs else some r := by
  unfold lastOfCaller
  rw [List.reverse_concat, List.find?_cons]
  cases isSystemAction r.action <;> rfl

namespace Traced

theorem congr (h : Traced g acts xs rs) (hsame : ∀ x ∈ xs, acts' x.client ↔ acts x.client) :
    Traced g acts' xs rs := by
  induction h with
  | start => exact .start
  | @acted xs rs x r _ hacts hstored hdeclared ih =>
      exact .acted (ih fun y hy => hsame y (List.mem_append_left _ hy))
        ((hsame x (by simp)).mpr hacts) hstored hdeclared
  | @moved xs rs x r _ hacts hsystem ih =>
      exact .moved (ih fun y hy => hsame y (List.mem_append_left _ hy))
        (fun h => hacts ((hsame x (by simp)).mp h)) hsystem
  | @kept xs rs x _ hacts ih =>
      exact .kept (ih fun y hy => hsame y (List.mem_append_left _ hy))
        fun h => hacts ((hsame x (by simp)).mp h)

/-- The records of actions, each the last one of what its commit has stored. -/
def acted? (acts : ι → Prop) [DecidablePred acts] (x : Commit ι) : Option TransitionRecord :=
  if acts x.client then x.write.stored.history.getLast? else none

/-- So the last record of a caller is the last one that a client that acts has appended
    under another name than one of the system. -/
theorem lastOfCaller_eq [DecidablePred acts] (h : Traced g acts xs rs) :
    lastOfCaller rs = lastOfCaller (xs.filterMap (acted? acts)) := by
  induction h with
  | start => rfl
  | @acted xs rs x r _ hacts hstored _ ih =>
      have hx : acted? acts x = some r := by
        rw [acted?, if_pos hacts, hstored, List.getLast?_concat]
      rw [List.filterMap_append, List.filterMap_cons_some hx, List.filterMap_nil,
        lastOfCaller_concat, lastOfCaller_concat, ih]
  | @moved xs rs x r _ hacts hsystem ih =>
      have hx : acted? acts x = none := if_neg hacts
      rw [List.filterMap_append, List.filterMap_cons_none hx, List.filterMap_nil,
        List.append_nil, lastOfCaller_concat, if_pos hsystem, ih]
  | @kept xs rs x _ hacts ih =>
      have hx : acted? acts x = none := if_neg hacts
      rw [List.filterMap_append, List.filterMap_cons_none hx, List.filterMap_nil,
        List.append_nil, ih]

/-- They stand in the history, in their order, under names that are declared. -/
theorem acted_sublist [DecidablePred acts] (h : Traced g acts xs rs) :
    (xs.filterMap (acted? acts)).Sublist rs ∧
      ∀ r ∈ xs.filterMap (acted? acts), g.Declares r.action := by
  induction h with
  | start => exact ⟨.slnil, fun _ hr => absurd hr List.not_mem_nil⟩
  | @acted xs rs x r _ hacts hstored hdeclared ih =>
      have hx : acted? acts x = some r := by
        rw [acted?, if_pos hacts, hstored, List.getLast?_concat]
      rw [List.filterMap_append, List.filterMap_cons_some hx, List.filterMap_nil]
      refine ⟨ih.1.append (.refl _), ?_⟩
      intro y hy
      rcases List.mem_append.mp hy with hy | hy
      · exact ih.2 y hy
      · rw [List.mem_singleton.mp hy]
        exact hdeclared
  | @moved xs rs x r _ hacts _ ih =>
      have hx : acted? acts x = none := if_neg hacts
      rw [List.filterMap_append, List.filterMap_cons_none hx, List.filterMap_nil,
        List.append_nil]
      exact ⟨ih.1.trans (List.sublist_append_left _ _), ih.2⟩
  | @kept xs rs x _ hacts ih =>
      have hx : acted? acts x = none := if_neg hacts
      rw [List.filterMap_append, List.filterMap_cons_none hx, List.filterMap_nil,
        List.append_nil]
      exact ih

end Traced

/-- A reader is shown the history that was put in, when it lasts. -/
theorem Slot.Holds.history_eq (h : slot.Holds p) (hshows : slot.Shows e)
    (hlasts : ∀ r ∈ p.history, r.Lasts) : e.history = p.history := by
  cases h with
  | value => rw [show p = e from hshows]
  | row created hrow =>
      obtain ⟨now, hshows⟩ := hshows
      have hread := (TableRow.reread_of_row hrow hshows).history
      exact Except.ok.inj (hread.symm.trans (Row.records_of_lasts hlasts now))

/-- What is known of a slot after commits to it: it was not filled by any, or each history
    that it shows is traced to them and lasts. -/
inductive Origin (g : Engine) (acts : ι → Prop) (xs : List (Commit ι)) : Option Slot → Prop
  | empty (hnil : xs = []) : Origin g acts xs none
  | filled {slot : Slot} (hshown : ∀ e, slot.Shows e →
      Traced g acts xs e.history ∧ ∀ r ∈ e.history, r.Lasts) : Origin g acts xs (some slot)

namespace Origin

theorem of_holds (hholds : new.Holds p) (htraced : Traced g acts xs p.history)
    (hlasts : ∀ r ∈ p.history, r.Lasts) : Origin g acts xs (some new) := by
  refine .filled fun e hshows => ?_
  rw [hholds.history_eq hshows hlasts]
  exact ⟨htraced, hlasts⟩

/-- A commit adds to what is traced what it has appended. -/
theorem commit (h : Origin g acts xs (some slot)) (hshows : slot.Shows base) {i : ι}
    (hsame : ∀ x ∈ xs, acts' x.client ↔ acts x.client)
    (hacts : acts' i ↔ (ops i).IsPerform ∧ p.history.length = base.history.length + 1)
    (hchange : Change g base m (ops i) p) (hop : ¬(ops i).IsRestore)
    (htime : m.time.offset = some 0) (now : Timestamp)
    (hholds : new.Holds (p.committed base.version now)) :
    Origin g acts' (xs ++ [⟨i, now, ⟨p, base.version, p.committed base.version now⟩⟩])
      (some new) := by
  cases h with
  | filled hshown =>
      obtain ⟨htraced, hlasts⟩ := hshown base hshows
      have htraced := htraced.congr hsame
      rcases hchange.sourced hop htime with hhistory | ⟨r, hhistory, hr, hkind⟩
      · have hidle : ¬acts' i := fun h => by
          have := (hacts.mp h).2
          rw [hhistory] at this
          omega
        refine of_holds hholds ?_ (hhistory ▸ hlasts)
        show Traced g acts' _ p.history
        rw [hhistory]
        exact .kept htraced hidle
      · have hlength : p.history.length = base.history.length + 1 := by
          rw [hhistory, List.length_append, List.length_singleton]
        have hlasts' : ∀ x ∈ p.history, x.Lasts := by
          intro x hx
          rw [hhistory] at hx
          rcases List.mem_append.mp hx with hx | hx
          · exact hlasts x hx
          · exact List.mem_singleton.mp hx ▸ hr
        refine of_holds hholds ?_ hlasts'
        show Traced g acts' _ p.history
        rcases hkind with ⟨hperform, hdeclared⟩ | ⟨hperform, hsystem⟩
        · have hdone : acts' i := hacts.mpr ⟨hperform, hlength⟩
          have hstored : (p.committed base.version now).history = base.history ++ [r] := hhistory
          rw [hhistory]
          exact .acted htraced hdone hstored hdeclared
        · rw [hhistory]
          exact .moved htraced (fun h => hperform (hacts.mp h).1) hsystem

end Origin

/-! ## Every run -/

variable [DecidableEq ι] {c : Climate} {w : World} {es : List (Event ι)} {store : Store}

/-- Clients are kept track of and decide in universal time, and what is shown under an id
    that was free at the start is traced to the commits to it. -/
structure Sourced (g : Engine) (ops : ι → Operation) (first : Store) (w : World)
    (es : List (Event ι)) : Prop where
  tracked  : Tracked w es
  origins  : ∀ id, first.slot? id = none →
    Origin g (· ∈ Appenders ops es id) (commitsTo es id) (w.store.slot? id)
  informed : Informed (fun _ _ => True) w es

namespace Sourced

theorem start (hw : w.store.Keyed) : Sourced g ops w.store w ([] : List (Event ι)) := by
  refine ⟨.start hw, ?_, .start w⟩
  intro id hfree
  rw [hfree]
  exact .empty rfl

/-- An action that is about to be saved has not been committed before, so who has appended
    a record by an earlier commit has done so still. -/
theorem appenders_earlier {i : ι} {ev : Event ι} (hev : ev.client = i)
    (hnot : i ∉ Appenders ops es id)
    (hnil : (ops i).IsPerform → (Trail.of es i).writes = []) :
    ∀ x ∈ commitsTo es id,
      x.client ∈ Appenders ops (es ++ [ev]) id ↔ x.client ∈ Appenders ops es id := by
  intro x hx
  by_cases hclient : ev.client = x.client
  · refine iff_of_false ?_ (hclient ▸ hev ▸ hnot)
    rintro ⟨hop, _⟩
    have hwrites := hnil (hev ▸ hclient ▸ hop)
    rw [Trail.writes_of, List.map_eq_nil_iff] at hwrites
    have hmem : x ∈ commitsOf es i :=
      List.mem_filter.mpr ⟨(List.mem_filter.mp hx).1, by simp [← hclient, hev]⟩
    rw [hwrites] at hmem
    exact absurd hmem List.not_mem_nil
  · exact mem_appenders_concat hclient

/-- Every request that is served keeps what is traced. -/
theorem step (h : Sourced g ops store w es) (hc : c.Spares) (hallows : c.Allows w)
    (huniversal : ∀ t, c.calendar t → t.offset = some 0) (hops : ∀ i, ¬(ops i).IsRestore)
    {i : ι} {q : Request} (hq : (ops i).onceTerms g [] (Trail.of es i) q) :
    Sourced g ops store (w.answer q).2 (es ++ [⟨i, q, (w.answer q).1, w.now⟩]) := by
  have howns : q.OwnsId :=
    Operation.terms_ownsId hq.1 fun base hread => (h.tracked.reads i base hread).1
  have hinformed := h.informed.step (q := q) (P := fun _ _ => True)
    (fun _ _ => trivial) (huniversal _ hallows.1) hq.1 fun _ _ => trivial
  refine ⟨h.tracked.step hc.contests hallows howns i, ?_, hinformed⟩
  intro id hfree
  have hbefore := h.origins id hfree
  have hstep := World.slotStep_answer hc hallows h.tracked.keyed howns
  generalize (w.answer q).1 = a at hstep ⊢
  generalize (w.answer q).2.store = store' at hstep ⊢
  -- without a commit to the id, all is traced as it was
  have hsame {a : q.Answer} (hcommit : (⟨i, q, a, w.now⟩ : Event ι).commit? = none) :
      commitsTo (es ++ [⟨i, q, a, w.now⟩]) id = commitsTo es id ∧
        Appenders ops (es ++ [⟨i, q, a, w.now⟩]) id = Appenders ops es id := by
    refine ⟨?_, appenders_of_uncommitted ⟨i, q, a, w.now⟩ hq hcommit⟩
    unfold commitsTo
    rw [commits_concat_none es hcommit]
  cases hstep using SlotStep.by_effect with
  | idle _ hcommit =>
      obtain ⟨hcommits, happenders⟩ := hsame (hcommit i)
      rw [hcommits, happenders]
      exact hbefore
  | @inserted _ x new hnone hholds hslots =>
      rw [(hsame rfl).1, (hsame rfl).2, hslots id]
      by_cases hid : x.id = id
      · rw [if_pos hid]
        rw [← hid, hnone, hid] at hbefore
        obtain ⟨mo, _, hcreates⟩ := hq.1
        have hempty : x.history = [] := hcreates.fresh.2.1
        cases hbefore with
        | empty hnil =>
            rw [hnil]
            refine .of_holds hholds (hempty ▸ .start) ?_
            rw [hempty]
            exact fun _ hr => absurd hr List.not_mem_nil
      · rw [if_neg hid]
        exact hbefore
  | @saved _ p v old new hold hversion hholds hslots =>
      have hnot : i ∉ Appenders ops es id := notMem_appenders hq
      obtain ⟨⟨base, mo, hread, hmo, hchange, rfl⟩, hnil⟩ := hq
      have hpid : p.id = base.id := hchange.id_eq.1
      have hmem := @mem_appenders_commit base p (p.committed base.version w.now) id ι _ ops es i
        w.now hread hnil
      rw [hslots id]
      by_cases hid : p.id = id
      · rw [if_pos hid]
        rw [← hid, hold, hid] at hbefore
        -- the save expects the version of its snapshot, so the slot still shows that
        have hshows : old.Shows base :=
          h.tracked.shows_of_version hread (hpid ▸ hold) hversion
        have hcommits : commitsTo (es ++ [⟨i, .save p base.version,
            .ok (p.committed base.version w.now), w.now⟩]) id =
            commitsTo es id ++
              [⟨i, w.now, ⟨p, base.version, p.committed base.version w.now⟩⟩] :=
          commitsTo_concat_self es rfl hid
        rw [hcommits]
        exact hbefore.commit hshows (appenders_earlier rfl hnot hnil)
          (hmem.trans (and_congr_right fun _ => and_iff_right (hpid ▸ hid))) hchange (hops i)
          (h.informed.times i mo hmo) w.now hholds
      · rw [if_neg hid, commitsTo_concat_other es rfl hid]
        have happenders := appenders_concat
          (⟨i, .save p base.version, .ok (p.committed base.version w.now), w.now⟩ : Event ι)
          hnot
        rcases happenders with heq | ⟨hin, _⟩
        · rw [heq]
          exact hbefore
        · exact absurd (hpid.trans (hmem.mp hin).2.1) hid

end Sourced

/-! ## Actions that have succeeded -/

variable {s : System ι fun i => (ops i).Result}

/-- An action that has succeeded made one commit, of what it moved the execution to and
    ended with, under a record of its own. -/
theorem Operation.commit_of_performed (hrun : System.Run c ⟨w, fun i => (ops i).client g⟩ es s)
    {i : ι} (hk : (s.clients i).Keeps ((ops i).onceTerms g []) ((ops i).Ends g [])
      ((ops i).Fails []) (Trail.of es i)) {moved : Execution}
    (h : (ops i).performed? (s.clients i) = some moved) :
    ∃ x, commitsOf es i = [x] ∧ x.write.stored = moved ∧ moved.history ≠ [] := by
  suffices hwrites : ∃ x, (Trail.of es i).writes = [x] ∧ x.stored = moved ∧
      x.offered.history ≠ [] by
    obtain ⟨x, hx, rfl, hhistory⟩ := hwrites
    obtain ⟨now, hof, hstored⟩ := hrun.commitsOf_singleton hx
    exact ⟨_, hof, rfl, by rw [hstored]; exact hhistory⟩
  generalize s.clients i = client at hk h
  generalize Trail.of es i = t at hk
  generalize ops i = op at client hk h
  cases op with
  | perform target action actor additional =>
      cases client with
      | done r =>
          cases (show g.Acted action actor additional [] t r from hk) with
          | refused _ => exact nomatch h
          | advanced _ _ _ _ _ _ hw =>
              exact ⟨_, hw, Option.some.inj h, List.append_ne_nil_of_right_ne_nil _ nofun⟩
      | _ => exact nomatch h
  | _ => cases client <;> exact nomatch h

/-- What actions that succeeded have moved an execution to, in the order of their
    commits. -/
def performances (ops : ι → Operation) (clients : ∀ i, Client (ops i).Result)
    (es : List (Event ι)) (id : String) : List Execution :=
  (commitsTo es id).filterMap fun x => (ops x.client).performed? (clients x.client)

/-- That misses no action that has succeeded on the execution. -/
theorem mem_performances (hrun : System.Run c ⟨w, fun i => (ops i).client g⟩ es s)
    (hkeeps : ∀ i, (s.clients i).Keeps ((ops i).onceTerms g []) ((ops i).Ends g [])
      ((ops i).Fails []) (Trail.of es i)) {moved : Execution} :
    moved ∈ performances ops s.clients es id ↔
      moved.id = id ∧ ∃ i, (ops i).performed? (s.clients i) = some moved := by
  have hone {x : Commit ι} (hx : x ∈ commits es) {i : ι} (hi : x.client = i)
      (h : (ops i).performed? (s.clients i) = some moved) : x.write.stored = moved := by
    obtain ⟨y, hy, hstored, _⟩ := Operation.commit_of_performed hrun (hkeeps i) h
    have hmem : x ∈ commitsOf es i := List.mem_filter.mpr ⟨hx, decide_eq_true hi⟩
    rw [hy, List.mem_singleton] at hmem
    rw [hmem, hstored]
  constructor
  · intro hmem
    obtain ⟨x, hx, hperformed⟩ := List.mem_filterMap.mp hmem
    obtain ⟨hx, hid⟩ := List.mem_filter.mp hx
    exact ⟨hone hx rfl hperformed ▸ of_decide_eq_true hid, _, hperformed⟩
  · rintro ⟨hid, i, hperformed⟩
    obtain ⟨x, hx, hstored, _⟩ := Operation.commit_of_performed hrun (hkeeps i) hperformed
    obtain ⟨hmem, hi⟩ := List.mem_filter.mp
      (hx ▸ List.mem_singleton_self x : x ∈ commitsOf es i)
    obtain rfl : x.client = i := of_decide_eq_true hi
    refine List.mem_filterMap.mpr ⟨x, ?_, hperformed⟩
    exact List.mem_filter.mpr ⟨hmem, decide_eq_true (hstored ▸ hid)⟩

open Classical in
/-- The records of commits by those who have appended one are those of the actions that
    have succeeded. -/
theorem acted_eq_performances (hrun : System.Run c ⟨w, fun i => (ops i).client g⟩ es s)
    (hkeeps : ∀ i, (s.clients i).Keeps ((ops i).onceTerms g []) ((ops i).Ends g [])
      ((ops i).Fails []) (Trail.of es i)) :
    (commitsTo es id).filterMap (Traced.acted? (· ∈ Appenders ops es id)) =
      (performances ops s.clients es id).filterMap (·.history.getLast?) := by
  unfold performances
  rw [List.filterMap_filterMap]
  refine List.filterMap_congr fun x hx => ?_
  obtain ⟨hx, hid⟩ := List.mem_filter.mp hx
  have hiff : (∃ e, (ops x.client).performed? (s.clients x.client) = some e ∧ e.id = id) ↔
      (ops x.client).Appended (Trail.of es x.client) id := by
    refine Operation.performed?_iff (hkeeps x.client) fun y hy => ?_
    rw [Trail.writes_of] at hy
    obtain ⟨z, hz, rfl⟩ := List.mem_map.mp hy
    rw [hrun.stored_eq (List.mem_filter.mp hz).1]
    rfl
  unfold Traced.acted?
  cases hperformed : (ops x.client).performed? (s.clients x.client) with
  | none =>
      refine if_neg fun hmem => ?_
      obtain ⟨moved, hsome, _⟩ := hiff.mpr hmem
      exact nomatch hperformed.symm.trans hsome
  | some moved =>
      obtain ⟨y, hy, rfl, _⟩ :=
        Operation.commit_of_performed hrun (hkeeps x.client) hperformed
      have hmem : x ∈ commitsOf es x.client := List.mem_filter.mpr ⟨hx, decide_eq_true rfl⟩
      rw [hy, List.mem_singleton] at hmem
      rw [← hmem] at hperformed ⊢
      exact if_pos (hiff.mp ⟨_, hperformed, of_decide_eq_true hid⟩)

theorem getLast?_filterMap_of_isSome {α β : Type} {f : α → Option β} {xs : List α}
    (h : ∀ x ∈ xs, (f x).isSome = true) : (xs.filterMap f).getLast? = xs.getLast?.bind f := by
  rcases List.eq_nil_or_concat' xs with rfl | ⟨ys, x, rfl⟩
  · rfl
  · obtain ⟨y, hy⟩ := Option.isSome_iff_exists.mp (h x (by simp))
    rw [List.filterMap_append, List.filterMap_cons_some hy, List.filterMap_nil,
      List.getLast?_concat, List.getLast?_concat, Option.bind_some, hy]

/-- In a run without restorations the record that a retry goes back to is the last one that
    an action which succeeded has appended under another name than those of the system.
    Where no workflow declares an action under such a name that is the record of the last
    action that has succeeded, and there is none only if none has. -/
theorem retry_candidate_of_run (hw : w.store.Keyed) (hops : ∀ i, ¬(ops i).IsRestore)
    (hrun : System.Run .universal ⟨w, fun i => (ops i).client g⟩ es s) {v : Value}
    (hfound : s.world.store.find? s.world.now v = .ok (some e))
    (hfree : w.store.slot? e.id = none) :
    let moves := performances ops s.clients es e.id
    let records := moves.filterMap (·.history.getLast?)
    (∀ moved, moved ∈ moves ↔
        moved.id = e.id ∧ ∃ i, (ops i).performed? (s.clients i) = some moved) ∧
      records.Sublist e.history ∧ records.length = moves.length ∧
      e.retryCandidate? = lastOfCaller records ∧
      ((∀ action, g.Declares action → isSystemAction action = false) →
        e.retryCandidate? = moves.getLast?.bind (·.history.getLast?) ∧
        (e.retryCandidate? = none ↔ moves = [])) ∧
      ∀ d strategy target force move, g.definitionFor e = .ok (some d) →
        g.planMove d e strategy target force = .ok move → move.strategy = .retryLast →
        ∃ r, e.retryCandidate? = some r ∧ move.target = some r.fromStep := by
  intro moves records
  have hspares : Climate.universal.Spares := fun _ h => h
  obtain ⟨_, _, hkeeps⟩ := Operation.tracked_of_run hspares.contests hw hrun
  obtain ⟨hsourced, _, _⟩ := hrun.invariant _ _ _ (Sourced g ops w.store)
    (fun i => Operation.keeps_once g (ops i) {}) (.start hw)
    (fun _ _ _ _ _ _ h => ⟨⟨h.tracked.keyed, h.tracked.reads⟩, h.origins,
      ⟨h.informed.reads, h.informed.times, h.informed.moments⟩⟩)
    (fun _ _ _ _ h hallows hq => h.step hspares hallows (fun _ ht => ht) hops hq)
  obtain ⟨_, slot, hslot, hshows⟩ := Store.shows_of_find? hsourced.tracked.keyed hfound
  have horigin := hsourced.origins e.id hfree
  rw [hslot] at horigin
  cases horigin with
  | filled hshown =>
      classical
      have htraced := (hshown e hshows).1
      have hmoves : ∀ moved, moved ∈ moves ↔
          moved.id = e.id ∧ ∃ i, (ops i).performed? (s.clients i) = some moved :=
        fun _ => mem_performances hrun hkeeps
      have hrecords : (commitsTo es e.id).filterMap
          (Traced.acted? (· ∈ Appenders ops es e.id)) = records :=
        acted_eq_performances hrun hkeeps
      have hcandidate : e.retryCandidate? = lastOfCaller records :=
        hrecords ▸ htraced.lastOfCaller_eq
      obtain ⟨hsublist, hdeclared⟩ := htraced.acted_sublist
      rw [hrecords] at hsublist hdeclared
      have hsome : ∀ moved ∈ moves, moved.history.getLast?.isSome = true := by
        intro moved hmoved
        obtain ⟨_, i, hperformed⟩ := (hmoves moved).mp hmoved
        obtain ⟨_, _, _, hhistory⟩ := Operation.commit_of_performed hrun (hkeeps i) hperformed
        exact List.getLast?_isSome.mpr hhistory
      have hlength : records.length = moves.length :=
        List.filterMap_length_eq_length.mpr hsome
      refine ⟨hmoves, hsublist, hlength, hcandidate, fun hnames => ?_, ?_⟩
      · rw [lastOfCaller_eq_getLast? fun r hr => hnames _ (hdeclared r hr)] at hcandidate
        rw [hcandidate]
        refine ⟨getLast?_filterMap_of_isSome hsome, ?_⟩
        rw [List.getLast?_eq_none_iff, ← List.length_eq_zero_iff, hlength,
          List.length_eq_zero_iff]
      · intro d strategy target force move hd hmove hretry
        rcases planMove_cases hd hmove with ⟨r, hr, _, rfl⟩ | ⟨hother, _⟩
        · exact ⟨r, hr, rfl⟩
        · exact absurd hretry hother

theorem parcelOperations_not_restore (i : Nat) : ¬(parcelOperations i).IsRestore := by
  unfold parcelOperations
  split <;> exact id

/-- A parcel was sent and then called back: what can be tried again is the sending. -/
theorem parcelDesk_candidate :
    let r := parcelDesk.follow
      [0, 0, 1, 1, 1, 1, 1, 2, 2, 2, 2, 2, 3, 3, 3, 3, 3, 4, 4, 4, 4, 4]
    ∃ e moved x, r.2.world.store.find? r.2.world.now (.str "exec-1") = .ok (some e) ∧
      performances parcelOperations r.2.clients r.1 "exec-1" = [moved] ∧
      moved.history.getLast? = some x ∧ x.action = "send" ∧
      e.history.map (·.action) = ["send", "recovery:reset"] ∧ e.retryCandidate? = some x := by
  intro r
  have huniversal : Climate.universal.Allows parcelDesk.world :=
    ⟨rfl, fun d h => absurd h List.not_mem_nil⟩
  have hrun : System.Run .universal parcelDesk r.1 r.2 := .of_schedule huniversal _
  have hkeyed : parcelDesk.world.store.Keyed := fun e he => absurd he List.not_mem_nil
  have hstored : (r.2.world.store.find? r.2.world.now (.str "exec-1")).toOption.join.map
      (fun e => (e.id, e.history.map (·.action))) =
      some ("exec-1", ["send", "recovery:reset"]) := by decide +kernel
  have hmoves : (performances parcelOperations r.2.clients r.1 "exec-1").map
      (fun moved => moved.history.getLast?.map (·.action)) = [some "send"] := by
    decide +kernel
  have hnames : ∀ action, parcelEngine.Declares action → isSystemAction action = false := by
    rintro action ⟨name, d, hd, step, hstep, a, ha, rfl⟩
    rw [List.mem_singleton.mp (List.mem_of_find?_eq_some hd)] at hstep
    revert a
    revert step
    decide
  obtain ⟨e, hfound, heq⟩ := found_of_map hstored
  obtain ⟨hid, hactions⟩ := Prod.mk.inj heq
  obtain ⟨moved, hmoved, hlast⟩ := List.map_eq_singleton_iff.mp hmoves
  obtain ⟨x, hx, haction⟩ := Option.map_eq_some_iff.mp hlast
  obtain ⟨_, _, _, _, hcandidate, _⟩ := retry_candidate_of_run (w := parcelDesk.world) hkeyed
    parcelOperations_not_restore hrun hfound rfl
  refine ⟨e, moved, x, hfound, hmoved, hx, haction, hactions, ?_⟩
  rw [(hcandidate hnames).1, hid, hmoved, List.getLast?_singleton, Option.bind_some, hx]

/-- A workflow whose first action bears a name like those of the system. -/
def shadowWorkflow : Definition :=
  { serial := 1, name := "shadow"
    steps :=
      [ { name := "packed", actions := [⟨"recovery:send", "sent", none, none, false⟩] },
        { name := "sent", actions := [⟨"deliver", "there", none, none, false⟩] },
        { name := "there" } ] }

/-- Operations on one execution of it: it is created, and that action is performed. -/
def shadowOperations : Nat → Operation
  | 0 => .create "shadow" (.ref (.subject "Box" "7")) .null (.dict [])
  | _ => .perform (.id (.str "exec-1")) (.str "recovery:send") (.str "ann") .null

/-- Clients at these operations. -/
def shadowDesk : System Nat fun i => (shadowOperations i).Result :=
  ⟨{}, fun i => (shadowOperations i).client { registry := ⟨[shadowWorkflow]⟩ }⟩

/-- A builder makes the workflow, the action succeeds, and there is nothing to try again. -/
theorem shadowDesk_no_candidate :
    let r := shadowDesk.follow [0, 0, 1, 1, 1, 1, 1]
    Definition.define 1 "shadow" none
        [ .step "packed" none false [.action "recovery:send" "sent" none none false],
          .step "sent" none false [.action "deliver" "there" none none false],
          .step "there" none false [] ] = .ok shadowWorkflow ∧
      (∀ i, ¬(shadowOperations i).IsRestore) ∧ System.Run .universal shadowDesk r.1 r.2 ∧
      ∃ e, r.2.world.store.find? r.2.world.now (.str "exec-1") = .ok (some e) ∧
        e.history.map (·.action) = ["recovery:send"] ∧
        (performances shadowOperations r.2.clients r.1 "exec-1").length = 1 ∧
        e.retryCandidate? = none := by
  intro r
  have huniversal : Climate.universal.Allows shadowDesk.world :=
    ⟨rfl, fun d h => absurd h List.not_mem_nil⟩
  have hops (i : Nat) : ¬(shadowOperations i).IsRestore := by
    unfold shadowOperations
    split <;> exact id
  have hmoves : (performances shadowOperations r.2.clients r.1 "exec-1").length = 1 := by
    decide +kernel
  have hstored : (r.2.world.store.find? r.2.world.now (.str "exec-1")).toOption.join.map
      (fun e => (e.history.map (·.action), e.retryCandidate?.isNone)) =
      some (["recovery:send"], true) := by decide +kernel
  obtain ⟨e, hfound, heq⟩ := found_of_map hstored
  obtain ⟨hhistory, hcandidate⟩ := Prod.mk.inj heq
  exact ⟨rfl, hops, .of_schedule huniversal _, e, hfound, hhistory, hmoves,
    Option.isNone_iff_eq_none.mp hcandidate⟩

end Workflow
