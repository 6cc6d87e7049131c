import Workflow.Proofs.Commit

/-! # Blockers — what forbids a recovery, and what a recovery leaves that fails

    A recovery asks for its blockers twice: of the snapshot that it reads first, and
    then of each snapshot on which it would decide.  Its save goes over the version of
    the last one, so what it replaces was shown to be without blockers, whatever other
    writers do in between; and whatever it fails at comes before that save.

    The heart is `keeps_recover`, which tells both of the operation whatever it is
    answered. -/

namespace Workflow

open Client

variable {ι : Type} {α : ι → Type} {g : Engine} {e base : Execution} {word : String}

/-! ## Reasons against recovery -/

/-- A reason against recovering an execution. -/
inductive Blocker where
  | completed
  | corrupted
  | undefined
  | unresolved

/-- Is there an entity behind the reference? -/
def Engine.Resolves (g : Engine) (r : EntityRef) : Prop :=
  r.type ≠ "" ∧ r.id ≠ "" ∧ ∃ v, g.resolveSubject r = .ok v ∧ v.isNull = false

namespace Blocker

/-- The reasons, in the order in which they are told. -/
def all : List Blocker := [completed, corrupted, undefined, unresolved]

/-- How the reason is told. -/
def text (e : Execution) : Blocker → String
  | completed  => "Workflow is already completed"
  | corrupted  => "Context data appears corrupted"
  | undefined  => s!"Workflow definition '{e.workflowName.display}' is missing"
  | unresolved => "Subject reference cannot be resolved"

/-- Does the reason hold for the execution? -/
def Holds (g : Engine) (e : Execution) : Blocker → Prop
  | completed  => e.status = .completed
  | corrupted  => valueProblems true e.context ≠ []
  | undefined  => ¬∃ d, g.definitionFor e = .ok (some d)
  | unresolved => ¬g.Resolves e.subject

open Classical in
/-- The reasons that hold, in order. -/
noncomputable def holding (g : Engine) (e : Execution) : List Blocker :=
  all.filter fun b => b.Holds g e

theorem mem_holding (b : Blocker) : b ∈ holding g e ↔ b.Holds g e := by
  have hall : b ∈ all := by cases b <;> simp [all]
  simp [holding, hall]

open Classical in
theorem holding_eq : holding g e =
    (if Holds g e completed then [completed] else []) ++
      (if Holds g e corrupted then [corrupted] else []) ++
      (if Holds g e undefined then [undefined] else []) ++
      (if Holds g e unresolved then [unresolved] else []) := by
  simp only [holding, all, List.filter_cons, List.filter_nil, decide_eq_true_eq]
  split <;> split <;> split <;> split <;> rfl

end Blocker

namespace Engine

theorem subjectIssues_nil_iff : g.subjectIssues e = [] ↔ g.Resolves e.subject := by
  unfold subjectIssues Resolves
  by_cases hblank : e.subject.type = "" ∨ e.subject.id = ""
  · rw [if_pos hblank]
    constructor
    · exact fun h => nomatch h
    · rintro ⟨htype, hid, _⟩
      exact absurd hblank (not_or.mpr ⟨htype, hid⟩)
  · rw [if_neg hblank]
    obtain ⟨htype, hid⟩ := not_or.mp hblank
    cases hr : g.resolveSubject e.subject with
    | error f => simp
    | ok v => cases hv : v.isNull <;> simp [htype, hid, hv]

/-- Where the name of the workflow can be looked up, the blockers are told exactly, and
    in order. -/
theorem recoveryBlockers_eq (hname : e.workflowName.isHashable = true) :
    g.recoveryBlockers e = .ok ((Blocker.holding g e).map (Blocker.text e)) := by
  obtain ⟨o, ho⟩ : ∃ o, g.definitionFor e = .ok o := ⟨_, if_pos hname⟩
  have hcompleted : Blocker.Holds g e .completed ↔ e.status = .completed := Iff.rfl
  have hcorrupted : Blocker.Holds g e .corrupted ↔
      ¬(valueProblems true e.context).isEmpty = true := by
    rw [List.isEmpty_iff]
    exact Iff.rfl
  have hundefined : Blocker.Holds g e .undefined ↔ ¬o.isSome = true := by
    unfold Blocker.Holds
    rw [ho]
    cases o <;> simp
  have hunresolved : Blocker.Holds g e .unresolved ↔ ¬(g.subjectIssues e).isEmpty = true := by
    rw [List.isEmpty_iff]
    exact not_congr subjectIssues_nil_iff.symm
  unfold recoveryBlockers staticBlockers
  rw [ho]
  show Except.ok (_ ++ _ ++ _ ++ _) = _
  rw [Blocker.holding_eq]
  simp only [hcompleted, hcorrupted, hundefined, hunresolved, List.map_append, ite_not]
  congr 5 <;> split <;> rfl

/-- Can the execution be moved: is it not completed, is its context fit to be stored, and
    is its workflow registered? -/
structure Movable (g : Engine) (e : Execution) : Prop where
  unfinished : e.status ≠ .completed
  fit        : valueProblems true e.context = []
  defined    : ∃ d, g.definitionFor e = .ok (some d)

theorem movable_of_staticBlockers (h : g.staticBlockers e = .ok []) : g.Movable e := by
  obtain ⟨o, ho, h⟩ := exceptBind_ok.mp h
  have h := Except.ok.inj h
  simp only [List.append_eq_nil_iff, ite_eq_right_iff, ite_eq_left_iff] at h
  obtain ⟨⟨hcompleted, hfit⟩, hdefined⟩ := h
  refine ⟨fun hc => absurd (hcompleted hc) (List.cons_ne_nil _ _), ?_, ?_⟩
  · cases hp : valueProblems true e.context with
    | nil => rfl
    | cons p ps =>
        have hno := hfit (by rw [hp]; exact Bool.false_ne_true)
        exact absurd hno (List.cons_ne_nil _ _)
  · cases o with
    | none => exact absurd (hdefined Bool.false_ne_true) (List.cons_ne_nil _ _)
    | some d => exact ⟨d, ho⟩

/-! ## What a recovery asks for -/

/-- What a recovery may ask for that moves its execution: all that it saves is to replace
    the snapshot that it read last, which can be moved. -/
def moveTerms (g : Engine) : Client.Terms := fun t q =>
  match q with
  | .save p v   => ∃ base, t.read = some base ∧ g.Movable base ∧ p.id = base.id ∧
      p.idValue = base.idValue ∧ v = base.version
  | .insert _   => False
  | _           => True

/-- How a recovery fails: with nothing written, or when it has written a workflow name
    that it finds and is answered with one that cannot be looked up. -/
def MoveFails (w₀ : List Write) : Trail → Failure → Prop := fun t _ =>
  t.writes = w₀ ∨ ∃ x, t.writes = w₀ ++ [x] ∧
    x.offered.workflowName.isHashable = true ∧ x.stored.workflowName.isHashable = false

theorem isHashable_of_definitionFor {o : Option Definition} (h : g.definitionFor e = .ok o) :
    e.workflowName.isHashable = true := by
  unfold definitionFor at h
  split at h
  · assumption
  · exact nomatch h

/-- Whatever a recovery is answered that is not prepared by hand, it saves over nothing but
    what can be moved, and only its last request may be a save. -/
theorem keeps_recover {on : Target} {target : Value} {force : Bool} (hword : word ≠ "manual")
    (t : Trail) :
    (g.recover on word target force).Keeps g.moveTerms (fun _ _ => True)
      (MoveFails t.writes) t := by
  refine keeps_bind (keeps_refresh trivial (fun current => ?_) fun _ => .inl rfl)
  split
  · exact .inl rfl
  · rename_i s hs
    refine keeps_bind (keeps_ofExcept (fun blockers _ => ?_) fun _ _ => .inl rfl)
    split
    · exact .inl rfl
    · split
      · rename_i hmanual
        have htext := beq_iff_eq.mp (List.find?_some (p := fun x : Strategy => x.text == word) hs)
        rw [hmanual] at htext
        exact absurd htext.symm hword
      · refine keeps_bind (keeps_mono (keeps_mutate g _ _ _ false _) (fun t' q hq => ?_)
          (fun t' r hr => ?_) fun t' f hf => ?_)
        · cases q with
          | insert e => exact hq.2.elim
          | save p v =>
              -- a recovery leaves no failure mark, so what is offered is its proposal
              obtain ⟨_, ⟨base, m, a, hread, _, hd, rfl⟩ | ⟨hmark, _⟩⟩ := hq
              · obtain ⟨_, _, _, _, _, _, hblockers, _, _, _, _, _, _, hp⟩ :=
                  moveMutation_decides hd
                rw [Option.some.inj hp]
                exact ⟨base, hread, movable_of_staticBlockers hblockers, rfl, rfl, rfl⟩
              · exact nomatch hmark
          | _ => trivial
        · cases hr with
          | @written base p saved m moved hread _ hd hw =>
              obtain ⟨_, _, _, _, _, _, _, hdef, _, _, _, _, _, hp⟩ := moveMutation_decides hd
              dsimp only
              split
              · exact trivial
              · refine keeps_bind (keeps_ofExcept (fun _ _ => trivial) fun f hf => ?_)
                refine .inr ⟨_, hw, ?_, ?_⟩
                · rw [Option.some.inj hp]
                  exact isHashable_of_definitionFor hdef
                · cases hh : saved.workflowName.isHashable with
                  | false => rfl
                  | true =>
                      unfold availableActions definitionFor at hf
                      rw [if_pos hh] at hf
                      exact nomatch hf
          | unchanged _ _ hd _ =>
              obtain ⟨_, _, _, _, _, _, _, _, _, _, _, _, _, hp⟩ := moveMutation_decides hd
              exact nomatch hp
        · cases hf with
          | clean hw => exact .inl hw
          | marked hmark _ _ => exact nomatch hmark

/-- A recovery of a known strategy that is first shown what is blocked ends there. -/
theorem recover_blocked (on : Target) (target : Value) (force : Bool) {strategy : Strategy}
    {b : String} {bs : List String} (hs : Strategy.ofText? word = some strategy)
    (hblockers : g.recoveryBlockers e = .ok (b :: bs)) :
    ∃ next, g.recover on word target force = .ask (.load on.executionId) next ∧
      next (.ok (some e)) = .fail (blockedFailure (b :: bs) e) := by
  refine ⟨_, rfl, ?_⟩
  dsimp only
  rw [hs]
  show (Client.ofExcept (g.recoveryBlockers e) >>= fun blockers => _) = _
  rw [hblockers]
  rfl

end Engine

/-! ## A recovery beside other clients -/

/-- Does the client save what it has read under the id that it read it under? -/
def Client.LeavesIds {β : Type} (client : Client β) : Prop :=
  client.Keeps (fun t q => (∀ base, t.read = some base → base.OwnsId) → q.OwnsId)
    (fun _ _ => True) (fun _ _ => True) {}

theorem Operation.leavesIds (g : Engine) (op : Operation) : (op.client g).LeavesIds :=
  keeps_mono (op.keeps_client g {}) (fun _ _ hq => terms_ownsId hq) (fun _ _ _ => trivial)
    fun _ _ _ => trivial

/-- The snapshot that the first request of a client showed it. -/
def firstShown? [DecidableEq ι] (es : List (Event ι)) (i : ι) : Option Execution :=
  (es.find? fun e => e.client = i).bind Event.shown?

variable [DecidableEq ι] {c : Climate} {w : World} {on : Target} {target : Value}
  {force : Bool} {others : ∀ i, Client (α i)} {es : List (Event (Option ι))}
  {s : System (Option ι) (Beside Engine.RecoveryResult α)}

/-- Beside other clients a recovery is kept track of, and keeps to its terms. -/
theorem tracked_recover (hc : c.Contests) (hw : w.store.Keyed)
    (hothers : ∀ i, (others i).LeavesIds) (hword : word ≠ "manual")
    (hrun : System.Run c ⟨w, System.beside (g.recover on word target force) others⟩ es s) :
    Tracked s.world es ∧ c.Allows s.world ∧ (s.clients none).Keeps g.moveTerms
      (fun _ _ => True) (Engine.MoveFails []) (Trail.of es none) := by
  have hall (o : Option ι) : (System.beside (g.recover on word target force) others o).Keeps
      (o.elim g.moveTerms fun _ t q => (∀ base, t.read = some base → base.OwnsId) → q.OwnsId)
      (fun _ _ => True) (o.elim (Engine.MoveFails []) fun _ _ _ => True) {} := by
    cases o with
    | none => exact Engine.keeps_recover hword {}
    | some i => exact hothers i
  obtain ⟨htracked, hallows, hkeeps⟩ := hrun.invariant _ (fun _ _ _ => True) _ Tracked hall
    (.start hw) (fun _ _ _ _ _ _ h => ⟨h.keyed, h.reads⟩) fun w es o q h hallows hq => by
      refine h.step hc hallows ?_ o
      cases o with
      | some i => exact hq fun base hread => (h.reads (some i) base hread).1
      | none =>
          cases q with
          | insert e => exact hq.elim
          | save p v =>
              obtain ⟨base, hread, _, hid, hvalue, _⟩ := hq
              exact (h.reads none base hread).1.of_id_eq hid hvalue
          | _ => trivial
  exact ⟨htracked, hallows, hkeeps none⟩

/-- Beside any other writers, and whichever saves fail: what a recovery replaces that is
    not prepared by hand can be moved; when it fails it has written nothing; and when a
    recovery of a known strategy is first shown what is blocked, it fails with exactly
    the blockers that hold, in order. -/
theorem recovery_blocked_or_clean (hc : c.Contests) (hw : w.store.Keyed)
    (hothers : ∀ i, (others i).LeavesIds)
    (hrun : System.Run c ⟨w, System.beside (g.recover on word target force) others⟩ es s) :
    (word ≠ "manual" → ∀ p v next e, s.clients none = .ask (.save p v) next →
      (s.world.answer (.save p v)).1 = .ok e →
      ∃ base, s.world.store.Replaces (s.world.answer (.save p v)).2.store base e ∧
        base.status ≠ .completed ∧ valueProblems true base.context = [] ∧
        ∃ d, g.definitionFor base = .ok (some d)) ∧
    (word ≠ "manual" → ∀ f, s.clients none = .fail f → commitsOf es none = []) ∧
    ∀ cur (strategy : Strategy), strategy.text = word → firstShown? es none = some cur →
      cur.workflowName.isHashable = true → (∃ b, Blocker.Holds g cur b) →
      ∃ (bs : List Blocker) (err : WorkflowError), s.clients none = .fail (.workflow err) ∧
        err.kind = .recovery ∧
        err.details = .dict [(.str "blockers", .texts (bs.map (Blocker.text cur)))] ∧
        bs.Sublist Blocker.all ∧ ∀ b, b ∈ bs ↔ Blocker.Holds g cur b := by
  refine ⟨fun hword p v next e hask hsaved => ?_, fun hword f hfail => ?_, ?_⟩
  · obtain ⟨htracked, hallows, hk⟩ := tracked_recover hc hw hothers hword hrun
    rw [hask] at hk
    obtain ⟨base, hread, hmovable, hid, hvalue, rfl⟩ := hk.1
    have howns : p.OwnsId := (htracked.reads none base hread).1.of_id_eq hid hvalue
    obtain ⟨_, hreplaces⟩ := htracked.replaces hc hallows hread howns hid hsaved
    exact ⟨base, hreplaces, hmovable.unfinished, hmovable.fit, hmovable.defined⟩
  · obtain ⟨_, _, hk⟩ := tracked_recover hc hw hothers hword hrun
    rw [hfail] at hk
    rcases hk with hwrites | ⟨x, hwrites, hoffered, hstored⟩
    · exact commitsOf_nil hwrites
    · -- what is stored has the workflow name that was offered
      obtain ⟨now, _, hx⟩ := hrun.commitsOf_singleton hwrites
      rw [hx] at hstored
      exact absurd (hstored.symm.trans hoffered) Bool.false_ne_true
  · intro cur strategy hstrategy hfirst hname hblocked
    obtain ⟨b, hb⟩ := hblocked
    have hends : s.clients none = .fail (Engine.blockedFailure
        ((Blocker.holding g cur).map (Blocker.text cur)) cur) := by
      have hblockers := Engine.recoveryBlockers_eq (g := g) hname
      have hs : Strategy.ofText? word = some strategy := by
        rw [← hstrategy]
        cases strategy <;> decide
      have hmem := List.mem_map_of_mem (f := Blocker.text cur) ((Blocker.mem_holding b).mpr hb)
      obtain ⟨x, xs, hxs⟩ := List.exists_cons_of_ne_nil (List.ne_nil_of_mem hmem)
      rw [hxs] at hblockers ⊢
      obtain ⟨next, hask, hnext⟩ := Engine.recover_blocked on target force hs hblockers
      rcases hrun.first (i := none) hask with ⟨hnone, _⟩ | ⟨a, now, hsome, hend⟩
      · unfold firstShown? at hfirst
        rw [hnone] at hfirst
        exact nomatch hfirst
      · unfold firstShown? at hfirst
        rw [hsome] at hfirst
        cases a with
        | error f => exact nomatch hfirst
        | ok o =>
            obtain rfl : o = some cur := hfirst
            exact (hend (hnext ▸ rfl)).trans hnext
    exact ⟨_, _, hends, rfl, rfl, List.filter_sublist, Blocker.mem_holding⟩

/-- A review that has been opened. -/
def openReview : Execution :=
  { id := "exec-1", workflowName := .str "review", subject := .subject "Document" "7"
    currentStep := .str "draft", status := .active, context := .dict [], history := []
    assignedActor := none, version := 0, createdAt := .defaultNow
    updatedAt := .defaultNow }

/-- A recovery of the review beside another client that submits it. -/
def recalledReview : System (Option (Fin 1)) (Beside Engine.RecoveryResult fun _ => ActionResult) :=
  ⟨{ store := .memory ⟨[openReview]⟩ },
    System.beside (reviewEngine.recover (.id (.str "exec-1")) "reset" (.str "draft") false)
      fun _ => reviewEngine.perform (.id (.str "exec-1")) (.str "submit") .null .null⟩

/-- A recovery that comes too late is told that the review is completed; one that is
    overtaken fails and writes nothing; one that comes in time replaces an open review. -/
theorem recalledReview_blocked_or_clean :
    let late := recalledReview.follow [some 0, some 0, some 0, some 0, none]
    let overtaken := recalledReview.follow
      [none, some 0, some 0, some 0, some 0, none, none, none]
    let early := recalledReview.follow [none, none, none, none]
    (∃ (bs : List Blocker) (err : WorkflowError),
      late.2.clients none = .fail (.workflow err) ∧ err.kind = .recovery ∧ .completed ∈ bs) ∧
    ((∃ f, overtaken.2.clients none = .fail f) ∧ commitsOf overtaken.1 none = []) ∧
    ∃ p v e base, (early.2.world.answer (.save p v)).1 = .ok e ∧
      early.2.world.store.Replaces (early.2.world.answer (.save p v)).2.store base e ∧
      base.status ≠ .completed := by
  intro late overtaken early
  have hcalm : Climate.calm.Allows recalledReview.world :=
    ⟨trivial, fun d h => absurd h List.not_mem_nil⟩
  have hkeyed : recalledReview.world.store.Keyed := by
    intro e he
    rw [List.mem_singleton.mp he]
    rfl
  have hothers (i : Fin 1) : (reviewEngine.perform (.id (.str "exec-1")) (.str "submit")
      .null .null).LeavesIds :=
    Operation.leavesIds reviewEngine
      (.perform (.id (.str "exec-1")) (.str "submit") .null .null)
  have hlate : System.Run .calm recalledReview late.1 late.2 := .of_schedule hcalm _
  have hovertaken : System.Run .calm recalledReview overtaken.1 overtaken.2 :=
    .of_schedule hcalm _
  have hearly : System.Run .calm recalledReview early.1 early.2 := .of_schedule hcalm _
  have hmanual : "reset" ≠ "manual" := by decide
  refine ⟨?_, ?_, ?_⟩
  · obtain ⟨_, _, htold⟩ := recovery_blocked_or_clean (w := recalledReview.world)
      Climate.calm_spares.contests hkeyed hothers hlate
    have hshown : (firstShown? late.1 none).map (fun e => (decide (e.status = .completed),
        e.workflowName.isHashable)) = some (true, true) := by decide +kernel
    obtain ⟨cur, hcur, hstatus⟩ := Option.map_eq_some_iff.mp hshown
    obtain ⟨hcompleted, hname⟩ := Prod.mk.inj hstatus
    have hcompleted : cur.status = .completed := of_decide_eq_true hcompleted
    have hblocker : Blocker.Holds reviewEngine cur .completed := hcompleted
    obtain ⟨bs, err, hend, hkind, _, _, hbs⟩ := htold cur .reset rfl hcur hname ⟨_, hblocker⟩
    exact ⟨bs, err, hend, hkind, (hbs .completed).mpr hblocker⟩
  · obtain ⟨_, hclean, _⟩ := recovery_blocked_or_clean (w := recalledReview.world)
      Climate.calm_spares.contests hkeyed hothers hovertaken
    have hfail : (overtaken.2.clients none).error?.isSome = true := by decide +kernel
    obtain ⟨err, herr⟩ := Option.isSome_iff_exists.mp hfail
    have hf := Client.error?_some herr
    exact ⟨⟨_, hf⟩, hclean hmanual _ hf⟩
  · obtain ⟨hmoves, _, _⟩ := recovery_blocked_or_clean (w := recalledReview.world)
      Climate.calm_spares.contests hkeyed hothers hearly
    have hask : ((early.2.clients none).saved? early.2.world).isSome = true := by
      decide +kernel
    obtain ⟨e, he⟩ := Option.isSome_iff_exists.mp hask
    obtain ⟨p, v, next, hclient, hsaved⟩ := Client.saved?_some he
    obtain ⟨base, hreplaces, hstatus, _, _⟩ := hmoves hmanual p v next e hclient hsaved
    exact ⟨p, v, e, base, hsaved, hreplaces, hstatus⟩

end Workflow
