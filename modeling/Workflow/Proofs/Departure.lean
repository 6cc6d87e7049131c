import Workflow.Proofs.Blockers
import Workflow.Proofs.Capture
import Workflow.Proofs.Granted

/-! # Departure — a move that is planned goes through, or nothing is written

    A recovery that nothing blocks plans a move, takes a checkpoint of what it leaves
    behind and commits both at once.  Where its save is granted, all that can still stop
    a planned move is that checkpoint.

    The heart is `moveMutation_departs`, on the snapshot; `recover_departs` carries it to the
    whole recovery, whatever its strategy. -/

namespace Workflow

variable {g : Engine} {d : Definition} {e : Execution} {step dest : String} {s : Serials}
  {w : World} {t : Target} {target : Value} {force : Bool}

/-! ## Checkpoints of what is left behind -/

/-- Can a checkpoint of the execution be stored in its context? -/
structure Execution.Capturable (e : Execution) : Prop where
  atText  : ∃ step, Lax.textOf? e.currentStep = some step
  stored  : ∃ ds, Checkpoint.stored e = .ok ds
  shallow : (e.context.without (.str checkpointsKey)).levels ≤ Document.depthLimit

/-- Are no two keys of the context the same text? -/
def Execution.KeysOnce (e : Execution) : Prop :=
  ∀ m : Mapping, e.context = .dict m → (m.map fun x => x.1.toText?).Nodup

namespace Engine

variable {strategy : Strategy} {move : Move} {word : String}

/-! ## Moves of a snapshot -/

/-- What is without blockers is a fortiori without those that the snapshot itself shows. -/
theorem staticBlockers_of_recoveryBlockers (h : g.recoveryBlockers e = .ok []) :
    g.staticBlockers e = .ok [] := by
  obtain ⟨blockers, hblockers, h⟩ := exceptBind_ok.mp h
  rw [hblockers, (List.append_eq_nil_iff.mp (Except.ok.inj h)).1]

/-- A planned move puts the execution where it leads, when its state can be captured. -/
theorem moveMutation_departs (hstatic : g.staticBlockers e = .ok [])
    (hdef : g.definitionFor e = .ok (some d))
    (hplan : g.planMove d e strategy target force = .ok move) (hdest : move.target = some dest)
    (hcapturable : e.Capturable) (hstep : Lax.textOf? e.currentStep = some step)
    (now : Timestamp) (serials : Serials) :
    ∃ (c : Checkpoint) (context : Mapping),
      (g.moveMutation strategy target force e).runAt now serials =
        (.ok (some (relocate e step dest s!"recovery:{move.strategy.text}" .active
              (.dict context) now),
            some ⟨move, dest, c.id,
              if move.strategy = .retryLast then e.retryCandidate? else none⟩),
          { serials with checkpoints := serials.checkpoints + 1 }) := by
  obtain ⟨entries, he, hproblems⟩ := valueProblems_nil.mp (movable_of_staticBlockers hstatic).fit
  have hfit := (contextProblems_nil.mp hproblems).1
  obtain ⟨ds, hstored⟩ := hcapturable.stored
  obtain ⟨c, doc, hcapture, hcaptured, hdoc⟩ := Checkpoint.capture_fit he hfit hstep
    hcapturable.shallow ("Before " ++ move.strategy.text ++ " to " ++ move.target.getD "None")
    now serials
  have hrecord : systemRecord (some c.capturedStep) move.target
      s!"recovery:{move.strategy.text}" now =
        .ok ⟨step, dest, s!"recovery:{move.strategy.text}", some .systemRecovery, now⟩ := by
    rw [hcaptured, hdest]
    rfl
  obtain ⟨context, hstore⟩ : ∃ context,
      Checkpoint.store e c g.settings.recovery.maxCheckpoints entries = .ok context :=
    ⟨_, exceptBind_ok.mpr ⟨ds, hstored, exceptBind_ok.mpr ⟨doc, hdoc, rfl⟩⟩⟩
  refine ⟨c, context, ?_⟩
  refine Draft.runAt_ofExcept_bind_ok.mpr ⟨[], hstatic, ?_⟩
  refine Draft.runAt_ofExcept_bind_ok.mpr ⟨d, requireDefinition_ok.mpr hdef, ?_⟩
  refine Draft.runAt_ofExcept_bind_ok.mpr ⟨_, hplan, ?_⟩
  refine Draft.runAt_bind_ok.mpr ⟨c, _, hcapture, ?_⟩
  refine Draft.runAt_bind_ok.mpr ⟨now, _, rfl, ?_⟩
  refine Draft.runAt_ofExcept_bind_ok.mpr ⟨_, hrecord, ?_⟩
  refine Draft.runAt_ofExcept_bind_ok.mpr ⟨entries, Execution.entries_ok.mpr he, ?_⟩
  exact Draft.runAt_ofExcept_bind_ok.mpr ⟨context, hstore, rfl⟩

/-- A move is made only of what can be captured. -/
theorem capturable_of_moves {m : Moment} {o : Option Execution} {moved : Option Moved}
    (h : (g.moveMutation strategy target force).Decides e m o moved) (hkeys : e.KeysOnce) :
    e.Capturable := by
  obtain ⟨_, _, _, entries, _, c, hstatic, _, _, _, he, hstows, _, _⟩ := moveMutation_decides h
  obtain ⟨m', he', hproblems⟩ := valueProblems_nil.mp (movable_of_staticBlockers hstatic).fit
  obtain rfl : entries = m' := Value.dict.inj (he.symm.trans he')
  have hfit := (contextProblems_nil.mp hproblems).1
  obtain ⟨_, hcapture⟩ := hstows.taken
  obtain ⟨ds, hstored, hdocument⟩ := exceptBind_ok.mp hstows.stored
  obtain ⟨doc, hdoc, _⟩ := exceptBind_ok.mp hdocument
  exact ⟨⟨_, hstows.capturedStep_eq he⟩, ⟨ds, hstored⟩,
    Checkpoint.levels_of_capture he hfit (hkeys _ he) hcapture hdoc⟩

/-! ## Recoveries that move -/

/-- A recovery of what is without blockers comes down to its commit. -/
theorem recover_commits (hblockers : g.recoveryBlockers e = .ok [])
    (hword : Strategy.ofText? word = some strategy) (hmanual : strategy ≠ .manual)
    (t : Target) (target : Value) (force : Bool) :
    ∃ k, g.recover t word target force = (refresh t.executionId >>= k) ∧
      k e = g.commitMove e strategy target force := by
  refine ⟨_, rfl, ?_⟩
  rw [hword, hblockers]
  show (if strategy = .manual then _ else _) = _
  rw [if_neg hmanual]

/-- A recovery that decides on a failure ends with it, and writes nothing. -/
theorem recover_stops {f : Failure} (hfind : w.store.find? w.now t.executionId = .ok (some e))
    (hblockers : g.recoveryBlockers e = .ok [])
    (hword : Strategy.ofText? word = some strategy) (hmanual : strategy ≠ .manual)
    (hdecides : (g.moveMutation strategy target force e).runAt w.now w.serials = (.error f, s)) :
    (g.recover t word target force).run w = (.error f, { w with serials := s }) := by
  obtain ⟨k, hrecover, hk⟩ := recover_commits hblockers hword hmanual t target force
  rw [hrecover, Client.run_bind_ok (run_refresh hfind), hk]
  exact Client.run_bind_error (run_mutate_failed (Store.find?_own hfind) hdecides)

/-- A recovery for which a move is planned makes it, when the state can be captured and no
    save is refused. -/
theorem recover_departs (hfind : w.store.find? w.now t.executionId = .ok (some e))
    (hblockers : g.recoveryBlockers e = .ok [])
    (hword : Strategy.ofText? word = some strategy) (hmanual : strategy ≠ .manual)
    (hdef : g.definitionFor e = .ok (some d))
    (hplan : g.planMove d e strategy target force = .ok move) (hdest : move.target = some dest)
    (hcapturable : e.Capturable) (hstep : Lax.textOf? e.currentStep = some step)
    (hgranted : (g.recover t word target force).granted w = true) :
    ∃ r w' context, (g.recover t word target force).run w = (.ok r, w') ∧
      r.strategy = move.strategy.text ∧ r.targetStep = some dest ∧
      { w with serials := { w.serials with checkpoints := w.serials.checkpoints + 1 } }.save
        (relocate e step dest s!"recovery:{move.strategy.text}" .active context w.now)
        e.version = (.ok r.execution, w') ∧
      r.execution = (relocate e step dest s!"recovery:{move.strategy.text}" .active context
        w.now).committed e.version w.now := by
  have hstatic := staticBlockers_of_recoveryBlockers hblockers
  obtain ⟨k, hrecover, hk⟩ := recover_commits hblockers hword hmanual t target force
  rw [hrecover] at hgranted ⊢
  have hgranted := Client.granted_rest (run_refresh hfind) hgranted
  rw [hk] at hgranted
  obtain ⟨taken, context, hdecides⟩ := moveMutation_departs hstatic hdef hplan hdest hcapturable
    hstep w.now w.serials
  obtain ⟨saved, w', hsave, hmutate⟩ := run_mutate_granted (Store.find?_own hfind) hdecides
    (Client.granted_of_bind hgranted)
  have hsaved := World.stored_of_save (congrArg Prod.fst hsave)
  have hname : g.definitionFor saved = .ok (some d) := by
    rw [hsaved]
    exact hdef
  let retried := if move.strategy = .retryLast then e.retryCandidate? else none
  let r : RecoveryResult :=
    { strategy := move.strategy.text, targetStep := some dest, checkpointId := some taken.id
      retryAction := retried.map (·.action)
      retryAvailable := retried.map fun x => (saved.openActions (some d)).contains x.action
      execution := saved }
  refine ⟨r, w', .dict context, ?_, rfl, rfl, hsave, hsaved⟩
  rw [Client.run_bind_ok (run_refresh hfind), hk]
  refine (Client.run_bind_ok hmutate).trans ?_
  dsimp only
  rw [availableActions_eq hname]
  rfl

/-- A recovery that succeeds has made the move that is planned, of a state that can be
    captured. -/
theorem recover_makes {w' : World} {r : RecoveryResult}
    (hfind : w.store.find? w.now t.executionId = .ok (some e)) (hkeys : e.KeysOnce)
    (hblockers : g.recoveryBlockers e = .ok [])
    (hword : Strategy.ofText? word = some strategy) (hmanual : strategy ≠ .manual)
    (hdef : g.definitionFor e = .ok (some d))
    (hgranted : (g.recover t word target force).granted w = true)
    (hrun : (g.recover t word target force).run w = (.ok r, w')) :
    ∃ move dest, e.Capturable ∧ g.planMove d e strategy target force = .ok move ∧
      move.target = some dest ∧ r.strategy = move.strategy.text ∧ r.targetStep = some dest ∧
      r.execution.currentStep = .str dest := by
  cases hd : (g.moveMutation strategy target force e).runAt w.now w.serials with
  | mk decided s =>
      cases decided with
      | error f =>
          rw [recover_stops hfind hblockers hword hmanual hd] at hrun
          exact nomatch (Prod.mk.inj hrun).1
      | ok p =>
          have hmoved : (g.moveMutation strategy target force).Decides e ⟨w.now, w.serials, s⟩
            p.1 p.2 := hd
          have hcapturable := capturable_of_moves hmoved hkeys
          obtain ⟨step, hstep⟩ := hcapturable.atText
          obtain ⟨d', move, dest, _, _, _, _, hdef', hplan, hdest, _⟩ :=
            moveMutation_decides hmoved
          obtain rfl := Option.some.inj (Except.ok.inj (hdef.symm.trans hdef'))
          obtain ⟨r', w₁, context, hrun', hstrategy, htarget, _, hsaved⟩ := recover_departs hfind
            hblockers hword hmanual hdef hplan hdest hcapturable hstep hgranted
          obtain rfl := Except.ok.inj (Prod.mk.inj (hrun.symm.trans hrun')).1
          refine ⟨move, dest, hcapturable, hplan, hdest, hstrategy, htarget, ?_⟩
          rw [hsaved]
          rfl

/-- So it succeeds just when a move is planned and the state can be captured. -/
theorem recovers_iff (hfind : w.store.find? w.now t.executionId = .ok (some e))
    (hkeys : e.KeysOnce) (hblockers : g.recoveryBlockers e = .ok [])
    (hword : Strategy.ofText? word = some strategy) (hmanual : strategy ≠ .manual)
    (hdef : g.definitionFor e = .ok (some d))
    (hgranted : (g.recover t word target force).granted w = true) :
    (∃ r w', (g.recover t word target force).run w = (.ok r, w')) ↔ e.Capturable ∧
      ∃ move dest, g.planMove d e strategy target force = .ok move ∧ move.target = some dest := by
  constructor
  · rintro ⟨r, w', hrun⟩
    obtain ⟨move, dest, hcapturable, hplan, hdest, _⟩ :=
      recover_makes hfind hkeys hblockers hword hmanual hdef hgranted hrun
    exact ⟨hcapturable, move, dest, hplan, hdest⟩
  · rintro ⟨hcapturable, move, dest, hplan, hdest⟩
    obtain ⟨step, hstep⟩ := hcapturable.atText
    obtain ⟨r, w', _, hrun, _⟩ := recover_departs hfind hblockers hword hmanual hdef hplan hdest
      hcapturable hstep hgranted
    exact ⟨r, w', hrun⟩

end Engine

end Workflow
