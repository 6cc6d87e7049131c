import Workflow.Proofs.Admission
import Workflow.Proofs.Chronicle
import Workflow.Proofs.Contention
import Workflow.Proofs.Departure
import Workflow.Proofs.Diagnosis
import Workflow.Proofs.Growth
import Workflow.Proofs.Span
import Workflow.Settings.Reader

/-! # Containment — where the arithmetic of the settings comes to its limits

    Settings are accepted from a least value on, and the arithmetic that they enter has a
    greatest one.  The delay before a retry doubles with each attempt, up to the last power
    of two that is a double; the spans after which a checkpoint is too old and an execution
    is stale must fit into a thousand million days.  Below these limits an operation fails
    with an error of the workflow; from them on it fails with what the arithmetic throws.

    The heart is `attempts_contained`, by induction on the attempts that are left before the
    delay is too large: what ends the loop is what its own attempt came to. -/

namespace Workflow

open Client

/-! ## Accepted settings -/

/-- What is read of a field is the default, or is what its reader made of something. -/
theorem Checked.field_inv {α : Type} {P : α → Prop} {m : Mapping} {path key : String} {a b : α}
    {read : String → Value → Checked α} (h : Checked.field m path key (some b) read = .ok a)
    (hdefault : P b) (hread : ∀ path v, read path v = .ok a → P a) : P a := by
  unfold Checked.field at h
  cases hv : m.get? key with
  | some v =>
      rw [hv] at h
      exact hread _ v h
  | none =>
      rw [hv] at h
      exact Checked.ok.inj h ▸ hdefault

theorem Lax.positive_ok {path : String} {v : Value} {x : Binary64}
    (h : Lax.positive path v = .ok x) : x.compare? .zero ≠ some .lt := by
  unfold Lax.positive at h
  split at h
  · rename_i y _
    cases hy : y.compare? .zero with
    | none =>
        rw [hy] at h
        rw [← Checked.ok.inj h, hy]
        exact nofun
    | some o =>
        rw [hy] at h
        cases o with
        | lt => exact nomatch h
        | eq => exact nomatch h
        | gt =>
            rw [← Checked.ok.inj h, hy]
            exact nofun
  · exact nomatch h

/-- Are the spans of the settings not below zero? -/
structure RecoverySettings.Lasting (r : RecoverySettings) : Prop where
  age  : r.checkpointMaxAgeDays.compare? .zero ≠ some .lt
  idle : r.staleAfterHours.compare? .zero ≠ some .lt

theorem RecoverySettings.lasting_default : ({} : RecoverySettings).Lasting :=
  ⟨by decide +kernel, by decide +kernel⟩

theorem RecoverySettings.lasting_of_read {path : String} {v : Value} {r : RecoverySettings}
    (h : RecoverySettings.read path v = .ok r) : r.Lasting := by
  unfold RecoverySettings.read at h
  split at h
  swap
  · exact nomatch h
  obtain ⟨_, _, h₅, _, rfl⟩ := Checked.seq_ok.mp h
  obtain ⟨_, _, h₄, _, rfl⟩ := Checked.seq_ok.mp h₅
  obtain ⟨_, _, h₃, _, rfl⟩ := Checked.seq_ok.mp h₄
  obtain ⟨_, idle, h₂, hidle, rfl⟩ := Checked.seq_ok.mp h₃
  obtain ⟨_, _, h₁, _, rfl⟩ := Checked.seq_ok.mp h₂
  obtain ⟨age, hage, rfl⟩ := Checked.map_ok.mp h₁
  have hpositive {key : String} {m : Mapping} {x b : Binary64}
      (h : Checked.field m path key (some b) Lax.positive = .ok x)
      (hb : b.compare? .zero ≠ some .lt) : x.compare? .zero ≠ some .lt :=
    Checked.field_inv (P := fun y => y.compare? .zero ≠ some .lt) h hb
      fun _ _ hread => Lax.positive_ok hread
  exact ⟨hpositive hage lasting_default.age, hpositive hidle lasting_default.idle⟩

/-- Accepted settings have no span below zero. -/
theorem Settings.lasting_of_read {m : Mapping} {s : Settings} (h : Settings.read m = .ok s) :
    s.recovery.Lasting := by
  obtain ⟨_, recovery, h₃, hrecovery, rfl⟩ := Checked.seq_ok.mp h
  obtain ⟨_, _, h₂, _, rfl⟩ := Checked.seq_ok.mp h₃
  obtain ⟨_, _, h₁, _, rfl⟩ := Checked.seq_ok.mp h₂
  obtain ⟨_, _, rfl⟩ := Checked.map_ok.mp h₁
  exact Checked.field_inv hrecovery RecoverySettings.lasting_default
    fun _ _ => RecoverySettings.lasting_of_read

/-! ## Other writers, and nothing worse -/

namespace Turn

/-- Is the execution there to be read, does a save meet no other trouble than other writers,
    and is what is drawn a double? -/
def Contested : Turn → Prop
  | ⟨.load _, r⟩   => ∃ e, r = .ok (some e)
  | ⟨.save _ _, r⟩ => ∀ f, r = .error f → Engine.isConflict f = true
  | ⟨.draw, u⟩     => ∃ x, u = .real x
  | _              => True

/-- Is the present, where it is asked for, one of universal time? -/
def Universal : Turn → Prop
  | ⟨.moment _, a⟩ => a.1.offset = some 0
  | _              => True

end Turn

variable {α : Type} {g : Engine} {id : Value} {fn : Mutation α} {operation : String}
  {failOnError : Bool} {deadline : Binary64} {limit attempt : Nat} {es : List Turn}
  {rest : Client (Execution × α)}

namespace Engine

/-- How a mutation ends as it should: with a result, with the failure of what it was to
    do, or by giving up. -/
inductive Contained (id : Value) (fn : Mutation α) (es : List Turn) :
    Client (Execution × α) → Prop where
  | done (r : Execution × α) : Contained id fn es (.done r)
  | undecided {base : Execution} {m : Moment} {f : Failure} :
      ⟨.load id, .ok (some base)⟩ ∈ es → .moment (fn base) m ∈ es →
      (fn base).runAt m.time m.before = (.error f, m.after) → Contained id fn es (.fail f)
  | gaveUp {err : WorkflowError} : err.kind = .execution →
      Contained id fn es (.fail (.workflow err))

theorem Contained.append {es' : List Turn} (h : Contained id fn es' rest) :
    Contained id fn (es ++ es') rest := by
  cases h with
  | done r => exact .done r
  | undecided hload hmoment hf =>
      exact .undecided (List.mem_append_right _ hload) (List.mem_append_right _ hmoment) hf
  | gaveUp hkind => exact .gaveUp hkind

/-- How it ends when there is no delay any more: at its conflict with this number. -/
def OutOfDelays (g : Engine) {β : Type} (es : List Turn) (rest : Client β) : Prop :=
  rest = .fail (.overflow "Numerical result out of range") ∧
    es.countP Turn.isConflict = 1025 ∧ 1025 < g.settings.engine.maxConflictRetries

/-- Among other writers an attempt fails only when it cannot be decided on. -/
theorem Tries.undecided_of_contested {f : Failure}
    (h : Tries id fn operation failOnError es (.fail f)) (hc : ∀ t ∈ es, t.Contested) :
    ∃ base m, es = considered id fn base m ∧
      (fn base).runAt m.time m.before = (.error f, m.after) := by
  cases h with
  | @unread r _ hr =>
      obtain ⟨e, he⟩ : ∃ e, r = .ok (some e) := hc _ List.mem_cons_self
      exact absurd he (hr e)
  | @undecided base m _ hf => exact ⟨base, m, rfl, hf⟩
  | @broken base p m a f marks _ _ hf _ =>
      have hsave : Turn.save p base.version (.error f) ∈
          tried id fn base m p (.error f) ++ marks := by simp [tried]
      have hconflict : ∀ f', Except.error f = .error f' → isConflict f' = true := hc _ hsave
      exact absurd (hf.symm.trans (hconflict f rfl)) Bool.false_ne_true

theorem Tries.no_conflict_of_settled {e : Execution} {a : α}
    (h : Tries id fn operation failOnError es (.done (.settled e a))) :
    es.countP Turn.isConflict = 0 := by
  cases h with
  | committed _ => rfl
  | unchanged _ => rfl

/-- Whatever is drawn, there is a delay up to the last growth that is a double, and none
    after it. -/
theorem delay_ok_iff {settings : EngineSettings} (h1 : 1 ≤ attempt) (h : attempt ≤ 1025)
    (x : Binary64) : (∃ d, delay settings attempt (.real x) = .ok d) ↔ attempt ≤ 1024 :=
  backoffDelay_ok_iff h1 h _ _ x

theorem no_delay_iff {settings : EngineSettings} (h1 : 1 ≤ attempt) (h : attempt ≤ 1025)
    (x : Binary64) :
    (∃ err, delay settings attempt (.real x) = .error err) ↔ attempt = 1025 := by
  have hiff : (∃ d, delay settings attempt (.real x) = .ok d) ↔ attempt ≤ 1024 :=
    delay_ok_iff h1 h x
  cases hdelay : delay settings attempt (.real x) with
  | ok d =>
      have := hiff.mp ⟨d, hdelay⟩
      exact iff_of_false nofun (by omega)
  | error err =>
      have hlast : ¬attempt ≤ 1024 := by
        intro hle
        obtain ⟨d, hd⟩ := hiff.mpr hle
        exact nomatch hd.symm.trans hdelay
      exact iff_of_true ⟨err, rfl⟩ (by omega)

/-- The loop ends as it should, or it fails at the first conflict after which there is no
    delay. -/
theorem attempts_contained
    (h : (g.attempts id fn operation failOnError deadline limit attempt).Talks es rest)
    (hend : rest.hasEnded = true) (hc : ∀ t ∈ es, t.Contested) (h1 : 1 ≤ attempt)
    (hle : attempt ≤ 1025) :
    Contained id fn es rest ∧ attempt + es.countP Turn.isConflict ≤ 1026 ∨
      rest = .fail (.overflow "Numerical result out of range") ∧
        attempt + es.countP Turn.isConflict = 1026 ∧ 1025 < limit := by
  generalize hleft : 1026 - attempt = left
  induction left generalizing attempt es with
  | zero => omega
  | succ left ih =>
      rcases talks_round h hend with ⟨e, a, htries, rfl⟩ | ⟨f, htries, rfl⟩ | hgives |
        ⟨hlt, base, f, clock, u, es₁, es₂, rfl, htries, _, hwait⟩
      · rw [htries.no_conflict_of_settled]
        exact .inl ⟨.done _, by omega⟩
      · obtain ⟨base, m, rfl, hf⟩ := htries.undecided_of_contested hc
        have hnone : (considered id fn base m).countP Turn.isConflict = 0 := rfl
        rw [hnone]
        exact .inl ⟨.undecided (by simp [considered]) (by simp [considered]) hf, by omega⟩
      · obtain ⟨hconflict, _, base, f, rfl⟩ := hgives.conflict
        rw [hconflict]
        exact .inl ⟨.gaveUp rfl, by omega⟩
      -- the attempt is lost, and the number of the attempt tells whether there is a delay
      obtain ⟨_, _, hconflict, _⟩ := htries.conflict
      obtain ⟨x, rfl⟩ : ∃ x, u = .real x := hc ⟨.draw, u⟩ (by simp)
      rcases hwait with ⟨⟨err, herr⟩, rfl, rfl⟩ | ⟨d, es₃, hd, rfl, hagain⟩
      · have hlast : attempt = 1025 := (no_delay_iff h1 hle x).mp ⟨err, herr⟩
        refine .inr ⟨rfl, ?_, by omega⟩
        rw [List.countP_append, hconflict]
        show attempt + (1 + 0) = 1026
        omega
      · have hmore : attempt ≤ 1024 := (delay_ok_iff h1 hle x).mp ⟨d, hd⟩
        have hrest : ∀ t ∈ es₃, t.Contested := fun t ht => hc t (by simp [ht])
        have hcount : (es₁ ++ ⟨.elapsed, clock⟩ :: ⟨.draw, .real x⟩ :: ⟨.sleep d, ()⟩ ::
            es₃).countP Turn.isConflict = 1 + es₃.countP Turn.isConflict := by
          rw [List.countP_append, hconflict]
          rfl
        rw [hcount, ← Nat.add_assoc]
        rcases ih hagain hrest (by omega) (by omega) (by omega) with
          ⟨hcontained, hbound⟩ | ⟨hfail, hnumber, hlimit⟩
        · have hes : es₁ ++ ⟨.elapsed, clock⟩ :: ⟨.draw, .real x⟩ :: ⟨.sleep d, ()⟩ :: es₃ =
              (es₁ ++ [⟨.elapsed, clock⟩, ⟨.draw, .real x⟩, ⟨.sleep d, ()⟩]) ++ es₃ := by simp
          rw [hes]
          exact .inl ⟨hcontained.append, hbound⟩
        · exact .inr ⟨hfail, hnumber, hlimit⟩

/-- A mutation among other writers ends as it should, within 1025 conflicts, unless it is
    out of delays. -/
theorem mutate_contained (h : (g.mutate id fn operation failOnError).Talks es rest)
    (hend : rest.hasEnded = true) (hc : ∀ t ∈ es, t.Contested) :
    Contained id fn es rest ∧ es.countP Turn.isConflict ≤ 1025 ∨ OutOfDelays g es rest := by
  rw [mutate_eq] at h
  obtain ⟨start, es', rfl, hloop⟩ := talks_ask h hend
  rw [List.forall_mem_cons] at hc
  have hcount : (⟨.elapsed, start⟩ :: es').countP Turn.isConflict =
      es'.countP Turn.isConflict := rfl
  rw [hcount]
  rcases attempts_contained hloop hend hc.2 (Nat.le_refl 1) (by omega) with
    ⟨hcontained, hbound⟩ | ⟨hfail, hnumber, hlimit⟩
  · have hall : Contained id fn ([⟨.elapsed, start⟩] ++ es') rest := hcontained.append
    exact .inl ⟨hall, by omega⟩
  · refine .inr ⟨hfail, ?_, by omega⟩
    rw [hcount]
    omega

/-! ## Out of delays -/

section Exhaustion

variable {base p : Execution} {m : Moment} {a : α} {f : Failure} {clock start x : Binary64}

theorem talks_read (id : Value) (base : Execution) :
    (refresh id).Talks [⟨.load id, .ok (some base)⟩] (.done base) :=
  .ask (q := .load id) (.ok (some base)) (.start _)

theorem talks_lost_attempt (hd : fn.Decides base m (some p) a) (hf : isConflict f = true) :
    (attemptOnce id fn operation failOnError).Talks (tried id fn base m p (.error f))
      (.done (.conflicted base f)) := by
  have hdraft : (draft (fn base)).Talks [.moment (fn base) m] (.done (some p, a)) := by
    refine .ask (q := .moment fun now s => ((fn base).runAt now s).2) (m.time, m.before) ?_
    rw [hd]
    exact .start _
  refine (talks_read id base).bind (hdraft.bind (.ask (q := .save p base.version) (.error f) ?_))
  show (if isConflict f then _ else _ : Client (Attempt α)).Talks [] _
  rw [hf, if_pos rfl]
  exact .start _

/-- A mutation may fail on the first snapshot that it reads. -/
theorem talks_undecided (start : Binary64)
    (hf : (fn base).runAt m.time m.before = (.error f, m.after)) :
    (g.mutate id fn operation failOnError).Talks (⟨.elapsed, start⟩ :: considered id fn base m)
      (.fail f) := by
  have hdraft : (draft (fn base)).Talks [.moment (fn base) m] (.fail f) := by
    refine .ask (q := .moment fun now s => ((fn base).runAt now s).2) (m.time, m.before) ?_
    rw [hf]
    exact .start _
  have hattempt : (attemptOnce id fn operation failOnError).Talks (considered id fn base m)
      (.fail f) := (talks_read id base).bind hdraft.bind_fail
  rw [mutate_eq]
  refine .ask (q := .elapsed) start ?_
  show (g.attempts id fn operation failOnError (start.add g.settings.engine.conflictTimeout)
    g.settings.engine.maxConflictRetries.toNat 1).Talks _ _
  rw [attempts_eq]
  exact hattempt.bind_fail

/-- A conflict before the last attempt and the deadline leads to a wait. -/
theorem talks_lost {es : List Turn} (hlt : attempt < limit) (hd : fn.Decides base m (some p) a)
    (hf : isConflict f = true) (hpast : isPast clock deadline = false)
    (h : (waitForRetry g.settings.engine attempt >>= fun _ =>
      g.attempts id fn operation failOnError deadline limit (attempt + 1)).Talks es rest) :
    (g.attempts id fn operation failOnError deadline limit attempt).Talks
      (tried id fn base m p (.error f) ++ (⟨.elapsed, clock⟩ :: es)) rest := by
  rw [attempts_eq]
  refine (talks_lost_attempt hd hf).bind ?_
  dsimp only
  rw [if_neg (Nat.not_le.mpr hlt)]
  refine .ask (q := .elapsed) clock ?_
  show (if isPast clock deadline then
      (.fail (conflictFailure base operation attempt f) : Client (Execution × α))
    else waitForRetry g.settings.engine attempt >>= fun _ =>
      g.attempts id fn operation failOnError deadline limit (attempt + 1)).Talks es rest
  rw [hpast, if_neg Bool.false_ne_true]
  exact h

theorem talks_draw (u : Number) : draw.Talks [⟨.draw, u⟩] (.done u) :=
  .ask (q := .draw) u (.start _)

theorem talks_wait {settings : EngineSettings} {u d : Number}
    (h : delay settings attempt u = .ok d) :
    (waitForRetry settings attempt).Talks [⟨.draw, u⟩, ⟨.sleep d, ()⟩] (.done ()) := by
  unfold delay at h
  unfold waitForRetry
  refine (talks_draw u).bind ?_
  rw [h]
  exact .ask (q := .sleep d) () (.start _)

theorem talks_no_wait {settings : EngineSettings} {u : Number} {err : NumericError}
    (h : delay settings attempt u = .error err) :
    (waitForRetry settings attempt).Talks [⟨.draw, u⟩]
      (.fail (.overflow "Numerical result out of range")) := by
  unfold delay at h
  unfold waitForRetry
  rw [← List.append_nil [(⟨.draw, u⟩ : Turn)]]
  refine (talks_draw u).bind ?_
  rw [h]
  exact .start _

theorem contested_of_lost (hf : isConflict f = true) (hes : ∀ t ∈ es, t.Contested) :
    ∀ t ∈ tried id fn base m p (.error f) ++ (⟨.elapsed, clock⟩ :: ⟨.draw, .real x⟩ :: es),
      t.Contested := by
  simp only [tried, considered, List.mem_append, List.mem_cons, List.not_mem_nil, or_false]
  rintro t (((rfl | rfl) | rfl) | rfl | rfl | ht)
  · exact ⟨base, rfl⟩
  · trivial
  · exact fun f' hf' => Except.error.inj hf' ▸ hf
  · trivial
  · exact ⟨x, rfl⟩
  · exact hes t ht

/-- More attempts than there are delays can be met by so many other writers that the loop
    fails. -/
theorem attempts_out_of_delays (hlimit : 1025 < limit) (hd : fn.Decides base m (some p) a)
    (hf : isConflict f = true) (hpast : isPast clock deadline = false) (h1 : 1 ≤ attempt)
    (hle : attempt ≤ 1025) :
    ∃ es, (g.attempts id fn operation failOnError deadline limit attempt).Talks es
        (.fail (.overflow "Numerical result out of range")) ∧ (∀ t ∈ es, t.Contested) := by
  generalize hleft : 1025 - attempt = left
  induction left generalizing attempt with
  | zero =>
      obtain ⟨err, herr⟩ : ∃ err, delay g.settings.engine attempt (.real .zero) = .error err :=
        (no_delay_iff h1 hle .zero).mpr (by omega)
      exact ⟨_, talks_lost (by omega) hd hf hpast (talks_no_wait herr).bind_fail,
        contested_of_lost hf fun _ ht => absurd ht List.not_mem_nil⟩
  | succ left ih =>
      obtain ⟨d, hdelay⟩ : ∃ d, delay g.settings.engine attempt (.real .zero) = .ok d :=
        (delay_ok_iff h1 hle .zero).mpr (by omega)
      have hnext : 1025 - (attempt + 1) = left := by omega
      obtain ⟨es, hagain, hc⟩ := ih (Nat.le_add_left 1 attempt) (by omega) hnext
      have hes : ∀ t ∈ (⟨.sleep d, ()⟩ : Turn) :: es, t.Contested :=
        List.forall_mem_cons.mpr ⟨trivial, hc⟩
      exact ⟨_, talks_lost (by omega) hd hf hpast ((talks_wait hdelay).bind hagain),
        contested_of_lost hf hes⟩

/-- So does a mutation, for as long as the deadline is not reached. -/
theorem mutate_out_of_delays (hlimit : 1025 < g.settings.engine.maxConflictRetries)
    (hd : fn.Decides base m (some p) a) (hf : isConflict f = true)
    (hpast : isPast clock (start.add g.settings.engine.conflictTimeout) = false) :
    ∃ es, (g.mutate id fn operation failOnError).Talks es
        (.fail (.overflow "Numerical result out of range")) ∧ (∀ t ∈ es, t.Contested) := by
  obtain ⟨es, hloop, hc⟩ : ∃ es, (g.attempts id fn operation failOnError
      (start.add g.settings.engine.conflictTimeout)
      g.settings.engine.maxConflictRetries.toNat 1).Talks es
        (.fail (.overflow "Numerical result out of range")) ∧ (∀ t ∈ es, t.Contested) :=
    attempts_out_of_delays (by omega) hd hf hpast (Nat.le_refl 1) (by omega)
  rw [mutate_eq]
  exact ⟨_, .ask (q := .elapsed) start hloop, List.forall_mem_cons.mpr ⟨trivial, hc⟩⟩

end Exhaustion

end Engine

/-! ## Restorations -/

/-- Is a checkpoint with the id, taken in universal time, found in an execution whose state
    can be captured itself? -/
structure Checkpoint.Kept (id : String) (e : Execution) : Prop where
  found      : ∀ (now : Timestamp) (s : Serials), ∃ c s',
    (Checkpoint.find e id).runAt now s = (.ok c, s') ∧ c.createdAt.offset = some 0
  fit        : ∃ entries : Mapping, e.context = .dict entries ∧ entries.Fit
  capturable : e.Capturable

namespace Engine

section Restoration

variable {cid : String} {e : Execution} {now : Timestamp} {s : Serials}

/-- What an unforced restoration comes to, when its checkpoint is found, rests on what
    speaks against it. -/
theorem restoreMutation_found {c : Checkpoint} {s' : Serials}
    (hfind : (Checkpoint.find e cid).runAt now s = (.ok c, s')) :
    (g.restoreMutation cid false e).runAt now s =
      (Draft.ofExcept (Checkpoint.restorationIssues g.settings.recovery now c) >>= fun issues => do
        if !issues.isEmpty then
          let listed := ", ".intercalate issues
          Draft.fail (.about .recovery s!"Checkpoint validation failed: {listed}" e
            (textDetail "checkpoint_id" cid :: textsDetail "issues" issues))
        let backup ← Checkpoint.capture e (.str s!"Before restore from {cid}")
        let context ← Draft.ofExcept (Checkpoint.store e backup
          g.settings.recovery.maxCheckpoints (c.capturedContext.getD []))
        pure (some (reinstate e c context), backup.id)).runAt now s' := by
  unfold restoreMutation
  rw [Draft.runAt_bind, hfind]
  rfl

/-- A restoration that is not forced fails when there is no span to compare the age with. -/
theorem restoreMutation_escapes {err : NumericError} (he : Checkpoint.Kept cid e)
    (hspan : spanMicros 86400 (.real g.settings.recovery.checkpointMaxAgeDays) = .error err) :
    ∃ s', (g.restoreMutation cid false e).runAt now s = (.error (spanFailure err), s') := by
  obtain ⟨c, s', hfind, _⟩ := he.found now s
  have hissues : Checkpoint.restorationIssues g.settings.recovery now c =
      .error (spanFailure err) := by
    unfold Checkpoint.restorationIssues
    rw [hspan]
    rfl
  refine ⟨s', ?_⟩
  rw [restoreMutation_found hfind, hissues]
  rfl

/-- With a span, it fails with a recovery error, or proposes the restored state. -/
theorem restoreMutation_contained {limit : Int} (he : Checkpoint.Kept cid e)
    (hnow : now.offset = some 0)
    (hspan : spanMicros 86400 (.real g.settings.recovery.checkpointMaxAgeDays) = .ok limit) :
    (∃ o s', (g.restoreMutation cid false e).runAt now s = (.ok o, s')) ∨
      ∃ err s', (g.restoreMutation cid false e).runAt now s = (.error (.workflow err), s') ∧
        err.kind = .recovery := by
  obtain ⟨c, s', hfind, htime⟩ := he.found now s
  obtain ⟨issues, hissues⟩ : ∃ issues,
      Checkpoint.restorationIssues g.settings.recovery now c = .ok issues := by
    unfold Checkpoint.restorationIssues
    rw [hspan, Checkpoint.elapsedMicros_of_universal hnow htime]
    exact ⟨_, rfl⟩
  obtain ⟨entries, hcontext, hfit⟩ := he.fit
  obtain ⟨step, hstep⟩ := he.capturable.atText
  obtain ⟨ds, hstored⟩ := he.capturable.stored
  obtain ⟨backup, d, hcapture, _, hdocument⟩ := Checkpoint.capture_fit hcontext hfit hstep
    he.capturable.shallow s!"Before restore from {cid}" now s'
  have hstore : ∃ context, Checkpoint.store e backup g.settings.recovery.maxCheckpoints
      (c.capturedContext.getD []) = .ok context :=
    ⟨_, exceptBind_ok.mpr ⟨ds, hstored, exceptBind_ok.mpr ⟨d, hdocument, rfl⟩⟩⟩
  obtain ⟨context, hstore⟩ := hstore
  rw [restoreMutation_found hfind, Draft.runAt_ofExcept_bind hissues]
  cases issues with
  | cons issue issues => exact .inr ⟨_, _, rfl, rfl⟩
  | nil =>
      refine .inl ⟨(some (reinstate e c context), backup.id),
        { s' with checkpoints := s'.checkpoints + 1 }, ?_⟩
      refine Draft.runAt_bind_ok.mpr ⟨backup, _, hcapture, ?_⟩
      exact Draft.runAt_ofExcept_bind_ok.mpr ⟨context, hstore, rfl⟩

/-- A restoration at its end is a mutation at its end, whose result it tells or whose failure
    it turns into one of recovery. -/
theorem talks_restore {t : Target} {force : Bool} {rest : Client RecoveryResult}
    (h : (g.restore t cid force).Talks es rest) (hend : rest.hasEnded = true) :
    ∃ rest', (g.mutate t.executionId (g.restoreMutation cid force) "checkpoint restore").Talks
        es rest' ∧ rest'.hasEnded = true ∧
      ((∃ x r, rest' = .done x ∧ rest = .done r) ∨
        ∃ f, rest' = .fail f ∧ rest = .fail (restoreFailure cid f)) := by
  have hrecovered {x : Client (Execution × String)} {es : List Turn}
      (h : ((g.mutate t.executionId (g.restoreMutation cid force) "checkpoint restore").recover
        fun f => .fail (restoreFailure cid f)).Talks es x) (hx : x.hasEnded = true) :
      (∃ a, (g.mutate t.executionId (g.restoreMutation cid force) "checkpoint restore").Talks es
          (.done a) ∧ x = .done a) ∨
        ∃ f, (g.mutate t.executionId (g.restoreMutation cid force) "checkpoint restore").Talks es
          (.fail f) ∧ x = .fail (restoreFailure cid f) := by
    rcases talks_recover h hx with hdone | ⟨f, es₁, es₂, rfl, hfail, hsequel⟩
    · exact .inl hdone
    · obtain ⟨rfl, rfl⟩ := talks_fail hsequel
      rw [List.append_nil]
      exact .inr ⟨f, hfail, rfl⟩
  rcases talks_bind h hend with ⟨f, hfirst, rfl⟩ | ⟨x, es₁, es₂, rfl, hfirst, hsequel⟩
  · rcases hrecovered hfirst rfl with ⟨_, _, hdone⟩ | ⟨f', hfail, hf⟩
    · exact nomatch hdone
    · rw [Client.fail.inj hf]
      exact ⟨_, hfail, rfl, .inr ⟨f', rfl, rfl⟩⟩
  · obtain ⟨rfl, rfl⟩ := talks_done hsequel
    rw [List.append_nil]
    rcases hrecovered hfirst rfl with ⟨a, hdone, _⟩ | ⟨_, _, hfail⟩
    · exact ⟨_, hdone, rfl, .inl ⟨a, _, rfl, rfl⟩⟩
    · exact nomatch hfail

/-- An attempt that came to something decided on what it had read. -/
theorem Tries.decided {r : Attempt α} (h : Tries id fn operation failOnError es (.done r)) :
    ∃ base m o a, ⟨.load id, .ok (some base)⟩ ∈ es ∧ fn.Decides base m o a := by
  cases h with
  | @committed base p e m a hd => exact ⟨base, m, _, a, List.mem_cons_self, hd⟩
  | @unchanged base m a hd => exact ⟨base, m, _, a, List.mem_cons_self, hd⟩
  | @conflicted base p m a f hd _ => exact ⟨base, m, _, a, List.mem_cons_self, hd⟩

/-- A mutation that cannot be decided on ends with the first snapshot that it reads, and
    saves nothing. -/
theorem mutate_undecided (h : (g.mutate id fn operation failOnError).Talks es rest)
    (hend : rest.hasEnded = true) (hc : ∀ t ∈ es, t.Contested)
    (hfn : ∀ base m o a, ⟨.load id, .ok (some base)⟩ ∈ es → ¬fn.Decides base m o a) :
    es.countP Turn.isSave = 0 ∧ ∃ base, ∃ m : Moment, ∃ f, ⟨.load id, .ok (some base)⟩ ∈ es ∧
      (fn base).runAt m.time m.before = (.error f, m.after) ∧ rest = .fail f := by
  rw [mutate_eq] at h
  obtain ⟨start, es', rfl, hloop⟩ := talks_ask h hend
  have hno {es₁ : List Turn} {r : Attempt α}
      (h : Tries id fn operation failOnError es₁ (.done r)) (hsub : ∀ t ∈ es₁, t ∈ es') :
      False := by
    obtain ⟨base, m, o, a, hload, hd⟩ := h.decided
    exact hfn base m o a (List.mem_cons_of_mem _ (hsub _ hload)) hd
  rcases talks_round hloop hend with ⟨_, _, htries, _⟩ | ⟨f, htries, rfl⟩ | hgives |
    ⟨_, _, _, _, _, es₁, es₂, rfl, htries, _⟩
  · exact (hno htries fun _ ht => ht).elim
  · obtain ⟨base, m, rfl, hf⟩ := htries.undecided_of_contested (List.forall_mem_cons.mp hc).2
    exact ⟨rfl, base, m, f, by simp [considered], hf, rfl⟩
  · cases hgives with
    | exhausted htries _ => exact (hno htries fun _ ht => ht).elim
    | late htries _ _ => exact (hno htries fun _ => List.mem_append_left _).elim
  · exact (hno htries fun _ => List.mem_append_left _).elim

variable {t : Target} {rest : Client RecoveryResult}

/-- With a span to compare the age with, an unforced restoration among other writers ends
    with a result or a recovery error, unless it is out of delays. -/
theorem restore_contained {limit : Int}
    (hspan : spanMicros 86400 (.real g.settings.recovery.checkpointMaxAgeDays) = .ok limit)
    (h : (g.restore t cid false).Talks es rest) (hend : rest.hasEnded = true)
    (hc : ∀ t ∈ es, t.Contested) (huniversal : ∀ t ∈ es, t.Universal)
    (hstored : ∀ e, ⟨.load t.executionId, .ok (some e)⟩ ∈ es → Checkpoint.Kept cid e) :
    (∃ r, rest = .done r) ∨ (∃ err, rest = .fail (.workflow err) ∧ err.kind = .recovery) ∨
      OutOfDelays g es rest := by
  obtain ⟨rest', htalks, hend', ⟨x, r, rfl, rfl⟩ | ⟨f, rfl, rfl⟩⟩ := talks_restore h hend
  · exact .inl ⟨r, rfl⟩
  rcases mutate_contained htalks hend' hc with ⟨hcontained, _⟩ | ⟨hf, hcount, hlimit⟩
  · refine .inr (.inl ?_)
    cases hcontained with
    | @undecided base m _ hload hmoment hf =>
        have hnow : m.time.offset = some 0 := huniversal _ hmoment
        rcases restoreMutation_contained (s := m.before) (hstored base hload) hnow hspan with
          ⟨_, _, hok⟩ | ⟨err, _, herr, hkind⟩
        · exact nomatch hok.symm.trans hf
        · obtain rfl : Failure.workflow err = f :=
            Except.error.inj (Prod.mk.inj (herr.symm.trans hf)).1
          have hself : restoreFailure cid (.workflow err) = .workflow err := by
            show (if err.kind.isExecution then _ else _) = _
            rw [hkind, if_neg (by decide)]
          exact ⟨err, congrArg Client.fail hself, hkind⟩
    | @gaveUp err hkind =>
        have hexecution : err.kind.isExecution = true := by
          rw [hkind]
          rfl
        refine ⟨_, congrArg Client.fail (if_pos hexecution), rfl⟩
  · rw [Client.fail.inj hf]
    exact .inr (.inr ⟨rfl, hcount, hlimit⟩)

/-- Without such a span it fails with what the arithmetic throws, and saves nothing. -/
theorem restore_escapes {err : NumericError}
    (hspan : spanMicros 86400 (.real g.settings.recovery.checkpointMaxAgeDays) = .error err)
    (h : (g.restore t cid false).Talks es rest) (hend : rest.hasEnded = true)
    (hc : ∀ t ∈ es, t.Contested)
    (hstored : ∀ e, ⟨.load t.executionId, .ok (some e)⟩ ∈ es → Checkpoint.Kept cid e) :
    rest = .fail (spanFailure err) ∧ es.countP Turn.isSave = 0 := by
  obtain ⟨rest', htalks, hend', hrest⟩ := talks_restore h hend
  have hescapes (base : Execution) (m : Moment)
      (hload : ⟨.load t.executionId, .ok (some base)⟩ ∈ es) :
      ∃ s', (g.restoreMutation cid false base).runAt m.time m.before =
        (.error (spanFailure err), s') := restoreMutation_escapes (hstored base hload) hspan
  have hfn : ∀ base m o a, ⟨.load t.executionId, .ok (some base)⟩ ∈ es →
      ¬(g.restoreMutation cid false).Decides base m o a := by
    intro base m o a hload hd
    obtain ⟨_, hf⟩ := hescapes base m hload
    exact nomatch hd.symm.trans hf
  obtain ⟨hquiet, base, m, f, hload, hf, rfl⟩ := mutate_undecided htalks hend' hc hfn
  obtain ⟨_, hescape⟩ := hescapes base m hload
  obtain rfl : spanFailure err = f :=
    Except.error.inj (Prod.mk.inj (hescape.symm.trans hf)).1
  refine ⟨?_, hquiet⟩
  rcases hrest with ⟨_, _, hdone, _⟩ | ⟨f', hf', rfl⟩
  · exact nomatch hdone
  · rw [← Client.fail.inj hf']
    cases err <;> rfl

/-- There is such a talk on every snapshot that keeps the checkpoint. -/
theorem talks_restore_escapes {err : NumericError} (he : Checkpoint.Kept cid e)
    (hspan : spanMicros 86400 (.real g.settings.recovery.checkpointMaxAgeDays) = .error err)
    (start : Binary64) (now : Timestamp) (s : Serials) :
    ∃ s', (g.restore t cid false).Talks
      (⟨.elapsed, start⟩ :: considered t.executionId (g.restoreMutation cid false) e ⟨now, s, s'⟩)
      (.fail (spanFailure err)) := by
  obtain ⟨s', hf⟩ : ∃ s', (g.restoreMutation cid false e).runAt now s =
      (.error (spanFailure err), s') := restoreMutation_escapes he hspan
  have hmutate : (g.mutate t.executionId (g.restoreMutation cid false) "checkpoint restore").Talks
      (⟨.elapsed, start⟩ :: considered t.executionId (g.restoreMutation cid false) e ⟨now, s, s'⟩)
      (.fail (spanFailure err)) := talks_undecided start hf
  have hself : restoreFailure cid (spanFailure err) = spanFailure err := by cases err <;> rfl
  have hrecovered : ((g.mutate t.executionId (g.restoreMutation cid false)
      "checkpoint restore").recover fun f => .fail (restoreFailure cid f)).Talks
        (⟨.elapsed, start⟩ ::
          considered t.executionId (g.restoreMutation cid false) e ⟨now, s, s'⟩)
        (.fail (spanFailure err)) := hmutate.recover_fail (congrArg Client.fail hself)
  exact ⟨s', hrecovered.bind_fail⟩

end Restoration

end Engine

/-! ## The limits -/

/-- What settings that are accepted can break.  A mutation among other writers ends with a
    result, with the failure of what it was to do, or by giving up, within 1025 conflicts;
    only when more attempts are allowed does it fail at the last of these for lack of a
    delay, and then it does so, whatever it is to do, as long as the deadline is not reached.
    An unforced restoration ends with a result or a recovery error when its span is below a
    thousand million days, and else with what the arithmetic throws, nothing saved.  Signs of
    trouble are found exactly when the span for them is below as many days. -/
theorem settings_arithmetic_limits {settings : Mapping}
    (hread : Settings.read settings = .ok g.settings) :
    (∀ {β : Type} (id : Value) (fn : Mutation β) (operation : String) (failOnError : Bool)
      (es : List Turn) (rest : Client (Execution × β)),
      (g.mutate id fn operation failOnError).Talks es rest → rest.hasEnded = true →
      (∀ t ∈ es, t.Contested) →
        Engine.Contained id fn es rest ∧ es.countP Turn.isConflict ≤ 1025 ∨
          Engine.OutOfDelays g es rest) ∧
    (1025 < g.settings.engine.maxConflictRetries →
      ∀ {β : Type} (id : Value) (fn : Mutation β) (operation : String) (failOnError : Bool)
        (base p : Execution) (m : Moment) (b : β) (f : Failure) (start clock : Binary64),
        fn.Decides base m (some p) b → Engine.isConflict f = true →
        Engine.isPast clock (start.add g.settings.engine.conflictTimeout) = false →
        ∃ es, (g.mutate id fn operation failOnError).Talks es
            (.fail (.overflow "Numerical result out of range")) ∧ (∀ t ∈ es, t.Contested)) ∧
    (∀ (t : Target) (cid : String) (es : List Turn) (rest : Client Engine.RecoveryResult),
      (g.restore t cid false).Talks es rest → rest.hasEnded = true →
      (∀ t ∈ es, t.Contested) → (∀ t ∈ es, t.Universal) →
      (∀ e, ⟨.load t.executionId, .ok (some e)⟩ ∈ es → Checkpoint.Kept cid e) →
        if g.settings.recovery.checkpointMaxAgeDays.compareInt? 1000000000 = some .lt then
          (∃ r, rest = .done r) ∨ (∃ err, rest = .fail (.workflow err) ∧ err.kind = .recovery) ∨
            Engine.OutOfDelays g es rest
        else ∃ err, rest = .fail (spanFailure err) ∧ es.countP Turn.isSave = 0) ∧
    (∀ (now : Timestamp) (e : Execution), now.isAware = true → e.WellTyped →
      ((∃ signs, g.potentialIssues now e = .ok signs) ↔
        g.settings.recovery.staleAfterHours.compareInt? 24000000000 = some .lt)) := by
  have hlasting := Settings.lasting_of_read hread
  refine ⟨?_, ?_, ?_, ?_⟩
  · intro β id fn operation failOnError es rest h hend hc
    exact Engine.mutate_contained h hend hc
  · intro hlimit β id fn operation failOnError base p m b f start clock hd hf hpast
    exact Engine.mutate_out_of_delays hlimit hd hf hpast
  · intro t cid es rest h hend hc huniversal hstored
    have hspan := spanMicros_days_ok_iff hlasting.age
    split
    · rename_i hbelow
      obtain ⟨limit, hlimit⟩ := hspan.mpr hbelow
      exact Engine.restore_contained hlimit h hend hc huniversal hstored
    · rename_i hbeyond
      cases herr : spanMicros 86400 (.real g.settings.recovery.checkpointMaxAgeDays) with
      | ok limit => exact absurd (hspan.mp ⟨limit, herr⟩) hbeyond
      | error err => exact ⟨err, Engine.restore_escapes herr h hend hc hstored⟩
  · intro now e hnow he
    rw [Engine.potentialIssues_ok_iff he hnow, spanMicros_hours_ok_iff hlasting.idle]

/-- Settings with every span and every number far beyond the usual. -/
def spaciousSettings : Mapping :=
  [ (.str "engine", .record [("max_conflict_retries", .int 2000)]),
    (.str "recovery", .record [("checkpoint_max_age_days", .int 1000000000000),
      ("stale_after_hours", .int 1000000000000)]) ]

/-- An engine with these settings. -/
def spaciousEngine : Engine :=
  let trillion := Binary64.ofRatio 1000000000000 1
  { settings :=
    { engine   := { maxConflictRetries := 2000 }
      recovery := { checkpointMaxAgeDays := trillion, staleAfterHours := trillion } } }

theorem spaciousSettings_read : Settings.read spaciousSettings = .ok spaciousEngine.settings := by
  have h : (match Settings.read spaciousSettings with
      | .ok s  => decide (s = spaciousEngine.settings)
      | .bad _ => false) = true := by decide +kernel
  split at h
  · rename_i s hs
    rw [hs, of_decide_eq_true h]
  · exact nomatch h

/-- The checkpoint of a draft. -/
def keptDraft : Checkpoint :=
  ⟨"cp-1", "Draft", "draft", .active, some [], [], .defaultNow, Checkpoint.creator⟩

/-- An execution that keeps it. -/
def keptReview : Execution :=
  { untouchedReview with
    context := .record [("_checkpoints", .list [.record (keptDraft.columns (.dict []))])] }

theorem keptReview_kept : Checkpoint.Kept keptDraft.id keptReview := by
  have hnone {P : Value → Prop} : ∀ d ∈ ([] : List Value), P d :=
    fun _ h => absurd h List.not_mem_nil
  have hdocument {P : Value → Prop} (h : Inherited P) :
      P (.record (keptDraft.columns (.dict []))) :=
    Checkpoint.columns_inherit h (h.record (by simp) (by simp) : P (.record []))
  have hlasts : keptDraft.Lasts := ⟨.universal rfl, fun _ h => absurd h List.not_mem_nil⟩
  have hreads : Checkpoint.Reads (.record (keptDraft.columns (.dict []))) keptDraft :=
    Checkpoint.reads_documented hlasts (m := []) rfl
  have hclosed := (hdocument inherited_plain).closed
  have hstored : Checkpoint.stored keptReview = .ok [.record (keptDraft.columns (.dict []))] :=
    Checkpoint.stored_of_under rfl (.inr rfl) (List.forall_mem_cons.mpr ⟨hclosed, hnone⟩)
  refine ⟨fun now s => ?_, ⟨_, rfl, ?_⟩, ⟨"draft", rfl⟩, ⟨_, hstored⟩, by decide +kernel⟩
  · exact ⟨keptDraft, s, Checkpoint.find_singleton hstored hclosed hreads now s, rfl⟩
  · have hlist : (Value.list [.record (keptDraft.columns (.dict []))]).Encodes :=
      inherited_encodes.list (List.forall_mem_cons.mpr ⟨hdocument inherited_encodes, hnone⟩)
    exact List.forall_mem_cons.mpr ⟨⟨rfl, hlist⟩, fun _ h => absurd h List.not_mem_nil⟩

/-- The settings are accepted, and all three kinds of arithmetic are beyond their limits. -/
theorem spaciousEngine_escapes :
    Settings.read spaciousSettings = .ok spaciousEngine.settings ∧
    (∃ es, (spaciousEngine.mutate (.str "exec-1") (noteMutation 0) "note" true).Talks es
        (.fail (.overflow "Numerical result out of range")) ∧ ∀ t ∈ es, t.Contested) ∧
    (∃ es rest, (spaciousEngine.restore (.id (.str "exec-1")) "cp-1" false).Talks es rest ∧
      ∃ err, rest = .fail (spanFailure err) ∧ es.countP Turn.isSave = 0) ∧
    ¬∃ signs, spaciousEngine.potentialIssues .defaultNow keptReview = .ok signs := by
  obtain ⟨_, hdelays, hrestore, hsigns⟩ := settings_arithmetic_limits spaciousSettings_read
  refine ⟨spaciousSettings_read, ?_, ?_, ?_⟩
  · obtain ⟨p, hd⟩ : ∃ p, (noteMutation 0).Decides untouchedReview ⟨.defaultNow, {}, {}⟩
        (some p) () := ⟨_, rfl⟩
    exact hdelays (by decide) (.str "exec-1") (noteMutation 0) "note" true untouchedReview p _ ()
      (.plain .concurrentModification "") .zero .zero hd rfl (by decide +kernel)
  · have hbeyond : ¬spaciousEngine.settings.recovery.checkpointMaxAgeDays.compareInt? 1000000000 =
        some .lt := by decide +kernel
    obtain ⟨err, herr⟩ : ∃ err, spanMicros 86400
        (.real spaciousEngine.settings.recovery.checkpointMaxAgeDays) = .error err := by
      have hlasting := Settings.lasting_of_read spaciousSettings_read
      cases h : spanMicros 86400 (.real spaciousEngine.settings.recovery.checkpointMaxAgeDays) with
      | error err => exact ⟨err, rfl⟩
      | ok limit => exact absurd ((spanMicros_days_ok_iff hlasting.age).mp ⟨limit, h⟩) hbeyond
    obtain ⟨s, htalks⟩ := Engine.talks_restore_escapes (t := .id (.str "exec-1")) keptReview_kept
      herr .zero .defaultNow {}
    simp only [if_neg hbeyond] at hrestore
    refine ⟨_, _, htalks, hrestore (.id (.str "exec-1")) keptDraft.id _ _ htalks rfl ?_ ?_ ?_⟩
    · simp [Engine.considered, Turn.moment, Turn.Contested]
    · simp [Engine.considered, Turn.moment, Turn.Universal, Timestamp.defaultNow]
    · intro e he
      have hread : (⟨.load (.str "exec-1"), .ok (some e)⟩ : Turn) =
          ⟨.load (.str "exec-1"), .ok (some keptReview)⟩ := by
        simpa [Engine.considered, Turn.moment] using he
      cases hread
      exact keptReview_kept
  · rw [hsigns .defaultNow keptReview rfl ⟨rfl, ⟨_, rfl⟩, ⟨_, rfl⟩, ⟨_, rfl⟩, rfl⟩]
    decide +kernel

/-- Under these settings the checkpoint is not restored, and the failure is neither one of
    recovery nor of the workflow at all. -/
theorem keptReview_not_restored :
    let r := (spaciousEngine.restore (.id (.str "exec-1")) keptDraft.id false).run
      { store := .memory ⟨[keptReview]⟩ }
    Settings.read spaciousSettings = .ok spaciousEngine.settings ∧
      Checkpoint.Kept keptDraft.id keptReview ∧
      (r.1.map fun _ => ()).mapError (fun f => (f.className, f.text)) =
        .error ("OverflowError", "days out of range") :=
  ⟨spaciousSettings_read, keptReview_kept, by decide +kernel⟩

end Workflow
