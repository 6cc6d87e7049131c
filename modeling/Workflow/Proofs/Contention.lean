import Workflow.Proofs.Mutation
import Workflow.Proofs.Talk

/-! # Contention — how often a mutation is attempted, and how it gives up

    A mutation that loses against another writer begins anew, and nobody promises that it
    will not lose again.  What ends it is its own limit: it looks at the number of the
    attempt, then at the monotonic clock.  So it ends for whatever answers, and when it
    gives up it has been answered with conflicts only, and has saved nothing.

    The heart is `talks_attempts`: a talk of the loop is a number of rounds that were
    lost, and one attempt after which the loop does not go on. -/

namespace Workflow

open Client

variable {α : Type} {g : Engine} {id : Value} {fn : Mutation α} {operation : String}
  {failOnError : Bool} {deadline : Binary64} {limit attempt n : Nat}
  {es lost last : List Turn} {rest : Client (Execution × α)}

namespace Engine

/-! ## The loop -/

/-- The loop of a mutation, from the attempt with the given number on, where `limit`
    is the number of the last one. -/
def attempts (g : Engine) (id : Value) (fn : Mutation α) (operation : String)
    (failOnError : Bool) (deadline : Binary64) (limit attempt : Nat) :
    Client (Execution × α) :=
  attemptCommit g id fn operation failOnError deadline attempt (limit - attempt)

theorem mutate_eq (g : Engine) (id : Value) (fn : Mutation α) (operation : String)
    (failOnError : Bool) : g.mutate id fn operation failOnError = (do
      let start ← Client.elapsed
      g.attempts id fn operation failOnError (start.add g.settings.engine.conflictTimeout)
        g.settings.engine.maxConflictRetries.toNat 1) := by
  have hretries : (g.settings.engine.maxConflictRetries - 1).toNat =
      g.settings.engine.maxConflictRetries.toNat - 1 := by omega
  unfold mutate attempts
  rw [hretries]

/-- What the loop does, however long it may go on: after a conflict it gives up when the
    attempt was the last one or the deadline is reached, and else waits and goes on. -/
theorem attempts_eq (limit attempt : Nat) :
    g.attempts id fn operation failOnError deadline limit attempt = (do
      match ← attemptOnce id fn operation failOnError with
      | .settled e payload => pure (e, payload)
      | .conflicted current f =>
        if limit ≤ attempt then .fail (conflictFailure current operation attempt f)
        else
          let clock ← Client.elapsed
          if isPast clock deadline then .fail (conflictFailure current operation attempt f)
          else
            waitForRetry g.settings.engine attempt
            g.attempts id fn operation failOnError deadline limit (attempt + 1)) := by
  unfold attempts
  -- The text counts the attempts that are left, and these are none from the limit on.
  cases hleft : limit - attempt with
  | zero =>
      have hle : limit ≤ attempt := by omega
      refine congrArg (attemptOnce id fn operation failOnError >>= ·) (funext fun r => ?_)
      cases r with
      | settled e payload => rfl
      | conflicted current f => exact (if_pos hle).symm
  | succ left =>
      have hlt : ¬limit ≤ attempt := by omega
      have hnext : limit - (attempt + 1) = left := by omega
      refine congrArg (attemptOnce id fn operation failOnError >>= ·) (funext fun r => ?_)
      cases r with
      | settled e payload => rfl
      | conflicted current f =>
          rw [hnext]
          exact (if_neg hlt).symm

/-! ## One attempt -/

/-- A fresh read, and an evaluation of the mutation on what was read. -/
def considered (id : Value) (fn : Mutation α) (base : Execution) (m : Moment) :
    List Turn :=
  [⟨.load id, .ok (some base)⟩, .moment (fn base) m]

/-- A fresh read, an evaluation, and a save over the version that was read. -/
def tried (id : Value) (fn : Mutation α) (base : Execution) (m : Moment) (p : Execution)
    (r : Except Failure Execution) : List Turn :=
  considered id fn base m ++ [.save p base.version r]

/-- What may follow a save that failed for good: nothing, or an attempt at the failure
    mark, where one is to be left. -/
inductive Marking (operation : String) (failOnError : Bool) (base : Execution) (f : Failure) :
    List Turn → Prop where
  | none : Marking operation failOnError base f []
  | undue (m : Moment) : failOnError = true → Marking operation failOnError base f
      [.moment Draft.now m]
  | mark {context : Value} (m : Moment) (r : Except Failure Execution) : failOnError = true →
      failedContext base operation f m.time = .ok context →
      Marking operation failOnError base f
        [.moment Draft.now m, .save { base with status := .failed, context } base.version r]

/-- What an attempt exchanges, and what it comes to: a commit, nothing to commit, a
    conflict, or a failure that is none. -/
inductive Tries (id : Value) (fn : Mutation α) (operation : String) (failOnError : Bool) :
    List Turn → Client (Attempt α) → Prop where
  | committed {base p e : Execution} {m : Moment} {a : α} : fn.Decides base m (some p) a →
      Tries id fn operation failOnError (tried id fn base m p (.ok e)) (.done (.settled e a))
  | unchanged {base : Execution} {m : Moment} {a : α} : fn.Decides base m none a →
      Tries id fn operation failOnError (considered id fn base m) (.done (.settled base a))
  | conflicted {base p : Execution} {m : Moment} {a : α} {f : Failure} :
      fn.Decides base m (some p) a → isConflict f = true →
      Tries id fn operation failOnError (tried id fn base m p (.error f))
        (.done (.conflicted base f))
  | unread {r : Except Failure (Option Execution)} (f : Failure) : (∀ e, r ≠ .ok (some e)) →
      Tries id fn operation failOnError [⟨.load id, r⟩] (.fail f)
  | undecided {base : Execution} {m : Moment} {f : Failure} :
      (fn base).runAt m.time m.before = (.error f, m.after) →
      Tries id fn operation failOnError (considered id fn base m) (.fail f)
  | broken {base p : Execution} {m : Moment} {a : α} {f : Failure} {marks : List Turn}
      (f' : Failure) : fn.Decides base m (some p) a → isConflict f = false →
      Marking operation failOnError base f marks →
      Tries id fn operation failOnError (tried id fn base m p (.error f) ++ marks) (.fail f')

theorem talks_refresh {rest : Client Execution} (h : (refresh id).Talks es rest)
    (hend : rest.hasEnded = true) :
    (∃ base, es = [⟨.load id, .ok (some base)⟩] ∧ rest = .done base) ∨
      ∃ r f, es = [⟨.load id, r⟩] ∧ rest = .fail f ∧ ∀ e, r ≠ .ok (some e) := by
  obtain ⟨r, es', rfl, hnext⟩ := talks_ask h hend
  cases r with
  | error f =>
      obtain ⟨rfl, rfl⟩ := talks_fail hnext
      exact .inr ⟨_, f, rfl, rfl, fun e he => nomatch he⟩
  | ok o =>
      cases o with
      | none =>
          obtain ⟨rfl, rfl⟩ := talks_fail hnext
          exact .inr ⟨_, _, rfl, rfl, fun e he => nomatch he⟩
      | some base =>
          obtain ⟨rfl, rfl⟩ := talks_done hnext
          exact .inl ⟨base, rfl, rfl⟩

theorem talks_markFailed {base : Execution} {f : Failure} {rest : Client Execution}
    (h : (markFailed base operation f).Talks es rest) (hend : rest.hasEnded = true) :
    Marking operation true base f es := by
  rcases talks_bind h hend with ⟨_, hnow, _⟩ | ⟨now, _, es₂, rfl, hnow, hsequel⟩
  · obtain ⟨m, rfl, _⟩ := talks_draft hnow rfl
    exact .undue m rfl
  · obtain ⟨m, rfl, ⟨t, ht, hdone⟩ | ⟨_, _, hfail⟩⟩ := talks_draft hnow rfl
    swap
    · exact nomatch hfail
    obtain rfl : m.time = now := by
      rw [Client.done.inj hdone]
      exact Except.ok.inj (Prod.mk.inj ht).1
    rcases talks_bind hsequel hend with ⟨_, hcontext, _⟩ | ⟨context, _, es₃, rfl, hcontext, hsave⟩
    · obtain ⟨rfl, _⟩ := talks_ofExcept hcontext
      exact .undue m rfl
    · obtain ⟨rfl, ⟨_, hcontext, hdone⟩ | ⟨_, _, hfail⟩⟩ := talks_ofExcept hcontext
      swap
      · exact nomatch hfail
      obtain rfl := Client.done.inj hdone
      rcases talks_bind hsave hend with ⟨_, hasked, _⟩ | ⟨r, _, es₄, rfl, hasked, hends⟩
      · obtain ⟨r, rfl, _⟩ := talks_trySave hasked rfl
        exact .mark m r rfl hcontext
      · obtain ⟨_, rfl, hdone⟩ := talks_trySave hasked rfl
        obtain rfl := Client.done.inj hdone
        -- whatever the save came to, nothing is asked any more
        obtain rfl : es₄ = [] := by
          cases r with
          | ok saved => exact (talks_done hends).1
          | error g => exact (talks_done hends).1
        exact .mark m r rfl hcontext

/-- The failure mark is attempted once at most, and the failure goes on. -/
theorem talks_abandon {base : Execution} {f : Failure} {rest : Client (Attempt α)}
    (h : (abandon base operation failOnError f).Talks es rest) (hend : rest.hasEnded = true) :
    ∃ f', rest = .fail f' ∧ Marking operation failOnError base f es := by
  have hplain {f' : Failure} (h : (Client.fail f' : Client (Attempt α)).Talks es rest) :
      ∃ f', rest = .fail f' ∧ Marking operation failOnError base f es := by
    obtain ⟨rfl, rfl⟩ := talks_fail h
    exact ⟨_, rfl, .none⟩
  have hmarked {k : Execution → Failure} (hmark : failOnError = true)
      (h : (markFailed base operation f >>= fun e => (.fail (k e) : Client (Attempt α))).Talks
        es rest) : ∃ f', rest = .fail f' ∧ Marking operation failOnError base f es := by
    rw [hmark]
    rcases talks_bind h hend with ⟨f', hfirst, rfl⟩ | ⟨e, es₁, es₂, rfl, hfirst, hsequel⟩
    · exact ⟨f', rfl, talks_markFailed hfirst rfl⟩
    · obtain ⟨rfl, rfl⟩ := talks_fail hsequel
      rw [List.append_nil]
      exact ⟨_, rfl, talks_markFailed hfirst rfl⟩
  -- Only what is neither an unknown id nor a failure of the workflow may leave a mark.
  cases failOnError with
  | false => cases f with
    | missingKey k => exact hplain h
    | workflow err => exact hplain h
    | _ => exact hplain h
  | true => cases f with
    | missingKey k => exact hplain h
    | workflow err => exact hplain h
    | _ => exact hmarked rfl h

/-- An attempt reads, evaluates and saves once, and only a conflict leaves room for
    another. -/
theorem talks_attemptOnce {rest : Client (Attempt α)}
    (h : (attemptOnce id fn operation failOnError).Talks es rest)
    (hend : rest.hasEnded = true) : Tries id fn operation failOnError es rest := by
  rcases talks_bind h hend with ⟨f, hread, rfl⟩ | ⟨base, _, es₂, rfl, hread, hdecide⟩
  · rcases talks_refresh hread rfl with ⟨_, _, hdone⟩ | ⟨r, _, rfl, hfail, hr⟩
    · exact nomatch hdone
    · exact .unread _ hr
  rcases talks_refresh hread rfl with ⟨_, rfl, hdone⟩ | ⟨_, _, _, hfail, _⟩
  swap
  · exact nomatch hfail
  obtain rfl := Client.done.inj hdone
  rcases talks_bind hdecide hend with ⟨f, hdraft, rfl⟩ | ⟨_, _, es₃, rfl, hdraft, hsave⟩
  · obtain ⟨m, rfl, ⟨_, _, hdone⟩ | ⟨_, hf, hfail⟩⟩ := talks_draft hdraft rfl
    · exact nomatch hdone
    · obtain rfl := Client.fail.inj hfail
      exact .undecided hf
  obtain ⟨m, rfl, ⟨⟨o, a⟩, hdecides, hdone⟩ | ⟨_, _, hfail⟩⟩ := talks_draft hdraft rfl
  swap
  · exact nomatch hfail
  obtain rfl := Client.done.inj hdone
  cases o with
  | none =>
      obtain ⟨rfl, rfl⟩ := talks_done hsave
      exact .unchanged hdecides
  | some p =>
      rcases talks_bind hsave hend with ⟨f, hasked, rfl⟩ | ⟨r, _, es₄, rfl, hasked, hends⟩
      · obtain ⟨_, _, hdone⟩ := talks_trySave hasked rfl
        exact nomatch hdone
      obtain ⟨_, rfl, hdone⟩ := talks_trySave hasked rfl
      obtain rfl := Client.done.inj hdone
      -- the answer to the save tells how the attempt ends
      cases r with
      | ok saved =>
          obtain ⟨rfl, rfl⟩ := talks_done hends
          exact .committed hdecides
      | error f =>
          dsimp only at hends
          split at hends
          · rename_i hf
            obtain ⟨rfl, rfl⟩ := talks_done hends
            exact .conflicted hdecides hf
          · rename_i hf
            obtain ⟨f', rfl, hmarks⟩ := talks_abandon hends hend
            exact .broken f' hdecides (Bool.not_eq_true _ ▸ hf) hmarks

/-! ## Round after round -/

/-- Rounds that were lost, one after the other: an attempt that met a conflict before
    the deadline, and the wait after it. -/
inductive Lost (id : Value) (fn : Mutation α) (operation : String) (failOnError : Bool)
    (deadline : Binary64) : Nat → List Turn → Prop where
  | none : Lost id fn operation failOnError deadline 0 []
  | round {base : Execution} {f : Failure} {clock : Binary64} {n : Nat}
      {es lost : List Turn} (u delay : Number) :
      Tries id fn operation failOnError es (.done (.conflicted base f)) →
      isPast clock deadline = false → Lost id fn operation failOnError deadline n lost →
      Lost id fn operation failOnError deadline (n + 1)
        (es ++ ([⟨.elapsed, clock⟩, ⟨.draw, u⟩, ⟨.sleep delay, ()⟩] ++ lost))

/-- How the attempt with the given number gives up after a conflict: because it is the
    last one, or because the deadline is reached. -/
inductive GivesUp (id : Value) (fn : Mutation α) (operation : String) (failOnError : Bool)
    (deadline : Binary64) (limit attempt : Nat) :
    List Turn → Client (Execution × α) → Prop where
  | exhausted {base : Execution} {f : Failure} {es : List Turn} :
      Tries id fn operation failOnError es (.done (.conflicted base f)) → limit ≤ attempt →
      GivesUp id fn operation failOnError deadline limit attempt es
        (.fail (conflictFailure base operation attempt f))
  | late {base : Execution} {f : Failure} {clock : Binary64} {es : List Turn} :
      Tries id fn operation failOnError es (.done (.conflicted base f)) → attempt < limit →
      isPast clock deadline = true →
      GivesUp id fn operation failOnError deadline limit attempt (es ++ [⟨.elapsed, clock⟩])
        (.fail (conflictFailure base operation attempt f))

/-- How the attempt with the given number ends the loop: with its result, with its
    failure, by giving up, or because there is no delay to wait for. -/
inductive Ends (id : Value) (fn : Mutation α) (operation : String) (failOnError : Bool)
    (deadline : Binary64) (limit attempt : Nat) :
    List Turn → Client (Execution × α) → Prop where
  | settled {e : Execution} {a : α} {es : List Turn} :
      Tries id fn operation failOnError es (.done (.settled e a)) →
      Ends id fn operation failOnError deadline limit attempt es (.done (e, a))
  | failed {f : Failure} {es : List Turn} :
      Tries id fn operation failOnError es (.fail f) →
      Ends id fn operation failOnError deadline limit attempt es (.fail f)
  | gaveUp {es : List Turn} {rest : Client (Execution × α)} :
      GivesUp id fn operation failOnError deadline limit attempt es rest →
      Ends id fn operation failOnError deadline limit attempt es rest
  | unwaited {base : Execution} {f : Failure} {clock : Binary64} {es : List Turn}
      (u : Number) : Tries id fn operation failOnError es (.done (.conflicted base f)) →
      attempt < limit → isPast clock deadline = false →
      Ends id fn operation failOnError deadline limit attempt
        (es ++ [⟨.elapsed, clock⟩, ⟨.draw, u⟩]) (.fail (.overflow "Numerical result out of range"))

/-- The delay after the attempt with the given number, at a fraction of the jitter. -/
def delay (settings : EngineSettings) (attempt : Nat) (u : Number) :
    Except NumericError Number :=
  backoffDelay (.whole attempt) (.real settings.retryBackoffInitial) defaultFactor
    (.real settings.retryBackoffJitter) u

/-- A wait draws a fraction, and then waits or, without a delay to wait for, fails. -/
theorem talks_waitForRetry {settings : EngineSettings} {rest : Client Unit}
    (h : (waitForRetry settings attempt).Talks es rest) (hend : rest.hasEnded = true) :
    ∃ u, (∃ d, delay settings attempt u = .ok d ∧ es = [⟨.draw, u⟩, ⟨.sleep d, ()⟩] ∧
        rest = .done ()) ∨
      (∃ err, delay settings attempt u = .error err) ∧ es = [⟨.draw, u⟩] ∧
        rest = .fail (.overflow "Numerical result out of range") := by
  rcases talks_bind h hend with ⟨_, hdraw, _⟩ | ⟨u, _, es₂, rfl, hdraw, hwait⟩
  · obtain ⟨_, _, _, hdone⟩ := talks_ask hdraw rfl
    exact nomatch (talks_done hdone).2
  obtain ⟨_, _, rfl, hdone⟩ := talks_ask hdraw rfl
  obtain ⟨rfl, hu⟩ := talks_done hdone
  obtain rfl := Client.done.inj hu
  refine ⟨u, ?_⟩
  split at hwait
  · rename_i d hd
    obtain ⟨_, _, rfl, hdone⟩ := talks_ask hwait hend
    obtain ⟨rfl, hrest⟩ := talks_done hdone
    exact .inl ⟨d, hd, rfl, hrest⟩
  · rename_i err herr
    obtain ⟨rfl, hrest⟩ := talks_fail hwait
    exact .inr ⟨⟨err, herr⟩, rfl, hrest⟩

/-- What the attempt with the given number comes to in the loop: a result, a failure, a
    giving up, or, before the last attempt and the deadline, a conflict.  Then the loop
    fails, or goes on, as there is a delay to wait for. -/
theorem talks_round (h : (g.attempts id fn operation failOnError deadline limit attempt).Talks
      es rest) (hend : rest.hasEnded = true) :
    (∃ e a, Tries id fn operation failOnError es (.done (.settled e a)) ∧ rest = .done (e, a)) ∨
    (∃ f, Tries id fn operation failOnError es (.fail f) ∧ rest = .fail f) ∨
    GivesUp id fn operation failOnError deadline limit attempt es rest ∨
    attempt < limit ∧ ∃ base f clock u es₁ es₂,
      es = es₁ ++ (⟨.elapsed, clock⟩ :: ⟨.draw, u⟩ :: es₂) ∧
      Tries id fn operation failOnError es₁ (.done (.conflicted base f)) ∧
      isPast clock deadline = false ∧
      ((∃ err, delay g.settings.engine attempt u = .error err) ∧ es₂ = [] ∧
          rest = .fail (.overflow "Numerical result out of range") ∨
        ∃ d es₃, delay g.settings.engine attempt u = .ok d ∧ es₂ = ⟨.sleep d, ()⟩ :: es₃ ∧
          (g.attempts id fn operation failOnError deadline limit (attempt + 1)).Talks
            es₃ rest) := by
  rw [attempts_eq] at h
  rcases talks_bind h hend with ⟨f, htries, rfl⟩ | ⟨r, es₁, es₂, rfl, htries, hsequel⟩
  · exact .inr (.inl ⟨f, talks_attemptOnce htries rfl, rfl⟩)
  have htries := talks_attemptOnce htries rfl
  cases r with
  | settled e a =>
      obtain ⟨rfl, rfl⟩ := talks_done hsequel
      rw [List.append_nil]
      exact .inl ⟨e, a, htries, rfl⟩
  | conflicted base f =>
      dsimp only at hsequel
      by_cases hle : limit ≤ attempt
      · rw [if_pos hle] at hsequel
        obtain ⟨rfl, rfl⟩ := talks_fail hsequel
        rw [List.append_nil]
        exact .inr (.inr (.inl (.exhausted htries hle)))
      rw [if_neg hle] at hsequel
      have hlt : attempt < limit := Nat.not_le.mp hle
      obtain ⟨clock, es₃, rfl, hnext⟩ := talks_ask hsequel hend
      have hnext : (if isPast clock deadline then
          Client.fail (conflictFailure base operation attempt f)
        else waitForRetry g.settings.engine attempt >>= fun _ =>
          g.attempts id fn operation failOnError deadline limit (attempt + 1)).Talks
            es₃ rest := hnext
      cases hpast : isPast clock deadline with
      | true =>
          rw [hpast, if_pos rfl] at hnext
          obtain ⟨rfl, rfl⟩ := talks_fail hnext
          exact .inr (.inr (.inl (.late htries hlt hpast)))
      | false =>
          rw [hpast, if_neg Bool.false_ne_true] at hnext
          refine .inr (.inr (.inr ⟨hlt, base, f, clock, ?_⟩))
          rcases talks_bind hnext hend with ⟨_, hwait, rfl⟩ | ⟨_, es₄, es₅, rfl, hwait, hagain⟩
          · obtain ⟨u, ⟨_, _, _, hdone⟩ | ⟨hnone, rfl, hfail⟩⟩ := talks_waitForRetry hwait rfl
            · exact nomatch hdone
            · rw [Client.fail.inj hfail]
              exact ⟨u, es₁, [], rfl, htries, hpast, .inl ⟨hnone, rfl, rfl⟩⟩
          · obtain ⟨u, ⟨d, hd, rfl, _⟩ | ⟨_, _, hfail⟩⟩ := talks_waitForRetry hwait rfl
            · exact ⟨u, es₁, _, rfl, htries, hpast, .inr ⟨d, es₅, hd, rfl, hagain⟩⟩
            · exact nomatch hfail

/-- One turn of the loop: it ends, or before the last attempt and the deadline an attempt
    is lost, and the loop goes on with the next one. -/
theorem talks_turn (h : (g.attempts id fn operation failOnError deadline limit attempt).Talks
      es rest) (hend : rest.hasEnded = true) :
    Ends id fn operation failOnError deadline limit attempt es rest ∨
    attempt < limit ∧ ∃ base f clock u delay es₁ es₂,
      es = es₁ ++ ([⟨.elapsed, clock⟩, ⟨.draw, u⟩, ⟨.sleep delay, ()⟩] ++ es₂) ∧
      Tries id fn operation failOnError es₁ (.done (.conflicted base f)) ∧
      isPast clock deadline = false ∧
      (g.attempts id fn operation failOnError deadline limit (attempt + 1)).Talks es₂ rest := by
  rcases talks_round h hend with ⟨e, a, htries, rfl⟩ | ⟨f, htries, rfl⟩ | hgives |
    ⟨hlt, base, f, clock, u, es₁, es₂, rfl, htries, hpast,
      ⟨_, rfl, rfl⟩ | ⟨d, es₃, _, rfl, hagain⟩⟩
  · exact .inl (.settled htries)
  · exact .inl (.failed htries)
  · exact .inl (.gaveUp hgives)
  · exact .inl (.unwaited u htries hlt hpast)
  · exact .inr ⟨hlt, base, f, clock, u, d, es₁, es₃, rfl, htries, hpast, hagain⟩

/-- A talk of the loop that has come to its end: rounds that were lost, and an attempt
    that ends the loop, no later than with the last one. -/
theorem talks_attempts (h : (g.attempts id fn operation failOnError deadline limit attempt).Talks
      es rest) (hend : rest.hasEnded = true) (hle : attempt ≤ limit) :
    ∃ n lost last, es = lost ++ last ∧ attempt + n ≤ limit ∧
      Lost id fn operation failOnError deadline n lost ∧
      Ends id fn operation failOnError deadline limit (attempt + n) last rest := by
  -- by induction on how many attempts are left
  generalize hleft : limit - attempt = left
  induction left generalizing attempt es with
  | zero =>
      rcases talks_turn h hend with hends | ⟨hlt, _⟩
      · exact ⟨0, [], es, rfl, hle, .none, hends⟩
      · omega
  | succ left ih =>
      rcases talks_turn h hend with
        hends | ⟨hlt, base, f, clock, u, delay, es₁, es₂, rfl, htries, hpast, hagain⟩
      · exact ⟨0, [], es, rfl, hle, .none, hends⟩
      · obtain ⟨n, lost, last, rfl, hn, hlost, hends⟩ := ih hagain hlt (by omega)
        rw [Nat.add_right_comm] at hn hends
        exact ⟨n + 1, _, last, by simp, hn, .round u delay htries hpast hlost, hends⟩

end Engine

/-! ## What the turns come to -/

namespace Turn

/-- Is it a save? -/
def isSave : Turn → Bool
  | ⟨.save _ _, _⟩ => true
  | _              => false

/-- Is it a save that was answered with a conflict? -/
def isConflict : Turn → Bool
  | ⟨.save _ _, .error f⟩ => Engine.isConflict f
  | _                     => false

end Turn

namespace Engine

/-- Have all saves met conflicts?  And was each of a proposal of the mutation, on a
    snapshot that was read, over its version? -/
structure Vain (id : Value) (fn : Mutation α) (es : List Turn) : Prop where
  refused  : ∀ p v r, .save p v r ∈ es → ∃ f, r = .error f ∧ isConflict f = true
  proposed : ∀ p v r, .save p v r ∈ es → ∃ base m a, ⟨.load id, .ok (some base)⟩ ∈ es ∧
    fn.Decides base m (some p) a ∧ v = base.version

namespace Vain

theorem append {es' : List Turn} (h : Vain id fn es) (h' : Vain id fn es') :
    Vain id fn (es ++ es') := by
  constructor
  · intro p v r hx
    rcases List.mem_append.mp hx with hx | hx
    · exact h.refused p v r hx
    · exact h'.refused p v r hx
  · intro p v r hx
    rcases List.mem_append.mp hx with hx | hx
    · obtain ⟨base, m, a, hread, hd⟩ := h.proposed p v r hx
      exact ⟨base, m, a, List.mem_append_left _ hread, hd⟩
    · obtain ⟨base, m, a, hread, hd⟩ := h'.proposed p v r hx
      exact ⟨base, m, a, List.mem_append_right _ hread, hd⟩

/-- Where nothing is saved, nothing goes through. -/
theorem of_no_save (h : ∀ x ∈ es, x.isSave = false) : Vain id fn es := by
  have hno {p : Execution} {v : Int} {r : Except Failure Execution} (hx : .save p v r ∈ es) :
      False := Bool.false_ne_true (h _ hx : true = false).symm
  exact ⟨fun _ _ _ hx => (hno hx).elim, fun _ _ _ hx => (hno hx).elim⟩

end Vain

theorem save_of_tried {base p q : Execution} {m : Moment} {v : Int}
    {r r' : Except Failure Execution} (h : .save q v r ∈ tried id fn base m p r') :
    q = p ∧ v = base.version ∧ r = r' := by
  unfold tried considered at h
  rcases List.mem_append.mp h with h | h
  · rcases List.mem_cons.mp h with h | h
    · exact nomatch h
    · exact nomatch List.mem_singleton.mp h
  · cases List.mem_singleton.mp h
    exact ⟨rfl, rfl, rfl⟩

/-- An attempt that met a conflict saved once, in vain. -/
theorem Tries.conflict {base : Execution} {f : Failure}
    (h : Tries id fn operation failOnError es (.done (.conflicted base f))) :
    es.length = 3 ∧ es.countP Turn.isSave = 1 ∧ es.countP Turn.isConflict = 1 ∧
      Vain id fn es := by
  cases h with
  | @conflicted _ p m a _ hd hf =>
      refine ⟨rfl, rfl, ?_, ?_, ?_⟩
      · unfold tried considered
        simp [Turn.isConflict, Turn.save, Turn.moment, hf]
      · intro q v r hx
        obtain ⟨_, _, rfl⟩ := save_of_tried hx
        exact ⟨f, rfl, hf⟩
      · intro q v r hx
        obtain ⟨rfl, rfl, _⟩ := save_of_tried hx
        exact ⟨base, m, a, List.mem_cons_self, hd, rfl⟩

theorem Marking.length_le {base : Execution} {f : Failure}
    (h : Marking operation failOnError base f es) :
    es.length ≤ 2 ∧ es.countP Turn.isSave ≤ failOnError.toNat := by
  cases h with
  | none => exact ⟨Nat.zero_le _, Nat.zero_le _⟩
  | undue m hmark => exact ⟨Nat.le_succ 1, Nat.zero_le _⟩
  | mark m r hmark _ =>
      rw [hmark]
      exact ⟨Nat.le_refl _, Nat.le_refl _⟩

/-- No attempt exchanges more than a read, a moment and a save, and for the failure mark
    another moment and another save. -/
theorem Tries.length_le {rest : Client (Attempt α)}
    (h : Tries id fn operation failOnError es rest) :
    es.length ≤ 5 ∧ es.countP Turn.isSave ≤ 1 + failOnError.toNat := by
  cases h with
  | committed _ => exact ⟨Nat.le_add_left 3 2, Nat.le_add_right 1 _⟩
  | unchanged _ => exact ⟨Nat.le_add_left 2 3, Nat.zero_le _⟩
  | conflicted _ _ => exact ⟨Nat.le_add_left 3 2, Nat.le_add_right 1 _⟩
  | unread _ _ => exact ⟨Nat.le_add_left 1 4, Nat.zero_le _⟩
  | undecided _ => exact ⟨Nat.le_add_left 2 3, Nat.zero_le _⟩
  | @broken base p m a f marks _ _ _ hmarks =>
      obtain ⟨hlength, hsaves⟩ := hmarks.length_le
      rw [List.length_append, List.countP_append]
      exact ⟨Nat.add_le_add_left hlength 3, Nat.add_le_add_left hsaves 1⟩

/-- A conflict that an attempt fails with is one of the failure mark, which comes after
    everything else. -/
theorem Tries.no_conflict {f : Failure}
    (h : Tries id fn operation failOnError es (.fail f)) (hshort : es.length ≤ 3) :
    es.countP Turn.isConflict = 0 := by
  cases h with
  | unread _ _ => rfl
  | undecided _ => rfl
  | @broken base p m a f marks _ _ hf hmarks =>
      have hnone : marks = [] := by
        rw [List.length_append] at hshort
        exact List.length_eq_zero_iff.mp (Nat.le_zero.mp (Nat.le_of_add_le_add_left hshort))
      rw [hnone]
      unfold tried considered
      simp [Turn.isConflict, Turn.save, Turn.moment, hf]

/-- Each round that was lost saved once, in vain. -/
theorem Lost.conflicts (h : Lost id fn operation failOnError deadline n lost) :
    lost.length = 6 * n ∧ lost.countP Turn.isSave = n ∧
      lost.countP Turn.isConflict = n ∧ Vain id fn lost := by
  induction h with
  | none => exact ⟨rfl, rfl, rfl, .of_no_save fun _ hx => absurd hx List.not_mem_nil⟩
  | @round base f clock n es lost u delay htries _ _ ih =>
      obtain ⟨hlength, hsaves, hconflicts, hvain⟩ := htries.conflict
      obtain ⟨hlength', hsaves', hconflicts', hvain'⟩ := ih
      simp only [List.length_append, List.countP_append, hlength, hlength', hsaves, hsaves',
        hconflicts, hconflicts']
      -- a round is three turns of its attempt and three of the wait, with one save
      refine ⟨?_, ?_, ?_, hvain.append (.append (.of_no_save ?_) hvain')⟩
      · show 3 + (3 + 6 * n) = 6 * (n + 1)
        omega
      · show 1 + (0 + n) = n + 1
        omega
      · show 1 + (0 + n) = n + 1
        omega
      · simp [Turn.isSave]

/-- The attempt that gives up saved once, in vain too. -/
theorem GivesUp.conflict (h : GivesUp id fn operation failOnError deadline limit attempt last rest) :
    last.countP Turn.isConflict = 1 ∧ Vain id fn last ∧
      ∃ base f, rest = .fail (conflictFailure base operation attempt f) := by
  cases h with
  | @exhausted base f _ htries _ =>
      obtain ⟨_, _, hconflicts, hvain⟩ := htries.conflict
      exact ⟨hconflicts, hvain, base, f, rfl⟩
  | @late base f clock es htries _ _ =>
      obtain ⟨_, _, hconflicts, hvain⟩ := htries.conflict
      refine ⟨?_, hvain.append (.of_no_save ?_), base, f, rfl⟩
      · rw [List.countP_append, hconflicts]
        rfl
      · simp [Turn.isSave]

theorem Ends.length_le (h : Ends id fn operation failOnError deadline limit attempt last rest) :
    last.length ≤ 5 ∧ last.countP Turn.isSave ≤ 1 + failOnError.toNat := by
  have hconflict {base : Execution} {f : Failure} {es tail : List Turn}
      (h : Tries id fn operation failOnError es (.done (.conflicted base f)))
      (htail : tail.length ≤ 2) (hquiet : tail.countP Turn.isSave = 0) :
      (es ++ tail).length ≤ 5 ∧
        (es ++ tail).countP Turn.isSave ≤ 1 + failOnError.toNat := by
    obtain ⟨hlength, hsaves, _⟩ := h.conflict
    rw [List.length_append, List.countP_append, hlength, hsaves, hquiet]
    omega
  cases h with
  | settled h => exact h.length_le
  | failed h => exact h.length_le
  | gaveUp h => cases h with
    | exhausted h _ => exact h.length_le
    | late h _ _ => exact hconflict h (Nat.le_succ 1) rfl
  | unwaited u h _ _ => exact hconflict h (Nat.le_refl 2) rfl

/-- A failure of the workflow that comes right after a conflict is a giving up. -/
theorem Ends.gives_up (h : Ends id fn operation failOnError deadline limit attempt last rest)
    (hfailed : ∃ err, rest = .fail (.workflow err)) (hshort : last.length ≤ 3)
    (hconflict : last.countP Turn.isConflict = 1) :
    GivesUp id fn operation failOnError deadline limit attempt last rest := by
  obtain ⟨err, rfl⟩ := hfailed
  cases h with
  | failed htries => exact absurd ((htries.no_conflict hshort).symm.trans hconflict) (by decide)
  | gaveUp h => exact h

end Engine

/-! ## The bound -/

/-- Whatever a mutation is answered, by whatever store, clock and other writers: it ends,
    having attempted no more saves than its settings allow, but for a failure mark.  At
    its end it has been through rounds that were lost, each a fresh read, an evaluation,
    a save that met a conflict, and a wait; and one attempt more, which is the last one
    allowed, or committed, or had nothing to propose, or failed without a conflict, or
    met its conflict at the deadline.  When it gave up after a conflict, conflicts is all
    that its saves have met, each of them the mutation's own proposal; and it tells how
    many. -/
theorem mutation_attempts_bounded {m : Nat}
    (hm : g.settings.engine.maxConflictRetries = m) (hpos : 1 ≤ m)
    (h : (g.mutate id fn operation failOnError).Talks es rest) :
    es.length ≤ 6 * m ∧ es.countP Turn.isSave ≤ m + failOnError.toNat ∧
    (rest.hasEnded = true → ∃ start n lost last,
      es = ⟨.elapsed, start⟩ :: (lost ++ last) ∧ n + 1 ≤ m ∧
      Engine.Lost id fn operation failOnError
        (start.add g.settings.engine.conflictTimeout) n lost ∧
      Engine.Ends id fn operation failOnError
        (start.add g.settings.engine.conflictTimeout) m (n + 1) last rest ∧
      (Engine.GivesUp id fn operation failOnError
          (start.add g.settings.engine.conflictTimeout) m (n + 1) last rest →
        Engine.Vain id fn es ∧ ∃ err, rest = .fail (.workflow err) ∧ err.kind = .execution ∧
          err.details = .record [("operation", .str operation),
            ("attempts", .nat (es.countP Turn.isConflict))])) := by
  have hended {es : List Turn} {rest : Client (Execution × α)}
      (h : (g.mutate id fn operation failOnError).Talks es rest) (hend : rest.hasEnded = true) :
      ∃ start n lost last, es = ⟨.elapsed, start⟩ :: (lost ++ last) ∧ n + 1 ≤ m ∧
        Engine.Lost id fn operation failOnError
          (start.add g.settings.engine.conflictTimeout) n lost ∧
        Engine.Ends id fn operation failOnError
          (start.add g.settings.engine.conflictTimeout) m (n + 1) last rest := by
    rw [Engine.mutate_eq, hm, Int.toNat_natCast] at h
    obtain ⟨start, es', rfl, hloop⟩ := talks_ask h hend
    obtain ⟨n, lost, last, rfl, hn, hlost, hends⟩ := Engine.talks_attempts hloop hend hpos
    rw [Nat.add_comm] at hn hends
    exact ⟨start, n, lost, last, rfl, hn, hlost, hends⟩
  have hbound : es.length ≤ 6 * m ∧ es.countP Turn.isSave ≤ m + failOnError.toNat := by
    -- a talk that may go on is the beginning of one that has ended
    obtain ⟨es', end', htalks, hend⟩ := h.finishes
    obtain ⟨start, n, lost, last, hes, hn, hlost, hends⟩ := hended htalks hend
    obtain ⟨hlength, hsaves, _⟩ := hlost.conflicts
    obtain ⟨hlength', hsaves'⟩ := hends.length_le
    have hall : es.length + es'.length = 1 + (lost.length + last.length) := by
      rw [← List.length_append, hes, List.length_cons, List.length_append, Nat.add_comm]
    have hcount : es.countP Turn.isSave + es'.countP Turn.isSave =
        lost.countP Turn.isSave + last.countP Turn.isSave := by
      rw [← List.countP_append, hes, List.countP_cons_of_neg (by simp [Turn.isSave]),
        List.countP_append]
    omega
  refine ⟨hbound.1, hbound.2, fun hend => ?_⟩
  obtain ⟨start, n, lost, last, rfl, hn, hlost, hends⟩ := hended h hend
  refine ⟨start, n, lost, last, rfl, hn, hlost, hends, fun hgives => ?_⟩
  obtain ⟨_, _, hconflicts, hvain⟩ := hlost.conflicts
  obtain ⟨hconflict, hvain', base, f, hrest⟩ := hgives.conflict
  have hstart : Engine.Vain id fn [⟨.elapsed, start⟩] := .of_no_save (by simp [Turn.isSave])
  refine ⟨hstart.append (hvain.append hvain'), _, hrest, rfl, ?_⟩
  rw [List.countP_cons_of_neg (by simp [Turn.isConflict]), List.countP_append, hconflicts,
    hconflict]

/-- An execution that nobody has moved. -/
def untouchedReview : Execution :=
  { id := "exec-1", workflowName := .str "review", subject := .subject "Document" "7"
    currentStep := .str "draft", status := .active, context := .dict [], history := []
    assignedActor := none, version := 0, createdAt := .defaultNow, updatedAt := .defaultNow }

/-- The note that a client adds. -/
def noteMutation (i : Fin 3) : Mutation Unit :=
  Engine.mergeMutation [(.str "note", .int i.val)]

/-- Three clients that add a note each, with two attempts. -/
def contestedNotes : System (Fin 3) fun _ => Execution × Unit :=
  let g : Engine := { settings := { engine := { maxConflictRetries := 2 } } }
  ⟨{ store := .memory ⟨[untouchedReview]⟩ }, fun i =>
    g.mutate (.str "exec-1") (noteMutation i) "note" true⟩

/-- One of them loses against each of the others, and gives up.  It has saved nothing, and
    left no failure mark. -/
theorem contestedNotes_give_up :
    let r := contestedNotes.follow [0, 0, 0, 1, 1, 1, 1, 0, 0, 0, 0, 0, 0, 2, 2, 2, 2, 0]
    (∃ err, r.2.clients 0 = .fail (.workflow err) ∧ err.kind = .execution ∧
      err.details = .record [("operation", .str "note"), ("attempts", .nat 2)]) ∧
    Engine.Vain (.str "exec-1") (noteMutation 0) (Turn.of r.1 0) ∧
    (commits r.1).map (·.client) = [1, 2] := by
  intro r
  have hcalm : Climate.calm.Allows contestedNotes.world :=
    ⟨trivial, fun d h => absurd h List.not_mem_nil⟩
  have hrun : System.Run .calm contestedNotes r.1 r.2 := .of_schedule hcalm _
  have hend : (r.2.clients 0).hasEnded = true := by decide +kernel
  have hfailed : ∃ err, r.2.clients 0 = .fail (.workflow err) := by
    have hfailed : (r.2.clients 0).error?.isSome = true := by decide +kernel
    obtain ⟨err, herr⟩ := Option.isSome_iff_exists.mp hfailed
    exact ⟨err, Client.error?_some herr⟩
  have hlength : (Turn.of r.1 0).length = 10 := by decide +kernel
  have hcount : (Turn.of r.1 0).countP Turn.isConflict = 2 := by decide +kernel
  obtain ⟨_, _, hended⟩ := mutation_attempts_bounded (m := 2) rfl (by decide) (hrun.talks 0)
  obtain ⟨start, n, lost, last, hes, hn, hlost, hends, hgives⟩ := hended hend
  obtain ⟨hlost₆, _, hlostn, _⟩ := hlost.conflicts
  have hlast := hends.length_le.1
  rw [hes, List.length_cons, List.length_append] at hlength
  -- the lengths leave one round that was lost, and an attempt without a mark
  have hone : last.countP Turn.isConflict = 1 := by
    rw [hes, List.countP_cons_of_neg (by simp [Turn.isConflict]), List.countP_append]
      at hcount
    omega
  obtain ⟨hvain, err, hfail, hkind, hdetails⟩ :=
    hgives (hends.gives_up hfailed (by omega) hone)
  rw [hcount] at hdetails
  exact ⟨⟨err, hfail, hkind, hdetails⟩, hvain, by decide +kernel⟩

end Workflow
