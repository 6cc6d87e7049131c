import Workflow.Engine
import Workflow.Proofs.Client

/-! # Mutation — what a mutation of an execution asks for and leaves

    A mutation reads, decides and offers, over and over while it loses against
    others.  Its whole use of the store is told by its terms: it loads one id,
    and offers what it decides on the snapshot that it read last, over the version
    of that snapshot.  With a failure mark to leave, it may also offer that one,
    after the store has failed.

    `keeps_mutate` is the one fact about the loop.  Every result about the
    operations of the engine goes through it, so none looks at the loop again. -/

namespace Workflow

variable {α : Type}

namespace Mutation

/-- What the mutation comes to on a snapshot at a moment. -/
def Decides (fn : Mutation α) (base : Execution) (m : Moment) (o : Option Execution)
    (a : α) : Prop :=
  (fn base).runAt m.time m.before = (.ok (o, a), m.after)

/-- Does the mutation propose anything on the snapshot, at some moment? -/
def Proposes (fn : Mutation α) (base : Execution) : Prop :=
  ∃ m p a, fn.Decides base m (some p) a

/-- Is the offer what the mutation proposes on the snapshot that was read last,
    over its version? -/
def Offers (fn : Mutation α) (t : Trail) (p : Execution) (v : Int) : Prop :=
  ∃ base m a, t.read = some base ∧ t.moment = some m ∧ fn.Decides base m (some p) a ∧
    v = base.version

end Mutation

namespace Engine

/-- Is the failure one of the store, rather than a conflict, a missing execution or
    another error of the workflow? -/
def isStoreFailure : Failure → Bool
  | .missingKey _ => false
  | .workflow _   => false
  | _             => true

/-- Is the offer the mark that a failure of the store leaves on the snapshot that
    was read last? -/
def Marks (operation : String) (t : Trail) (base : Execution) (f : Failure)
    (p : Execution) : Prop :=
  ∃ m refused context, t.read = some base ∧ t.moment = some m ∧
    t.refused = some (refused, f) ∧ isStoreFailure f = true ∧
    failedContext base operation f m.time = .ok context ∧
    p = { base with status := .failed, context }

end Engine

namespace Mutation

/-- What a mutation may ask for, having written nothing since it was begun. -/
def terms (fn : Mutation α) (id : Value) (operation : String) (failOnError : Bool)
    (w₀ : List Write) : Client.Terms := fun t q =>
  t.writes = w₀ ∧ match q with
  | .load v     => v = id
  | .save p v   => fn.Offers t p v ∨
      failOnError = true ∧ ∃ base f, Engine.Marks operation t base f p ∧ fn.Proposes base ∧
        v = base.version
  | .moment use =>
      (∃ base, use = fun now s => ((fn base).runAt now s).2) ∨ use = fun _ s => s
  | .elapsed    => True
  | .draw       => True
  | .sleep _    => True
  | _           => False

/-- How a mutation ends that has a result: with one write, of its own proposal, or
    with none, having proposed nothing. -/
inductive Settled (fn : Mutation α) (w₀ : List Write) : Trail → Execution × α → Prop where
  | written {t : Trail} {base p e : Execution} {m : Moment} {a : α} :
      t.read = some base → t.moment = some m → fn.Decides base m (some p) a →
      t.writes = w₀ ++ [⟨p, base.version, e⟩] → Settled fn w₀ t (e, a)
  | unchanged {t : Trail} {base : Execution} {m : Moment} {a : α} :
      t.read = some base → t.moment = some m → fn.Decides base m none a →
      t.writes = w₀ → Settled fn w₀ t (base, a)

/-- How a mutation ends that fails: without a write, or with the failure mark. -/
inductive Failed (operation : String) (failOnError : Bool) (w₀ : List Write) :
    Trail → Failure → Prop where
  | clean {t : Trail} {f : Failure} : t.writes = w₀ → Failed operation failOnError w₀ t f
  | marked {t : Trail} {base p e : Execution} {f : Failure} :
      failOnError = true → Engine.Marks operation t base f p →
      t.writes = w₀ ++ [⟨p, base.version, e⟩] →
      Failed operation failOnError w₀ t (Engine.commitFailure base e operation f)

end Mutation

namespace Engine

open Client

variable {fn : Mutation α} {id : Value} {operation : String} {failOnError : Bool}
  {w₀ : List Write} {t : Trail}

/-- Where an attempt leaves off. -/
def Tried (fn : Mutation α) (w₀ : List Write) : Trail → Attempt α → Prop
  | t, .settled e a    => fn.Settled w₀ t (e, a)
  | t, .conflicted _ _ => t.writes = w₀

/-- A reading of the execution either has it or fails. -/
theorem keeps_refresh {may : Terms} {done : Trail → Execution → Prop}
    {fail : Trail → Failure → Prop} (hmay : may t (.load id))
    (hsome : ∀ e, done { read := some e, writes := t.writes } e) (hfail : ∀ f, fail t f) :
    (refresh id).Keeps may done fail t := by
  refine keeps_bind (keeps_load hmay ?_ (fun e => ?_) hfail)
  · exact hfail _
  · exact hsome e

/-- The failure mark is offered once, and what it came to is not looked at. -/
theorem keeps_markFailed {base : Execution} {f : Failure} {p : Execution}
    (hw : t.writes = w₀) (hread : t.read = some base) (href : t.refused = some (p, f))
    (hproposes : fn.Proposes base) (hf : isStoreFailure f = true) :
    (markFailed base operation f).Keeps (fn.terms id operation true w₀)
      (fun t e => Mutation.Failed operation true w₀ t (commitFailure base e operation f))
      (Mutation.Failed operation true w₀) t := by
  refine keeps_bind (keeps_draft ⟨hw, .inr rfl⟩ (fun m now hm => ?_) fun m g _ => .clean hw)
  have hnow : m.time = now := Except.ok.inj (congrArg Prod.fst hm)
  refine keeps_bind (keeps_ofExcept (fun context hc => ?_) fun g _ => .clean hw)
  have hmark (t' : Trail) (h₁ : t'.read = some base) (h₂ : t'.moment = some m)
      (h₃ : t'.refused = some (p, f)) :
      Marks operation t' base f { base with status := .failed, context } :=
    ⟨m, p, context, h₁, h₂, h₃, hf, hnow ▸ hc, rfl⟩
  refine keeps_bind (keeps_trySave
    ⟨hw, .inr ⟨rfl, base, f, hmark _ hread rfl href, hproposes, rfl⟩⟩ (fun e => ?_) fun g => ?_)
  · refine .marked rfl (hmark _ hread rfl href) ?_
    rw [hw]
  · exact .clean hw

/-- A save that failed for good ends the attempt, with the mark where one is to
    be left. -/
theorem keeps_abandon {base : Execution} {f : Failure} {p : Execution}
    {done : Trail → Attempt α → Prop} (hw : t.writes = w₀) (hread : t.read = some base)
    (href : t.refused = some (p, f)) (hproposes : fn.Proposes base) :
    (abandon base operation failOnError f).Keeps (fn.terms id operation failOnError w₀)
      done (Mutation.Failed operation failOnError w₀) t := by
  cases failOnError with
  | false => cases f with
    | missingKey k => exact .clean hw
    | workflow e => exact .clean hw
    | _ => exact .clean hw
  | true => cases f with
    | missingKey k => exact .clean hw
    | workflow e => exact .clean hw
    | _ => exact keeps_bind (keeps_markFailed hw hread href hproposes rfl)

/-- One attempt: a fresh read, a decision on it, and a save of what was decided. -/
theorem keeps_attemptOnce (hw : t.writes = w₀) :
    (attemptOnce id fn operation failOnError).Keeps (fn.terms id operation failOnError w₀)
      (Tried fn w₀) (Mutation.Failed operation failOnError w₀) t := by
  refine keeps_bind (keeps_refresh ⟨hw, rfl⟩ (fun base => ?_) fun f => .clean hw)
  refine keeps_bind (keeps_draft ⟨hw, .inl ⟨base, rfl⟩⟩ (fun m r hr => ?_)
    fun m f _ => .clean hw)
  obtain ⟨o, a⟩ := r
  cases o with
  | none => exact .unchanged rfl rfl hr hw
  | some p =>
      refine keeps_bind (keeps_trySave ⟨hw, .inl ⟨base, m, a, rfl, rfl, hr, rfl⟩⟩
        (fun e => ?_) fun f => ?_)
      · refine .written rfl rfl hr ?_
        rw [hw]
      · show (if isConflict f then _ else _ : Client (Attempt α)).Keeps _ _ _ _
        by_cases hf : isConflict f
        · rw [if_pos hf]
          exact hw
        · rw [if_neg hf]
          exact keeps_abandon hw rfl rfl ⟨m, p, a, hr⟩

/-- A wait between attempts asks the store for nothing. -/
theorem keeps_waitForRetry {done : Trail → Unit → Prop} {settings : EngineSettings}
    {attempt : Nat} (hw : t.writes = w₀) (hdone : done t ()) :
    (waitForRetry settings attempt).Keeps (fn.terms id operation failOnError w₀) done
      (Mutation.Failed operation failOnError w₀) t := by
  refine keeps_bind (keeps_draw ⟨hw, trivial⟩ fun u => ?_)
  split
  · exact keeps_sleep ⟨hw, trivial⟩ fun _ => hdone
  · exact .clean hw

/-- The attempts, by induction on how many are left: each begins with nothing
    written. -/
theorem keeps_attemptCommit {g : Engine} {deadline : Binary64} (retries attempt : Nat)
    (hw : t.writes = w₀) :
    (attemptCommit g id fn operation failOnError deadline attempt retries).Keeps
      (fn.terms id operation failOnError w₀) (fn.Settled w₀)
      (Mutation.Failed operation failOnError w₀) t := by
  induction retries generalizing attempt t with
  | zero =>
      refine keeps_bind (keeps_mono (keeps_attemptOnce hw) (fun _ _ h => h)
        (fun t' r hr => ?_) fun _ _ h => h)
      cases r with
      | settled e a => exact hr
      | conflicted base f => exact .clean hr
  | succ retries ih =>
      refine keeps_bind (keeps_mono (keeps_attemptOnce hw) (fun _ _ h => h)
        (fun t' r hr => ?_) fun _ _ h => h)
      cases r with
      | settled e a => exact hr
      | conflicted base f =>
          have hw' : t'.writes = w₀ := hr
          refine keeps_bind (keeps_elapsed ⟨hw', trivial⟩ fun clock => ?_)
          show (if isPast clock deadline then _ else _ : Client (Execution × α)).Keeps
            _ _ _ _
          by_cases hp : isPast clock deadline
          · rw [if_pos hp]
            exact .clean hw'
          · rw [if_neg hp]
            exact keeps_bind (keeps_waitForRetry hw' (ih (attempt + 1) hw'))

/-- A mutation stays within its terms, whatever it is answered, and ends with its
    one write, with none, or with a failure that left at most the mark. -/
theorem keeps_mutate (g : Engine) (id : Value) (fn : Mutation α) (operation : String)
    (failOnError : Bool) (t : Trail) :
    (g.mutate id fn operation failOnError).Keeps
      (fn.terms id operation failOnError t.writes) (fn.Settled t.writes)
      (Mutation.Failed operation failOnError t.writes) t :=
  keeps_bind (keeps_elapsed ⟨rfl, trivial⟩ fun _ => keeps_attemptCommit _ 1 rfl)

end Engine

end Workflow
