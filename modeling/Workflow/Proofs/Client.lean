import Workflow.World

/-! # Client — what a running operation sees, and the terms it keeps

    An operation is a tree of requests, so what it does is told by recursion on
    that tree, whatever the answers are.  Its trail is what it has seen and done
    so far: the snapshot it read last, the moment at which it decided last, the
    offer that the store refused, and every write that went through.

    `Keeps` says that an operation never asks for anything beyond its terms,
    and what is true of its trail when it ends.  The terms of the parts of an
    operation add up by `keeps_bind`. -/

namespace Workflow

/-! ## Drafts, step by step -/

namespace Draft

variable {α β : Type}

/-- A draft and what goes on with its result, one after the other. -/
theorem runAt_bind (d : Draft α) (k : α → Draft β) (now : Timestamp) (s : Serials) :
    (d >>= k).runAt now s =
      match d.runAt now s with
      | (.ok a, s')    => (k a).runAt now s'
      | (.error f, s') => (.error f, s') := by
  cases h : d.runAt now s with
  | mk r s' =>
      have hd : d now s = (r, s') := h
      show (ExceptT.bindCont (fun a => k a now) (d now s).1 :
        StateM Serials (Except Failure β)) (d now s).2 = _
      rw [hd]
      cases r with
      | ok a => rfl
      | error f => rfl

theorem runAt_pure (a : α) (now : Timestamp) (s : Serials) :
    (pure a : Draft α).runAt now s = (.ok a, s) := rfl

theorem runAt_ofExcept (r : Except Failure α) (now : Timestamp) (s : Serials) :
    (Draft.ofExcept r).runAt now s = (r, s) := by
  cases r with
  | ok a => rfl
  | error f => rfl

/-- A result that is there without draws leads on to the sequel. -/
theorem runAt_ofExcept_bind {r : Except Failure α} {a : α} (hr : r = .ok a) (k : α → Draft β)
    (now : Timestamp) (s : Serials) :
    (Draft.ofExcept r >>= k).runAt now s = (k a).runAt now s := by
  rw [runAt_bind, runAt_ofExcept, hr]

theorem runAt_checkpointId (now : Timestamp) (s : Serials) :
    Draft.checkpointId.runAt now s =
      (.ok s!"cp-{s.checkpoints + 1}", { s with checkpoints := s.checkpoints + 1 }) := rfl

/-- A sequence of drafts has a result exactly when both parts have one. -/
theorem runAt_bind_ok {d : Draft α} {k : α → Draft β} {now : Timestamp}
    {s s'' : Serials} {b : β} :
    (d >>= k).runAt now s = (.ok b, s'') ↔
      ∃ a s', d.runAt now s = (.ok a, s') ∧ (k a).runAt now s' = (.ok b, s'') := by
  rw [runAt_bind]
  constructor
  · intro h
    cases hd : d.runAt now s with
    | mk r s' =>
        rw [hd] at h
        cases r with
        | ok a => exact ⟨a, s', rfl, h⟩
        | error f => exact nomatch h
  · rintro ⟨a, s', hd, hk⟩
    rw [hd]
    exact hk

/-- A result without draws that comes first must be there, and draws nothing. -/
theorem runAt_ofExcept_bind_ok {r : Except Failure α} {k : α → Draft β}
    {now : Timestamp} {s s' : Serials} {b : β} :
    (Draft.ofExcept r >>= k).runAt now s = (.ok b, s') ↔
      ∃ a, r = .ok a ∧ (k a).runAt now s = (.ok b, s') := by
  rw [runAt_bind_ok]
  constructor
  · rintro ⟨a, s₁, hr, hk⟩
    rw [runAt_ofExcept] at hr
    obtain ⟨hra, hs⟩ := Prod.mk.inj hr
    rw [← hs] at hk
    exact ⟨a, hra, hk⟩
  · rintro ⟨a, hr, hk⟩
    exact ⟨a, s, by rw [runAt_ofExcept, hr], hk⟩

/-- So does one of two drafts with the same sequel. -/
theorem runAt_ite_bind_ok {c : Prop} [Decidable c] {d d' : Draft α} {k : α → Draft β}
    {now : Timestamp} {s s'' : Serials} {b : β} :
    (if c then d >>= k else d' >>= k).runAt now s = (.ok b, s'') ↔
      ∃ a s', (if c then d else d').runAt now s = (.ok a, s') ∧
        (k a).runAt now s' = (.ok b, s'') := by
  by_cases hc : c
  · rw [if_pos hc, if_pos hc]
    exact runAt_bind_ok
  · rw [if_neg hc, if_neg hc]
    exact runAt_bind_ok

/-- A draft that ends in what was computed before. -/
theorem runAt_pure_ok {a b : α} {now : Timestamp} {s s' : Serials} :
    (pure a : Draft α).runAt now s = (.ok b, s') ↔ a = b ∧ s = s' := by
  rw [runAt_pure]
  constructor
  · intro h
    obtain ⟨ha, hs⟩ := Prod.mk.inj h
    exact ⟨Except.ok.inj ha, hs⟩
  · rintro ⟨rfl, rfl⟩
    rfl

/-! ## Ids that are drawn -/

/-- Does the draft leave at least as many checkpoint ids drawn as before?  Ids that
    are drawn later are then others. -/
def Counts (d : Draft α) : Prop :=
  ∀ now s, s.checkpoints ≤ (d.runAt now s).2.checkpoints

theorem Counts.bind {d : Draft α} {k : α → Draft β} (hd : d.Counts)
    (hk : ∀ a, (k a).Counts) : (d >>= k).Counts := by
  intro now s
  rw [runAt_bind]
  have hs := hd now s
  cases h : d.runAt now s with
  | mk r s' =>
      rw [h] at hs
      cases r with
      | ok a => exact Nat.le_trans hs (hk a now s')
      | error f => exact hs

theorem Counts.ite {c : Prop} [Decidable c] {d d' : Draft α} (hd : d.Counts)
    (hd' : d'.Counts) : (if c then d else d').Counts := by
  split
  · exact hd
  · exact hd'

theorem Counts.ite_bind {c : Prop} [Decidable c] {d d' : Draft α} {k : α → Draft β}
    (hd : d.Counts) (hd' : d'.Counts) (hk : ∀ a, (k a).Counts) :
    (if c then d >>= k else d' >>= k).Counts :=
  .ite (.bind hd hk) (.bind hd' hk)

theorem Counts.pure (a : α) : (Pure.pure a : Draft α).Counts := fun _ _ => Nat.le_refl _

theorem Counts.now : Draft.now.Counts := fun _ _ => Nat.le_refl _

theorem Counts.fail (f : Failure) : (Draft.fail f : Draft α).Counts := fun _ _ => Nat.le_refl _

theorem Counts.ofExcept (r : Except Failure α) : (Draft.ofExcept r).Counts :=
  fun now s => Nat.le_of_eq (congrArg (·.2.checkpoints) (runAt_ofExcept r now s).symm)

theorem Counts.checkpointId : Draft.checkpointId.Counts := fun _ s => Nat.le_succ s.checkpoints

theorem Counts.executionId : Draft.executionId.Counts := fun _ _ => Nat.le_refl _

end Draft

/-! ## Trails -/

/-- A write that went through: what was offered over which version, and what
    the store holds since. -/
structure Write where
  offered  : Execution
  expected : Int
  stored   : Execution

/-- A moment at which something was decided: the time, and how many ids had
    been drawn before and after. -/
structure Moment where
  time   : Timestamp
  before : Serials
  after  : Serials

/-- What an operation has seen of the store, and what it has done to it. -/
structure Trail where
  read    : Option Execution := none
  moment  : Option Moment := none
  refused : Option (Execution × Failure) := none
  writes  : List Write := []

namespace Trail

/-- The trail after one more request and its answer.  A fresh snapshot puts
    what was decided on the old one out of date. -/
def after (t : Trail) : (q : Request) → q.Answer → Trail
  | .load _,        .ok (some e) => { read := some e, writes := t.writes }
  | .moment use,    m            => { t with moment := some ⟨m.1, m.2, use m.1 m.2⟩ }
  | .save p v,      .ok e        => { t with writes := t.writes ++ [⟨p, v, e⟩] }
  | .save p _,      .error f     => { t with refused := some (p, f) }
  | _,              _            => t

end Trail

namespace Client

variable {α β : Type}

/-- Has the operation come to its end? -/
def hasEnded : Client α → Bool
  | .ask _ _ => false
  | _        => true

/-- The error that the operation has ended with, when it is one of the workflow's own. -/
def error? : Client α → Option WorkflowError
  | .fail (.workflow err) => some err
  | _                     => none

theorem error?_some {c : Client α} {err : WorkflowError} (h : c.error? = some err) :
    c = .fail (.workflow err) := by
  unfold error? at h
  split at h
  · rw [Option.some.inj h]
  · cases h

/-- What a world would store if the operation asks it for a save next. -/
def saved? (w : World) : Client α → Option Execution
  | .ask (.save p v) _ => (w.answer (.save p v)).1.toOption
  | _                  => none

theorem saved?_some {w : World} {c : Client α} {e : Execution} (h : c.saved? w = some e) :
    ∃ p v next, c = .ask (.save p v) next ∧ (w.answer (.save p v)).1 = .ok e := by
  unfold saved? at h
  split at h
  · rename_i p v next
    cases ha : (w.answer (.save p v)).1 with
    | ok x =>
        rw [ha] at h
        exact ⟨p, v, next, rfl, ha.trans (congrArg Except.ok (Option.some.inj h))⟩
    | error f =>
        rw [ha] at h
        cases h
  · cases h

/-! ## Terms -/

/-- What an operation may ask for after which trail. -/
abbrev Terms := Trail → Request → Prop

/-- The operation stays within its terms, whatever it is answered, and ends
    with a result or a failure that fits its trail. -/
def Keeps (may : Terms) (done : Trail → α → Prop) (fail : Trail → Failure → Prop) :
    Trail → Client α → Prop
  | t, .done a     => done t a
  | t, .fail f     => fail t f
  | t, .ask q next => may t q ∧ ∀ a, Keeps may done fail (t.after q a) (next a)

variable {may may' : Terms} {done done' : Trail → α → Prop}
  {fail fail' : Trail → Failure → Prop} {t : Trail}

/-- Every operation keeps to having no terms at all. -/
theorem keeps_any (c : Client α) (t : Trail) :
    c.Keeps (fun _ _ => True) (fun _ _ => True) (fun _ _ => True) t := by
  induction c generalizing t with
  | done a => exact trivial
  | fail f => exact trivial
  | ask q next ih => exact ⟨trivial, fun a => ih a _⟩

/-- Wider terms and weaker ends are kept as well. -/
theorem keeps_mono {c : Client α} (h : c.Keeps may done fail t)
    (hmay : ∀ t q, may t q → may' t q) (hdone : ∀ t a, done t a → done' t a)
    (hfail : ∀ t f, fail t f → fail' t f) : c.Keeps may' done' fail' t := by
  induction c generalizing t with
  | done a => exact hdone t a h
  | fail f => exact hfail t f h
  | ask q next ih => exact ⟨hmay t q h.1, fun a => ih a (h.2 a)⟩

/-- A sequence keeps the terms that its parts keep. -/
theorem keeps_bind {may : Terms} {done : Trail → β → Prop}
    {fail : Trail → Failure → Prop} {c : Client α} {k : α → Client β}
    (h : c.Keeps may (fun t a => (k a).Keeps may done fail t) fail t) :
    (c >>= k).Keeps may done fail t := by
  induction c generalizing t with
  | done a => exact h
  | fail f => exact h
  | ask q next ih => exact ⟨h.1, fun a => ih a (h.2 a)⟩

/-- So does an operation whose failures are taken up. -/
theorem keeps_recover {c : Client α} {k : Failure → Client α}
    (h : c.Keeps may done (fun t f => (k f).Keeps may done fail t) t) :
    (c.recover k).Keeps may done fail t := by
  induction c generalizing t with
  | done a => exact h
  | fail f => exact h
  | ask q next ih => exact ⟨h.1, fun a => ih a (h.2 a)⟩

theorem keeps_ofExcept {r : Except Failure α} (hok : ∀ a, r = .ok a → done t a)
    (herr : ∀ f, r = .error f → fail t f) : (ofExcept r).Keeps may done fail t := by
  cases r with
  | ok a => exact hok a rfl
  | error f => exact herr f rfl

/-! ## One request at a time -/

theorem keeps_load {done : Trail → Option Execution → Prop} {id : Value}
    (hmay : may t (.load id)) (hnone : done t none)
    (hsome : ∀ e, done { read := some e, writes := t.writes } (some e))
    (hfail : ∀ f, fail t f) : (load id).Keeps may done fail t := by
  refine ⟨hmay, fun r => ?_⟩
  cases r with
  | error f => exact hfail f
  | ok o =>
      cases o with
      | none => exact hnone
      | some e => exact hsome e

theorem keeps_trySave {done : Trail → Except Failure Execution → Prop} {p : Execution}
    {v : Int} (hmay : may t (.save p v))
    (hok : ∀ e, done { t with writes := t.writes ++ [⟨p, v, e⟩] } (.ok e))
    (herr : ∀ f, done { t with refused := some (p, f) } (.error f)) :
    (trySave p v).Keeps may done fail t := by
  refine ⟨hmay, fun r => ?_⟩
  cases r with
  | ok e => exact hok e
  | error f => exact herr f

theorem keeps_draft {d : Draft α} (hmay : may t (.moment fun now s => (d.runAt now s).2))
    (hok : ∀ (m : Moment) a, d.runAt m.time m.before = (.ok a, m.after) →
      done { t with moment := some m } a)
    (herr : ∀ (m : Moment) f, d.runAt m.time m.before = (.error f, m.after) →
      fail { t with moment := some m } f) : (draft d).Keeps may done fail t := by
  refine ⟨hmay, fun m => ?_⟩
  refine keeps_ofExcept (fun a h => ?_) (fun f h => ?_)
  · exact hok ⟨m.1, m.2, (d.runAt m.1 m.2).2⟩ a (Prod.ext h rfl)
  · exact herr ⟨m.1, m.2, (d.runAt m.1 m.2).2⟩ f (Prod.ext h rfl)

theorem keeps_elapsed {done : Trail → Binary64 → Prop} (hmay : may t .elapsed)
    (h : ∀ x, done t x) : elapsed.Keeps may done fail t := ⟨hmay, h⟩

theorem keeps_draw {done : Trail → Number → Prop} (hmay : may t .draw)
    (h : ∀ u, done t u) : draw.Keeps may done fail t := ⟨hmay, h⟩

theorem keeps_sleep {done : Trail → Unit → Prop} {delay : Number}
    (hmay : may t (.sleep delay)) (h : ∀ u, done t u) :
    (sleep delay).Keeps may done fail t := ⟨hmay, h⟩

theorem keeps_insert {done : Trail → Execution → Prop} {e : Execution}
    (hmay : may t (.insert e)) (hok : ∀ e, done t e) (herr : ∀ f, fail t f) :
    (insert e).Keeps may done fail t := by
  refine ⟨hmay, fun r => ?_⟩
  cases r with
  | ok e => exact hok e
  | error f => exact herr f

end Client

end Workflow
