import Workflow.Proofs.Alone
import Workflow.Proofs.Reread

/-! # Settle — the attempt that a mutation ends with

    A mutation that comes to a result has lost some attempts and settled in the last one.
    Lost attempts write nothing, so what they keep of the world holds when the last one
    begins, and that one alone tells the result: what was read, what was decided on it,
    and what was saved in its place.

    The heart is `run_mutate_settles`; `settles_spared` says it of a world where saves may
    fail, `settles_contested` of one where other writers come in between as well. -/

namespace Workflow

open Client

variable {α : Type} {g : Engine} {id : Value} {fn : Mutation α} {operation : String}
  {failOnError : Bool} {w w' : World} {base p e : Execution} {a : α} {v : Int} {f : Failure}
  {c : Climate}

/-- A save that is refused by the store changes nothing. -/
theorem World.commit_error (h : w.commit p v = (.error f, w')) : (w.commit p v).2 = w := by
  unfold commit at h ⊢
  split
  · rename_i hs
    rw [hs] at h
    exact nomatch (Prod.mk.inj h).1
  · rfl

/-- A save that reaches the store and goes through is one of the store. -/
theorem World.commit_ok (h : w.commit p v = (.ok e, w')) :
    w.store.save w.now p v = .ok (e, w'.store) := by
  unfold commit at h
  split at h
  · rename_i hs
    obtain ⟨he, rfl⟩ := Prod.mk.inj h
    rw [hs, Except.ok.inj he]
  · exact nomatch (Prod.mk.inj h).1

namespace Engine

/-! ## One attempt -/

/-- How an attempt in a world comes to a result: with nothing proposed on what was read,
    or with the proposal saved over its version. -/
inductive Settles (id : Value) (fn : Mutation α) (w : World) : Execution → α → World → Prop where
  | unchanged {base : Execution} {a : α} {s : Serials} :
      w.store.find? w.now id = .ok (some base) →
      (fn base).runAt w.now w.serials = (.ok (none, a), s) →
      Settles id fn w base a { w with serials := s }
  | written {base p e : Execution} {a : α} {s : Serials} {w' : World} :
      w.store.find? w.now id = .ok (some base) →
      (fn base).runAt w.now w.serials = (.ok (some p, a), s) →
      { w with serials := s }.save p base.version = (.ok e, w') →
      Settles id fn w e a w'

theorem run_draft_inv {d : Draft α} (h : (draft d).run w = (.ok a, w')) :
    ∃ s, d.runAt w.now w.serials = (.ok a, s) ∧ w' = { w with serials := s } := by
  obtain ⟨ha, hw⟩ := run_ofExcept_inv (w := { w with serials := _ }) h
  exact ⟨_, Prod.ext ha rfl, hw⟩

/-- An attempt that is given up comes to no result. -/
theorem run_abandon_ne {r : Attempt α} :
    (abandon base operation failOnError f : Client (Attempt α)).run w ≠ (.ok r, w') := by
  intro h
  cases failOnError with
  | false => cases f with
    | missingKey k => exact nomatch (Prod.mk.inj h).1
    | workflow e => exact nomatch (Prod.mk.inj h).1
    | _ => exact nomatch (Prod.mk.inj h).1
  | true => cases f with
    | missingKey k => exact nomatch (Prod.mk.inj h).1
    | workflow e => exact nomatch (Prod.mk.inj h).1
    | _ =>
        -- the mark is left, or not, and then the attempt fails
        obtain ⟨_, _, _, h⟩ := run_bind_inv h
        exact nomatch (Prod.mk.inj h).1

/-- What an attempt comes to that does not fail: it settles, or a save of it was refused. -/
theorem run_attemptOnce_inv {r : Attempt α}
    (h : (attemptOnce id fn operation failOnError).run w = (.ok r, w')) :
    (∃ e a, r = .settled e a ∧ Settles id fn w e a w') ∨
      ∃ base p f s, r = .conflicted base f ∧
        { w with serials := s }.save p base.version = (.error f, w') := by
  obtain ⟨base, w₁, hread, hdecide⟩ := run_bind_inv h
  obtain ⟨hfind, hw₁⟩ := run_refresh_inv hread
  rw [hw₁] at hdecide
  obtain ⟨⟨o, a⟩, w₂, hdraft, hoffer⟩ := run_bind_inv hdecide
  obtain ⟨s, hdecides, rfl⟩ := run_draft_inv hdraft
  cases o with
  | none =>
      obtain ⟨hr, rfl⟩ := Prod.mk.inj hoffer
      exact .inl ⟨base, a, (Except.ok.inj hr).symm, .unchanged hfind hdecides⟩
  | some p =>
      obtain ⟨res, w₁, hsave, h⟩ := run_bind_inv hoffer
      obtain ⟨hres, hw⟩ : Except.ok ({ w with serials := s }.save p base.version).1 = .ok res ∧
          ({ w with serials := s }.save p base.version).2 = w₁ := Prod.mk.inj hsave
      have hsaved : { w with serials := s }.save p base.version = (res, w₁) :=
        Prod.ext (Except.ok.inj hres) hw
      -- of the failures only a conflict is an answer, all others end the mutation
      cases res with
      | ok e =>
          obtain ⟨hr, rfl⟩ := Prod.mk.inj h
          exact .inl ⟨e, a, (Except.ok.inj hr).symm, .written hfind hdecides hsaved⟩
      | error f =>
          dsimp only at h
          split at h
          · obtain ⟨hr, rfl⟩ := Prod.mk.inj h
            exact .inr ⟨base, p, f, s, (Except.ok.inj hr).symm, hsaved⟩
          · exact absurd h run_abandon_ne

/-! ## Attempt after attempt -/

/-- A wait that does not fail moves the monotonic clock. -/
theorem run_waitForRetry_inv {settings : EngineSettings} {attempt : Nat} {u : Unit}
    (h : (waitForRetry settings attempt).run w = (.ok u, w')) : ∃ delay, w' = w.sleep delay := by
  obtain ⟨x, w₁, hdraw, h⟩ := run_bind_inv h
  obtain ⟨_, hw₁⟩ := Prod.mk.inj (show (Except.ok w.draw, w) = (.ok x, w₁) from hdraw)
  rw [← hw₁] at h
  split at h
  · rename_i delay _
    exact ⟨delay, (Prod.mk.inj h).2.symm⟩
  · exact nomatch (Prod.mk.inj h).1

/-- What refused saves and waits keep of the world holds when the last attempt begins, by
    induction on the attempts that are left. -/
theorem run_attemptCommit_settles {I : World → Prop} {deadline : Binary64} {retries attempt : Nat}
    (hlost : ∀ w w' p v s f, I w → { w with serials := s }.save p v = (.error f, w') → I w')
    (hwait : ∀ w delay, I w → I (w.sleep delay)) (hw : I w)
    (h : (g.attemptCommit id fn operation failOnError deadline attempt retries).run w =
      (.ok (e, a), w')) : ∃ w₀, I w₀ ∧ Settles id fn w₀ e a w' := by
  induction retries generalizing attempt w with
  | zero =>
      -- this attempt is the last one, so it must not be refused
      obtain ⟨r, w₁, hattempt, h⟩ := run_bind_inv h
      rcases run_attemptOnce_inv hattempt with ⟨e', a', rfl, hsettles⟩ | ⟨_, _, f, _, rfl, _⟩
      · obtain ⟨hea, rfl⟩ := Prod.mk.inj h
        obtain ⟨rfl, rfl⟩ := Prod.mk.inj (Except.ok.inj hea)
        exact ⟨w, hw, hsettles⟩
      · exact nomatch (Prod.mk.inj h).1
  | succ retries ih =>
      obtain ⟨r, w₁, hattempt, h⟩ := run_bind_inv h
      rcases run_attemptOnce_inv hattempt with
        ⟨e', a', rfl, hsettles⟩ | ⟨current, p, f, s, rfl, hsave⟩
      · obtain ⟨hea, rfl⟩ := Prod.mk.inj h
        obtain ⟨rfl, rfl⟩ := Prod.mk.inj (Except.ok.inj hea)
        exact ⟨w, hw, hsettles⟩
      · have hw₁ := hlost w w₁ p current.version s f hw hsave
        obtain ⟨clock, w₂, hclock, h⟩ := run_bind_inv h
        obtain ⟨_, hw₂⟩ := Prod.mk.inj (show (Except.ok w₁.elapsed, w₁) = (.ok clock, w₂) from hclock)
        rw [← hw₂] at h
        split at h
        · exact nomatch (Prod.mk.inj h).1
        · obtain ⟨_, w₃, hwaited, hagain⟩ := run_bind_inv h
          obtain ⟨delay, rfl⟩ := run_waitForRetry_inv hwaited
          exact ih (hwait w₁ delay hw₁) hagain

theorem run_mutate_settles {I : World → Prop}
    (hlost : ∀ w w' p v s f, I w → { w with serials := s }.save p v = (.error f, w') → I w')
    (hwait : ∀ w delay, I w → I (w.sleep delay)) (hw : I w)
    (h : (g.mutate id fn operation failOnError).run w = (.ok (e, a), w')) :
    ∃ w₀, I w₀ ∧ Settles id fn w₀ e a w' := by
  obtain ⟨start, w₁, hstart, h⟩ := run_bind_inv h
  obtain ⟨_, hw₁⟩ := Prod.mk.inj (show (Except.ok w.elapsed, w) = (.ok start, w₁) from hstart)
  rw [← hw₁] at h
  exact run_attemptCommit_settles hlost hwait hw h

/-! ## With no other writer -/

/-- How a mutation comes to its result where saves at worst fail: it has read what is
    stored, and proposed nothing on it, or saved its proposal over that. -/
theorem settles_spared (hc : c.Spares) (hallows : c.Allows w)
    (h : (g.mutate id fn operation failOnError).run w = (.ok (e, a), w')) :
    ∃ base m o, w.store.find? w.now id = .ok (some base) ∧ fn.Decides base m o a ∧
      (o = none ∧ e = base ∧ w'.store = w.store ∨
        ∃ p, o = some p ∧ w.store.save w.now p base.version = .ok (e, w'.store)) := by
  have hlost (w₀ w₁ : World) (p : Execution) (v : Int) (s : Serials) (f : Failure)
      (h₀ : c.Allows w₀ ∧ w₀.now = w.now ∧ w₀.store = w.store)
      (hsave : { w₀ with serials := s }.save p v = (.error f, w₁)) :
      c.Allows w₁ ∧ w₁.now = w.now ∧ w₁.store = w.store := by
    have hallows₀ : c.Allows { w₀ with serials := s } := h₀.1
    obtain rfl : ({ w₀ with serials := s }.save p v).2 = w₁ := congrArg Prod.snd hsave
    refine ⟨Climate.allows_answer hallows₀ (.save p v),
      (World.answer_now { w₀ with serials := s } (.save p v)).trans h₀.2.1, ?_⟩
    -- it has not reached the store, or is refused there
    obtain ⟨ds, hcommit | ⟨f', _, hfail⟩⟩ := hc.save hallows₀ p v
    · rw [hcommit, World.commit_error (hcommit.symm.trans hsave)]
      exact h₀.2.2
    · rw [hfail]
      exact h₀.2.2
  obtain ⟨w₀, ⟨hallows₀, hnow, hstore⟩, hsettles⟩ := run_mutate_settles hlost
    (fun _ _ h => h) ⟨hallows, rfl, rfl⟩ h
  rw [← hnow, ← hstore]
  cases hsettles with
  | @unchanged _ _ s hfind hdecides =>
      exact ⟨e, ⟨w₀.now, w₀.serials, s⟩, none, hfind, hdecides, .inl ⟨rfl, rfl, rfl⟩⟩
  | @written base p _ _ s _ hfind hdecides hsave =>
      refine ⟨base, ⟨w₀.now, w₀.serials, s⟩, some p, hfind, hdecides, .inr ⟨p, rfl, ?_⟩⟩
      have hallows₀ : c.Allows { w₀ with serials := s } := hallows₀
      obtain ⟨ds, hcommit | ⟨f, _, hfail⟩⟩ := hc.save hallows₀ p base.version
      · exact World.commit_ok (w := { w₀ with serials := s, disturbances := ds })
          (hcommit.symm.trans hsave)
      · exact nomatch (Prod.mk.inj (hfail.symm.trans hsave)).1

/-! ## Among other writers -/

/-- How a world stands at the last attempt of a mutation that began in another one: under
    each id is one thing, and where no save meets trouble the store is what it was. -/
structure Pending (c : Climate) (w w₀ : World) : Prop where
  now    : w₀.now = w.now
  allows : c.Allows w₀
  keyed  : w₀.store.Keyed
  calm   : w.disturbances = [] → w₀.disturbances = [] ∧ w₀.store = w.store

namespace Pending

variable {w₀ w₁ : World} {s : Serials}

theorem start (hallows : c.Allows w) (hkeyed : w.store.Keyed) : Pending c w w :=
  ⟨rfl, hallows, hkeyed, fun h => ⟨h, rfl⟩⟩

theorem lost (hc : c.Contests) (h : Pending c w w₀)
    (hsave : { w₀ with serials := s }.save p v = (.error f, w₁)) : Pending c w w₁ := by
  have hallows : c.Allows { w₀ with serials := s } := h.allows
  obtain rfl : ({ w₀ with serials := s }.save p v).2 = w₁ := congrArg Prod.snd hsave
  refine ⟨?_, ?_, ?_, fun hcalm => ?_⟩
  · exact (World.answer_now { w₀ with serials := s } (.save p v)).trans h.now
  · exact Climate.allows_answer hallows (.save p v)
  · obtain ⟨w₂, _, hkeyed, _, hcommit | ⟨f', hfail⟩⟩ :=
      World.save_contested hc hallows h.keyed p v
    · rw [hcommit, World.commit_error (hcommit.symm.trans hsave)]
      exact hkeyed
    · rw [hfail]
      exact hkeyed
  · -- without trouble a save is a commit, and one that is refused changes nothing
    obtain ⟨hnone, hstore⟩ := h.calm hcalm
    have hcommit : { w₀ with serials := s }.save p v = { w₀ with serials := s }.commit p v := by
      unfold World.save
      rw [hnone]
    rw [hcommit, World.commit_error (hcommit.symm.trans hsave)]
    exact ⟨hnone, hstore⟩

theorem wait (h : Pending c w w₀) (delay : Number) : Pending c w (w₀.sleep delay) :=
  ⟨h.now, h.allows, h.keyed, h.calm⟩

end Pending

/-- How a mutation comes to its result among writers who leave ids alone: it has read a
    snapshot, and proposed nothing on it, or put its proposal in the place of exactly
    that. -/
theorem settles_contested (hc : c.Contests) (hallows : c.Allows w) (hkeyed : w.store.Keyed)
    (hids : ∀ base m p a, fn.Decides base m (some p) a →
      p.id = base.id ∧ p.idValue = base.idValue)
    (h : (g.mutate id fn operation failOnError).run w = (.ok (e, a), w')) :
    ∃ w₀ base old m o, Pending c w w₀ ∧ w₀.store.find? w.now id = .ok (some base) ∧
      w₀.store.slot? base.id = some old ∧ old.shownAt w.now = .ok base ∧
      m.time = w.now ∧ fn.Decides base m o a ∧
      (o = none ∧ e = base ∧ w'.store = w₀.store ∨
        ∃ p new, o = some p ∧ e = p.committed base.version w.now ∧ Slot.Becomes e old new ∧
          w'.store.slot? base.id = some new) := by
  obtain ⟨w₀, hpending, hsettles⟩ := run_mutate_settles (I := Pending c w)
    (fun _ _ _ _ _ _ hw hsave => hw.lost hc hsave) (fun _ delay hw => hw.wait delay)
    (.start hallows hkeyed) h
  rw [← hpending.now]
  cases hsettles with
  | @unchanged _ _ s hfind hdecides =>
      obtain ⟨old, hold, hshown⟩ := Store.shownAt_of_find? hfind
      exact ⟨w₀, _, old, ⟨w₀.now, w₀.serials, s⟩, none, hpending, hfind, hold, hshown, rfl,
        hdecides, .inl ⟨rfl, rfl, rfl⟩⟩
  | @written base p _ _ s _ hfind hdecides hsave =>
      obtain ⟨old, hold, hshown⟩ := Store.shownAt_of_find? hfind
      -- the proposal has the id of what was read, so it is saved in the same slot
      obtain ⟨hid, hvalue⟩ := hids base ⟨w₀.now, w₀.serials, s⟩ p a hdecides
      have howns := (Store.shows_of_find? hpending.keyed hfind).1.of_id_eq hid hvalue
      have hversion := (Slot.Shows.of_shownAt hshown).version_eq
      obtain ⟨he, _, new, hbecomes, hnew⟩ :=
        World.slots_of_save (w := { w₀ with serials := s }) hc hpending.allows hpending.keyed
          howns (hid ▸ hold) (Int.le_of_eq hversion) (congrArg Prod.fst hsave)
      rw [hsave, hid] at hnew
      exact ⟨w₀, base, old, ⟨w₀.now, w₀.serials, s⟩, some p, hpending, hfind, hold, hshown, rfl,
        hdecides, .inr ⟨p, new, rfl, he, hbecomes, hnew⟩⟩

end Engine

end Workflow
