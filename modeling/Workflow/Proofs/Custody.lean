import Workflow.Proofs.Ledger
import Workflow.Proofs.Lineage
import Workflow.Proofs.Mirror

/-! # Custody — the ledgers of all executions in a run

    A client decides on a snapshot at a moment between its reading and its writing, and
    draws the id of a checkpoint then.  The heart is `Custody`: the ledger of that
    snapshot knows only ids that had been drawn by that moment, so each new id is one
    that the ledger does not have yet. -/

namespace Workflow

variable {ι : Type} {g : Engine} {ops : ι → Operation} {base p : Execution} {m : Moment}

/-! ## Ledgers in a run -/

/-- Was the snapshot decided on at this moment, in universal time, with all ids of its
    ledger drawn before? -/
structure Timely (base : Execution) (m : Moment) : Prop where
  universal : m.time.offset = some 0
  counted   : m.before.checkpoints ≤ m.after.checkpoints
  ledger    : ∃ ds, Ledger m.before.checkpoints ds base

/-- What a client may make of a snapshot. -/
def Makes (g : Engine) (ops : ι → Operation) (i : ι) (base p : Execution) : Prop :=
  ∃ m, Timely base m ∧ Change g base m (ops i) p

/-- What any client may make of a snapshot has a ledger. -/
theorem Makes.ledger
    (hkeys : ∀ name d, g.registry.get? name = some d → ∀ k ∈ d.requiredKeys,
      isReservedName k = false)
    {i : ι} (h : Makes g ops i base p) {n : Nat} {ds : List Value} (hbase : Ledger n ds base) :
    ∃ n' ds', Ledger n' ds' p ∧ (ops i).Relists g ds ds' := by
  obtain ⟨m, htimely, hchange⟩ := h
  obtain ⟨ds₀, hledger⟩ := htimely.ledger
  obtain ⟨ds', hds', hrelists⟩ :=
    hledger.of_change (g.unreserved_of_registry hkeys _) hchange htimely.universal
      htimely.counted
  exact ⟨_, ds', hds', hledger.unique hbase ▸ hrelists.relists⟩

/-- What a store shows of an execution with a ledger has the same one. -/
theorem Store.Mirrors.ledger {d : Display} {store : Store} {kept : MemoryStore}
    {e e' : Execution} {n : Nat} {ds : List Value} (h : store.Mirrors d kept)
    (hledger : Ledger n ds e) (hshows : d.Shows e e') : Ledger n ds e' := by
  cases h with
  | memory _ =>
      obtain rfl : e = e' := hshows
      exact hledger
  | table _ =>
      obtain ⟨_, hreread⟩ := hshows
      exact hledger.reread hreread

variable [DecidableEq ι]

/-! ## What clients know -/

/-- Ids that were drawn stay drawn. -/
theorem Operation.terms_drawn {w : World} {t : Trail} {q : Request} {op : Operation}
    (hq : op.terms g t q) : w.serials.checkpoints ≤ (w.answer q).2.serials.checkpoints := by
  rw [World.answer_serials]
  cases q with
  | moment use => exact hq w.now w.serials
  | _ => exact Nat.le_refl _

/-- Every snapshot that a client has read has a property at the number of ids drawn by
    now; clients decided in universal time, on snapshots that had it at the number of ids
    drawn by then. -/
structure Informed (P : Nat → Execution → Prop) (w : World) (es : List (Event ι)) : Prop where
  reads   : ∀ i base, (Trail.of es i).read = some base → P w.serials.checkpoints base
  times   : ∀ i m, (Trail.of es i).moment = some m → m.time.offset = some 0
  moments : ∀ i base m, (Trail.of es i).read = some base → (Trail.of es i).moment = some m →
    P m.before.checkpoints base ∧ m.before.checkpoints ≤ m.after.checkpoints ∧
      m.after.checkpoints ≤ w.serials.checkpoints

namespace Informed

variable {P : Nat → Execution → Prop} {w : World} {es : List (Event ι)}

theorem start (w : World) : Informed P w ([] : List (Event ι)) := by
  refine ⟨?_, ?_, ?_⟩
  · intro _ _ h
    exact nomatch h
  · intro _ _ h
    exact nomatch h
  · intro _ _ _ h
    exact nomatch h

/-- A property that stays as more ids are drawn stays with all clients, when whatever is
    loaded has it. -/
theorem step (h : Informed P w es) (hmono : ∀ {n n' e}, n ≤ n' → P n e → P n' e)
    (huniversal : w.now.offset = some 0) {i : ι} {q : Request}
    (hq : (ops i).terms g (Trail.of es i) q)
    (hloaded : ∀ base, (⟨i, q, (w.answer q).1, w.now⟩ : Event ι).shown? = some base →
      P w.serials.checkpoints base) :
    Informed P (w.answer q).2 (es ++ [⟨i, q, (w.answer q).1, w.now⟩]) := by
  have hdrawn := Operation.terms_drawn (w := w) hq
  refine ⟨?_, ?_, ?_⟩
  · intro j base hread
    rcases Trail.read_of_concat hread with hread | hshown
    · exact hmono hdrawn (h.reads j base hread)
    · exact hmono hdrawn (hloaded base hshown)
  · intro j m hm
    rcases Trail.moment_of_concat hm with hm | hm
    · exact h.times j m hm
    · cases q with
      | moment use =>
          rw [← Option.some.inj hm]
          exact huniversal
      | _ => exact nomatch hm
  · intro j base m hread hm
    have hbefore := (Trail.read_of_moment hm).symm.trans hread
    rcases Trail.moment_of_concat hm with hm | hm
    · obtain ⟨hP, hcount, hafter⟩ := h.moments j base m hbefore hm
      exact ⟨hP, hcount, Nat.le_trans hafter hdrawn⟩
    · cases q with
      | moment use =>
          rw [← Option.some.inj hm]
          exact ⟨h.reads j base hbefore, hq w.now w.serials, Nat.le_refl _⟩
      | _ => exact nomatch hm

end Informed

/-! ## Custody -/

/-- Every stored execution and every snapshot that a client has read has a ledger of
    ids drawn by now, those that clients decided on one of ids drawn by then; and the
    commits to any execution are in line. -/
structure Custody (d : Display) (g : Engine) (ops : ι → Operation) (w : World)
    (es : List (Event ι)) : Prop where
  stored  : ∃ m, w.store.Mirrors d m ∧ Linked m es ∧ (∀ id, Line d (Makes g ops) id m es) ∧
    ∀ e ∈ m.executions, ∃ ds, Ledger w.serials.checkpoints ds e
  reads   : ∀ i base, (Trail.of es i).read = some base →
    ∃ ds, Ledger w.serials.checkpoints ds base
  times   : ∀ i m, (Trail.of es i).moment = some m → m.time.offset = some 0
  moments : ∀ i base m, (Trail.of es i).read = some base → (Trail.of es i).moment = some m →
    Timely base m ∧ m.after.checkpoints ≤ w.serials.checkpoints

namespace Custody

variable {d : Display} {c : Climate} {w : World} {es : List (Event ι)} {q : Request} {i : ι}

/-- So clients know of ledgers. -/
theorem informed (h : Custody d g ops w es) :
    Informed (fun n e => ∃ ds, Ledger n ds e) w es := by
  refine ⟨h.reads, h.times, ?_⟩
  intro i base m hread hm
  obtain ⟨htimely, hafter⟩ := h.moments i base m hread hm
  exact ⟨htimely.ledger, htimely.counted, hafter⟩

/-- What a client offers has a ledger of ids drawn by now. -/
theorem offered
    (hkeys : ∀ name d, g.registry.get? name = some d → ∀ k ∈ d.requiredKeys,
      isReservedName k = false)
    (h : Custody d g ops w es) {v : Int} (hq : (ops i).terms g (Trail.of es i) (.save p v)) :
    ∃ base ds, (Trail.of es i).read = some base ∧ Makes g ops i base p ∧ p.id = base.id ∧
      v = base.version ∧ Ledger w.serials.checkpoints ds p := by
  obtain ⟨base, mo, hread, hmo, hchange, hv⟩ := hq
  obtain ⟨htimely, hafter⟩ := h.moments i base mo hread hmo
  obtain ⟨ds, hds⟩ := htimely.ledger
  obtain ⟨ds', hds', _⟩ := hds.of_change (g.unreserved_of_registry hkeys _) hchange
    htimely.universal htimely.counted
  exact ⟨base, ds', hread, ⟨mo, htimely, hchange⟩, hchange.id_eq.1, hv, hds'.mono hafter⟩

/-- So what goes into the store lasts there. -/
theorem lasts
    (hkeys : ∀ name d, g.registry.get? name = some d → ∀ k ∈ d.requiredKeys,
      isReservedName k = false)
    (h : Custody d g ops w es) (hq : (ops i).terms g (Trail.of es i) q) : q.Lasts := by
  cases q with
  | insert e =>
      obtain ⟨mo, hmo, hcreates⟩ := hq
      obtain ⟨_, hhistory, hcreated, hupdated⟩ := hcreates.fresh
      refine ⟨fun r hr => ?_, hcreated ▸ h.times i mo hmo, hupdated ▸ h.times i mo hmo⟩
      rw [hhistory] at hr
      exact absurd hr List.not_mem_nil
  | save p v =>
      obtain ⟨_, _, _, _, _, _, hledger⟩ := h.offered hkeys hq
      exact hledger.history
  | _ => exact trivial

/-- Custody is kept by every request that a client makes within its terms. -/
theorem step
    (hkeys : ∀ name d, g.registry.get? name = some d → ∀ k ∈ d.requiredKeys,
      isReservedName k = false)
    (hspares : c.Spares) (hfail : ∀ f, c.trouble (.fail f))
    (huniversal : ∀ t, c.calendar t → t.offset = some 0)
    (h : Custody d g ops w es) (hallows : c.Allows w)
    (hq : (ops i).terms g (Trail.of es i) q) :
    Custody d g ops (w.answer q).2 (es ++ [⟨i, q, (w.answer q).1, w.now⟩]) := by
  obtain ⟨m, hm, hlink, hlines, hledgers⟩ := h.stored
  have hdrawn := Operation.terms_drawn (w := w) hq
  have hid : q.OwnsId := Operation.terms_ownsId hq fun base hread => (hlink.reads i base hread).1
  obtain ⟨m', hm', hstep⟩ := World.answer_mirrors hspares hfail hallows
    (huniversal _ hallows.1) hm hid (h.lasts hkeys hq)
  have hoffer : ∀ p v, q = .save p v → ∃ base, (Trail.of es i).read = some base ∧
      Makes g ops i base p ∧ p.id = base.id ∧ v = base.version := by
    rintro p v rfl
    obtain ⟨base, _, hread, hmakes, hbase, hv, _⟩ := h.offered hkeys hq
    exact ⟨base, hread, hmakes, hbase, hv⟩
  have hinformed := h.informed.step (P := fun n e => ∃ ds, Ledger n ds e)
    (fun hn ⟨ds, hds⟩ => ⟨ds, hds.mono hn⟩) (huniversal _ hallows.1) hq fun base hshown => by
      obtain ⟨_, _, hget, _⟩ := hstep.shown hshown
      exact hledgers base (MemoryStore.mem_of_get? hget)
  refine ⟨⟨m', hm', hlink.step hstep hid, fun id => (hlines id).step hlink hstep hid hoffer,
    fun e he => ?_⟩, fun j base hread => ?_, fun j mo hmo => ?_, fun j base mo hread hmo => ?_⟩
  · -- what is stored was stored before, or has been created or offered by this request
    rcases hstep.mem he with he | ⟨x, rfl, hshows⟩ | ⟨p, v, rfl, hshows⟩
    · obtain ⟨ds, hds⟩ := hledgers e he
      exact ⟨ds, hds.mono hdrawn⟩
    · obtain ⟨mo, _, hcreates⟩ := hq
      exact ⟨[], hm.ledger (.of_creates hcreates _) hshows⟩
    · obtain ⟨_, ds, _, _, _, _, hds⟩ := h.offered hkeys hq
      exact ⟨ds, hm.ledger ((hds.committed v w.now).mono hdrawn) hshows⟩
  · exact hinformed.reads j base hread
  · exact hinformed.times j mo hmo
  · obtain ⟨hledger, hcount, hafter⟩ := hinformed.moments j base mo hread hmo
    exact ⟨⟨hinformed.times j mo hmo, hcount, hledger⟩, hafter⟩

end Custody

end Workflow
