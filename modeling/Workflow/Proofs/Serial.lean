import Workflow.Proofs.Mutation
import Workflow.Proofs.System

/-! # Serial — the mutations of an execution come one after the other

    Between the read and the save of a client any number of commits of others may
    lie, so what it offers may be old.  The heart is the link between what clients
    have read and what is stored: a snapshot that a client read is the stored one
    still, or has an earlier version, and then its offer is refused.  So what is
    committed was decided on exactly the snapshot in whose place it stands. -/

namespace Workflow

variable {ι : Type} {d : Display} {c : Climate} {m m' : MemoryStore} {now : Timestamp}
  {q : Request} {a : q.Answer}

/-! ## The link between reading and storing -/

/-- Does every execution stay under its id, as it is or in a later version? -/
def MemoryStore.Grows (m m' : MemoryStore) : Prop :=
  ∀ id e, m.get? id = some e →
    ∃ e', m'.get? id = some e' ∧ (e = e' ∨ e.version < e'.version)

theorem MemoryStore.Grows.refl (m : MemoryStore) : m.Grows m :=
  fun _ e he => ⟨e, he, .inl rfl⟩

/-- A replacement by a later version makes executions grow. -/
theorem MemoryStore.Grows.replace {cur e : Execution} (hcur : m.get? e.id = some cur)
    (hv : cur.version < e.version) : m.Grows (m.replace e) := by
  intro id x hx
  rw [MemoryStore.get?_replace]
  by_cases hid : id = e.id
  · rw [if_pos hid, hx]
    rw [hid, hcur] at hx
    exact ⟨_, rfl, .inr (Option.some.inj hx ▸ hv)⟩
  · rw [if_neg hid]
    exact ⟨x, hx, .inl rfl⟩

/-- Serving a request makes executions grow. -/
theorem StoreStep.grows (h : StoreStep d c m now q a m') (hq : q.OwnsId) : m.Grows m' := by
  cases h with
  | load id a _ => exact .refl m
  | inserted e hnew _ =>
      intro id x hx
      refine ⟨x, ?_, .inl rfl⟩
      rw [MemoryStore.get?_append, hx]
      rfl
  | uninserted e f => exact .refl m
  | saved p v hcur hv hshows =>
      have hid := (d.ownsId hshows (hq.committed v now)).2
      refine .replace (hid ▸ hcur) ?_
      rw [d.version hshows, Execution.committed_version, hv]
      omega
  | unsaved p v f _ => exact .refl m
  | quiet q a _ => exact .refl m

/-- Serving a request leaves every execution under an id of its own. -/
theorem StoreStep.owns (h : StoreStep d c m now q a m') (hq : q.OwnsId)
    (hm : ∀ e ∈ m.executions, e.OwnsId) : ∀ e ∈ m'.executions, e.OwnsId := by
  intro e he
  rcases h.mem he with he | ⟨x, rfl, hshows⟩ | ⟨p, v, rfl, hshows⟩
  · exact hm e he
  · exact (d.ownsId hshows hq).1
  · exact (d.ownsId hshows (Execution.OwnsId.committed hq v now)).1

/-- What an answer shows is stored. -/
theorem StoreStep.shown (hstep : StoreStep d c m now q a m') {i : ι} {base : Execution}
    (h : (⟨i, q, a, now⟩ : Event ι).shown? = some base) :
    ∃ id, q = .load id ∧ m.get? base.id = some base ∧ ∀ s, id = .str s → base.id = s := by
  cases hstep with
  | load id a hshown =>
      cases a with
      | error f => exact nomatch h
      | ok o =>
          obtain rfl : o = some base := h
          exact ⟨id, rfl, hshown base rfl⟩
  | quiet q a hq =>
      cases q with
      | load id => exact hq.elim
      | _ => exact nomatch h
  | _ => exact nomatch h

variable [DecidableEq ι]

/-- What is stored has ids of its own, and what a client has read is stored still,
    as it was or in a later version. -/
structure Linked (m : MemoryStore) (es : List (Event ι)) : Prop where
  owns  : ∀ e ∈ m.executions, e.OwnsId
  reads : ∀ i base, (Trail.of es i).read = some base → base.OwnsId ∧
    ∃ e, m.get? base.id = some e ∧ (base = e ∨ base.version < e.version)

namespace Linked

variable {es : List (Event ι)} {i : ι} {base e : Execution}

/-- A snapshot with the version of the stored one is the stored one. -/
theorem eq_of_version (h : Linked m es) (hread : (Trail.of es i).read = some base)
    (he : m.get? base.id = some e) (hv : e.version = base.version) : base = e := by
  obtain ⟨_, e', he', hlink⟩ := h.reads i base hread
  rw [he] at he'
  rw [← Option.some.inj he'] at hlink
  rcases hlink with hlink | hlink
  · exact hlink
  · omega

/-- An offer that goes through was decided on exactly what stands in its place. -/
theorem eq_of_saved {p cur : Execution} (h : Linked m es) (hcur : m.get? p.id = some cur)
    (hread : (Trail.of es i).read = some base) (hid : p.id = base.id)
    (hv : cur.version = base.version) : base = cur :=
  h.eq_of_version hread (hid ▸ hcur) hv

/-- What a client has read after a request is served: what the answer shows, or
    what was read before. -/
theorem read_of_concat (hstep : StoreStep d c m now q a m') {j : ι}
    (h : (Trail.of (es ++ [⟨i, q, a, now⟩]) j).read = some base) :
    (Trail.of es j).read = some base ∨
      ∃ id, q = .load id ∧ m.get? base.id = some base ∧ ∀ s, id = .str s → base.id = s := by
  rcases Trail.read_of_concat h with h | h
  · exact .inl h
  · exact .inr (hstep.shown h)

/-- The link is kept by every request that is served. -/
theorem step (h : Linked m es) (hstep : StoreStep d c m now q a m') (hq : q.OwnsId) :
    Linked m' (es ++ [⟨i, q, a, now⟩]) := by
  refine ⟨hstep.owns hq h.owns, fun j base hread => ?_⟩
  have hold : base.OwnsId ∧
      ∃ e, m.get? base.id = some e ∧ (base = e ∨ base.version < e.version) := by
    rcases read_of_concat hstep hread with hread | ⟨id, _, hbase, _⟩
    · exact h.reads j base hread
    · exact ⟨h.owns base (MemoryStore.mem_of_get? hbase), base, hbase, .inl rfl⟩
  obtain ⟨hbase, e, he, hlink⟩ := hold
  obtain ⟨e', he', hgrow⟩ := hstep.grows hq base.id e he
  refine ⟨hbase, e', he', ?_⟩
  rcases hlink with rfl | hlink
  · exact hgrow
  · rcases hgrow with rfl | hgrow
    · exact .inr hlink
    · exact .inr (Int.lt_trans hlink hgrow)

end Linked

/-! ## Mutations of one execution -/

/-- A mutation and how it is called. -/
structure MutationCall (α : Type) where
  mutation    : Mutation α
  operation   : String
  failOnError : Bool

namespace MutationCall

variable {α : Type}

/-- The call on an execution, as an operation. -/
def client (call : MutationCall α) (g : Engine) (id : Value) : Client (Execution × α) :=
  g.mutate id call.mutation call.operation call.failOnError

/-- Do the proposals leave the id of a snapshot with a text there? -/
def OwnsIds (call : MutationCall α) : Prop :=
  ∀ base m p a, base.OwnsId → call.mutation.Decides base m (some p) a → p.OwnsId

/-- Do the commits of a run account for what became of the call of a client?  A
    written result is one commit, of the proposal that came with the payload, and
    one to the execution when the proposal keeps its id; any other end is none. -/
def Accounts (call : MutationCall α) (es : List (Event ι)) (id : String)
    (i : ι) : Client (Execution × α) → Prop
  | .done (e, a) =>
      (∃ base m p now, call.mutation.Decides base m (some p) a ∧
        e = p.committed base.version now ∧
        commitsOf es i = [⟨i, now, ⟨p, base.version, e⟩⟩] ∧
        (p.id = id → ⟨i, now, ⟨p, base.version, e⟩⟩ ∈ commitsTo es id)) ∨
      (∃ m, call.mutation.Decides e m none a) ∧ commitsOf es i = []
  | .fail _      => commitsOf es i = []
  | .ask _ _     => commitsOf es i = []

end MutationCall

variable {α : ι → Type}

/-- Commits that each put the proposal of a call, decided on exactly the snapshot
    before, in its place, with the next version and the time of the commit. -/
inductive Serial (calls : ∀ i, MutationCall (α i)) (first : Execution) :
    List (Commit ι) → Execution → Prop where
  | start : Serial calls first [] first
  | commit {cs : List (Commit ι)} {last p : Execution} {m : Moment} {i : ι} {a : α i}
      (now : Timestamp) :
      Serial calls first cs last → (calls i).mutation.Decides last m (some p) a →
      Serial calls first
        (cs ++ [⟨i, now, ⟨p, last.version, p.committed last.version now⟩⟩])
        (p.committed last.version now)

/-- What holds at every point of a run of calls on one execution. -/
structure Serialised (calls : ∀ i, MutationCall (α i)) (id : String) (first : Execution)
    (w : World) (es : List (Event ι)) : Prop where
  stored  : ∃ m last, w.store = .memory m ∧ Linked m es ∧ m.get? id = some last ∧
    Serial calls first (commitsTo es id) last
  reads   : ∀ i base, (Trail.of es i).read = some base → base.id = id
  refused : ∀ i p f, (Trail.of es i).refused = some (p, f) →
    Engine.isStoreFailure f = false

namespace Serialised

variable {calls : ∀ i, MutationCall (α i)} {id : String} {first : Execution} {w : World}
  {es : List (Event ι)} {i : ι}

/-- What a call may ask for next leaves ids alone, for nothing has left a mark to
    offer. -/
theorem ownsId (h : Serialised calls id first w es) (howns : ∀ i, (calls i).OwnsIds)
    (hq : (calls i).mutation.terms (.str id) (calls i).operation (calls i).failOnError []
      (Trail.of es i) q) : q.OwnsId := by
  obtain ⟨m, last, _, hlink, _, _⟩ := h.stored
  cases q with
  | save p v =>
      rcases hq.2 with ⟨base, mo, a, hread, _, hd, _⟩ | ⟨_, base, f, ⟨_, p', _, _, _, hr, hf, _⟩, _⟩
      · exact howns i base mo p a (hlink.reads i base hread).1 hd
      · rw [h.refused i p' f hr] at hf
        exact nomatch hf
  | insert e => exact hq.2.elim
  | _ => trivial

/-- A commit to the execution puts what was decided on the last snapshot in its
    place. -/
theorem commit_step {m m' : MemoryStore} {last : Execution} {a : q.Answer}
    (hlink : Linked m es) (hlast : m.get? id = some last)
    (hserial : Serial calls first (commitsTo es id) last)
    (hreads : ∀ i base, (Trail.of es i).read = some base → base.id = id)
    (hrefused : ∀ i p f, (Trail.of es i).refused = some (p, f) →
      Engine.isStoreFailure f = false)
    (hq : (calls i).mutation.terms (.str id) (calls i).operation (calls i).failOnError []
      (Trail.of es i) q) (hstep : StoreStep .exact c m now q a m') :
    ∃ last', m'.get? id = some last' ∧
      Serial calls first (commitsTo (es ++ [⟨i, q, a, now⟩]) id) last' := by
  have hsame (h : (⟨i, q, a, now⟩ : Event ι).commit? = none) :
      commitsTo (es ++ [⟨i, q, a, now⟩]) id = commitsTo es id := by
    unfold commitsTo
    rw [commits_concat_none es h]
  cases hstep with
  | load id' a _ =>
      refine ⟨last, hlast, ?_⟩
      rw [hsame (by cases a <;> rfl)]
      exact hserial
  | inserted e _ _ => exact hq.2.elim
  | uninserted e f => exact hq.2.elim
  | unsaved p v f _ =>
      refine ⟨last, hlast, ?_⟩
      rw [hsame rfl]
      exact hserial
  | quiet q a hquiet =>
      refine ⟨last, hlast, ?_⟩
      rw [hsame (Event.commit?_quiet hquiet i a now)]
      exact hserial
  | @saved p v cur e' hcur hv hshows =>
      obtain rfl : p.committed v now = e' := hshows
      rcases hq.2 with ⟨base, mo, b, hread, _, hd, hbv⟩ |
        ⟨_, base, f, ⟨_, p', _, _, _, hr, hf, _⟩, _⟩
      · by_cases hp : p.id = id
        · -- The offer is to this execution: its base is the last snapshot.
          have hbase : base.id = id := hreads i base hread
          obtain rfl := hlink.eq_of_saved hcur hread (hp.trans hbase.symm) (hv.trans hbv)
          rw [hp, hlast] at hcur
          obtain rfl := Option.some.inj hcur
          refine ⟨p.committed v now, ?_, ?_⟩
          · rw [MemoryStore.get?_replace, Execution.committed_id, if_pos hp.symm, hlast]
            rfl
          · rw [commitsTo_concat_self es rfl hp]
            subst hbv
            exact .commit now hserial hd
        · refine ⟨last, ?_, ?_⟩
          · rw [MemoryStore.get?_replace, Execution.committed_id,
              if_neg (fun h => hp h.symm), hlast]
          · rw [commitsTo_concat_other es rfl hp]
            exact hserial
      · rw [hrefused i p' f hr] at hf
        exact nomatch hf

/-- A calm store refuses offers only for a conflict, or as it does not know the
    execution. -/
theorem refused_step {m m' : MemoryStore} {a : q.Answer} {i j : ι}
    (hrefused : ∀ i p f, (Trail.of es i).refused = some (p, f) →
      Engine.isStoreFailure f = false)
    (hid : q.OwnsId) (hstep : StoreStep .exact .calm m now q a m') {p : Execution} {f : Failure}
    (h : (Trail.of (es ++ [⟨i, q, a, now⟩]) j).refused = some (p, f)) :
    Engine.isStoreFailure f = false := by
  by_cases hij : i = j
  · rw [Trail.of_concat_self es (e := ⟨i, q, a, now⟩) hij] at h
    cases hstep with
    | load id a _ =>
        cases a with
        | error f => exact hrefused j p _ h
        | ok o =>
            cases o with
            | none => exact hrefused j p _ h
            | some x => exact nomatch h
    | inserted e _ _ => exact hrefused j p f h
    | uninserted e _ => exact hrefused j p f h
    | saved p' v _ _ _ => exact hrefused j p f h
    | unsaved p' v f' hf' =>
        obtain ⟨rfl, rfl⟩ := Prod.mk.inj (Option.some.inj h)
        rcases hf' with hf' | hf'
        · rcases MemoryStore.save_error hf' with hh | rfl | ⟨cur, _, _, rfl⟩
          · rw [(hid : p'.idValue = _)] at hh
            exact nomatch hh
          · rfl
          · rfl
        · exact nomatch hf'
    | quiet q a hq => exact hrefused j p f ((Trail.after_quiet hq _ a).2.1.symm.trans h)
  · rw [Trail.of_concat_other es (e := ⟨i, q, a, now⟩) hij] at h
    exact hrefused j p f h

/-- Every request of a call keeps the commits in order. -/
theorem step (h : Serialised calls id first w es) (hc : Climate.calm.Allows w)
    (howns : ∀ i, (calls i).OwnsIds)
    (hq : (calls i).mutation.terms (.str id) (calls i).operation (calls i).failOnError []
      (Trail.of es i) q) :
    Serialised calls id first (w.answer q).2
      (es ++ [⟨i, q, (w.answer q).1, w.now⟩]) := by
  have hid := h.ownsId howns hq
  obtain ⟨m, last, hm, hlink, hlast, hserial⟩ := h.stored
  obtain ⟨m', hm', hstep⟩ := World.answer_memory Climate.calm_spares hc hm hid
  obtain ⟨last', hlast', hserial'⟩ :=
    commit_step hlink hlast hserial h.reads h.refused hq hstep
  refine ⟨⟨m', last', hm', hlink.step hstep hid, hlast', hserial'⟩, ?_, ?_⟩
  · intro j base hread
    rcases Linked.read_of_concat hstep hread with hread | ⟨id', rfl, _, hid'⟩
    · exact h.reads j base hread
    · exact hid' id hq.2
  · intro j p f hf
    exact refused_step h.refused hid hstep hf

/-- The commits account for whatever became of a call. -/
theorem accounts {s₀ s : System ι fun i => Execution × α i} (hrun : s₀.Run c es s)
    (h : Serialised calls id first w es)
    (hk : (s.clients i).Keeps
      ((calls i).mutation.terms (.str id) (calls i).operation (calls i).failOnError [])
      ((calls i).mutation.Settled [])
      (Mutation.Failed (calls i).operation (calls i).failOnError []) (Trail.of es i)) :
    (calls i).Accounts es id i (s.clients i) := by
  cases hc : s.clients i with
  | ask q next =>
      rw [hc] at hk
      exact commitsOf_nil hk.1.1
  | fail f =>
      rw [hc] at hk
      cases hk with
      | clean hw => exact commitsOf_nil hw
      | marked _ hmark _ =>
          obtain ⟨_, p, _, _, _, hr, hf, _⟩ := hmark
          rw [h.refused i p _ hr] at hf
          exact nomatch hf
  | done r =>
      rw [hc] at hk
      cases hk with
      | unchanged _ _ hd hw => exact .inr ⟨⟨_, hd⟩, commitsOf_nil hw⟩
      | @written base p e m a _ _ hd hw =>
          obtain ⟨now, hof, he⟩ := hrun.commitsOf_singleton hw
          have hmem : (⟨i, now, ⟨p, base.version, e⟩⟩ : Commit ι) ∈ commits es :=
            (List.mem_filter.mp (hof ▸ List.mem_singleton_self _ :
              (⟨i, now, ⟨p, base.version, e⟩⟩ : Commit ι) ∈ commitsOf es i)).1
          refine .inl ⟨base, m, p, now, hd, he, hof, fun hp => ?_⟩
          refine List.mem_filter.mpr ⟨hmem, decide_eq_true ?_⟩
          rw [he]
          exact hp

end Serialised

/-- Any number of calls on one execution, served in any order while no store fails:
    each commit to the execution is what its call decided on exactly the snapshot
    before it, with the next version and the time of the commit; and each call
    that came to a written result accounts for one commit, any other for none. -/
theorem mutations_serialise {g : Engine} {id : String} {calls : ∀ i, MutationCall (α i)}
    {w : World} {m : MemoryStore} {first : Execution} {es : List (Event ι)}
    {s : System ι fun i => Execution × α i} (howns : ∀ i, (calls i).OwnsIds)
    (hstore : w.store = .memory m) (hids : ∀ e ∈ m.executions, e.OwnsId)
    (hfirst : m.get? id = some first)
    (hrun : System.Run .calm ⟨w, fun i => (calls i).client g (.str id)⟩ es s) :
    (∃ m' last, s.world.store = .memory m' ∧ m'.get? id = some last ∧
      Serial calls first (commitsTo es id) last) ∧
    ∀ i, (calls i).Accounts es id i (s.clients i) := by
  have hkeeps (i : ι) := Engine.keeps_mutate g (.str id) (calls i).mutation
    (calls i).operation (calls i).failOnError {}
  obtain ⟨hinv, _, hk⟩ := hrun.invariant _ _ _ (Serialised calls id first) hkeeps
    ⟨⟨m, first, hstore, ⟨hids, fun _ _ h => nomatch h⟩, hfirst, .start⟩,
      (fun _ _ h => nomatch h), (fun _ _ _ h => nomatch h)⟩
    (fun w es now elapsed draw disturbances h => ⟨h.stored, h.reads, h.refused⟩)
    (fun w es i q h hc hq => h.step hc howns hq)
  obtain ⟨m', last, hm', _, hlast, hserial⟩ := hinv.stored
  exact ⟨⟨m', last, hm', hlast, hserial⟩, fun i => hinv.accounts hrun (hk i)⟩

/-- A call that suspends an active execution. -/
def pauseCall : MutationCall (List String) :=
  ⟨Engine.statusMutation .active .paused, "pause", false⟩

theorem pauseCall_ownsIds : pauseCall.OwnsIds := by
  intro base m p a hbase h
  unfold Mutation.Decides pauseCall Engine.statusMutation at h
  dsimp only at h
  split at h
  · obtain ⟨h, _⟩ := Draft.runAt_pure_ok.mp h
    rw [← Option.some.inj (Prod.mk.inj h).1]
    exact hbase
  · obtain ⟨h, _⟩ := Draft.runAt_pure_ok.mp h
    exact nomatch (Prod.mk.inj h).1

/-- An execution that nobody has moved. -/
def pendingReview : Execution :=
  { id := "exec-1", workflowName := .str "review", subject := .subject "Document" "7"
    currentStep := .str "draft", status := .active, context := .dict [], history := []
    assignedActor := none, version := 0, createdAt := .defaultNow, updatedAt := .defaultNow }

/-- Three clients that are to suspend it, without a second attempt. -/
def threePauses : System (Fin 3) fun _ => Execution × List String :=
  ⟨{ store := .memory ⟨[pendingReview]⟩ }, fun _ => pauseCall.client
    { settings := { engine := { maxConflictRetries := 1 } } } (.str "exec-1")⟩

/-- Two of them decide on the same snapshot and the third on what came of it: the
    first commits, the second gives up, the third has nothing to write. -/
theorem threePauses_serialise :
    let r := threePauses.follow [0, 1, 0, 1, 0, 1, 0, 1, 2, 2, 2]
    ((∃ m' last, r.2.world.store = .memory m' ∧ m'.get? "exec-1" = some last ∧
        Serial (fun _ => pauseCall) pendingReview (commitsTo r.1 "exec-1") last) ∧
      ∀ i, pauseCall.Accounts r.1 "exec-1" i (r.2.clients i)) ∧
    (commitsTo r.1 "exec-1").map (·.client) = [0] := by
  intro r
  have hcalm : Climate.calm.Allows threePauses.world :=
    ⟨trivial, fun d h => absurd h List.not_mem_nil⟩
  have hrun : System.Run .calm threePauses r.1 r.2 := .of_schedule hcalm _
  have hids : ∀ e ∈ [pendingReview], e.OwnsId := by
    intro e he
    rw [List.mem_singleton.mp he]
    rfl
  exact ⟨mutations_serialise (w := threePauses.world) (fun _ => pauseCall_ownsIds) rfl hids
    rfl hrun, rfl⟩

end Workflow
