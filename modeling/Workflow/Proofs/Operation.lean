import Workflow.Proofs.Change

/-! # Operation — what the operations ask of the store

    Whatever an operation is answered, all that it inserts is a new execution, and
    all that it saves is a change of the snapshot that it read last, over the
    version of that snapshot.  `keeps_client` says so of every operation at once;
    what holds of all changes holds then of everything stored. -/

namespace Workflow

open Client

namespace Operation

/-- What an operation comes to. -/
def Result : Operation → Type
  | .create ..           => Execution
  | .perform ..          => ActionResult
  | .mergeContext ..     => Execution
  | .pause _             => ActionResult
  | .resume _            => ActionResult
  | .createCheckpoint .. => String
  | .restore ..          => Engine.RecoveryResult
  | .autoRepair _        => RepairReport
  | .recover ..          => Engine.RecoveryResult

/-- An operation as a client. -/
def client (g : Engine) : (op : Operation) → Client op.Result
  | .create workflow subject actor context => g.create workflow subject actor context
  | .perform t action actor additional     => g.perform t action actor additional
  | .mergeContext t values                 => g.mergeContext t values
  | .pause t                               => g.pause t
  | .resume t                              => g.resume t
  | .createCheckpoint t label              => g.createCheckpoint t label
  | .restore t id force                    => g.restore t id force
  | .autoRepair t                          => g.autoRepair t
  | .recover t strategy target force       => g.recover t strategy target force

/-- What a creation may insert that was decided on at a moment. -/
def Creates (g : Engine) (m : Moment) (e : Execution) : Operation → Prop
  | .create workflow _ _ _ => ∃ d initial subject actor values,
      g.registry.get? workflow = some d ∧ d.initialStep? = some initial ∧
      contextProblems false values = [] ∧
      (Engine.newExecution d.name initial subject actor values).runAt m.time m.before =
        (.ok e, m.after)
  | _                      => False

/-- What an operation may ask for. -/
def terms (g : Engine) (op : Operation) : Client.Terms := fun t q =>
  match q with
  | .insert e   => ∃ m, t.moment = some m ∧ op.Creates g m e
  | .save p v   => ∃ base m, t.read = some base ∧ t.moment = some m ∧
      Change g base m op p ∧ v = base.version
  | .moment use => ∀ now s, s.checkpoints ≤ (use now s).checkpoints
  | _           => True

/-- Is the operation an action on its workflow? -/
def IsPerform : Operation → Prop
  | .perform .. => True
  | _           => False

/-- Does the operation put an old state in place? -/
def IsRestore : Operation → Prop
  | .restore .. => True
  | _           => False

/-- How an operation ends that comes to a result: an action as `Acted` says, a new
    checkpoint by one write over the snapshot that was read last, a move by one write. -/
def Ends (g : Engine) (w₀ : List Write) : (op : Operation) → Trail → op.Result → Prop
  | .perform _ action actor additional, t, r => g.Acted action actor additional w₀ t r
  | .createCheckpoint _ _, t, id => ∃ base m entries context c e,
      t.read = some base ∧ t.moment = some m ∧ base.context = .dict entries ∧
      g.Stows base m m.before entries c context ∧ c.id = id ∧
      t.writes = w₀ ++ [⟨{ base with context := .dict context }, base.version, e⟩]
  | .recover _ word _ _, t, _ => Strategy.ofText? word ≠ some .manual →
      ∃ x, t.writes = w₀ ++ [x]
  | _,                     _, _  => True

/-- How an operation ends that fails: an action with nothing written or with its mark. -/
def Fails (w₀ : List Write) : Operation → Trail → Failure → Prop
  | .perform _ action _ _, t, f => Mutation.Failed s!"action {action.display}" true w₀ t f
  | _,                     _, _ => True

/-- What an operation may ask for that began with these writes: an action asks for
    nothing more once it has written. -/
def onceTerms (g : Engine) (w₀ : List Write) (op : Operation) : Client.Terms := fun t q =>
  op.terms g t q ∧ (op.IsPerform → t.writes = w₀)

variable {g : Engine} {op : Operation} {t : Trail} {α : Type} {fn : Mutation α}
  {id : Value} {operation : String} {failOnError : Bool}

/-- A mutation asks for what an operation may ask for when all that it decides to
    write, and the mark that it may leave, are changes of that operation. -/
theorem terms_of_mutation {w₀ : List Write} {q : Request}
    (hchange : ∀ base m p a, fn.Decides base m (some p) a → Change g base m op p)
    (hmark : failOnError = true → ∀ base m f context, fn.Proposes base →
      Engine.failedContext base operation f m.time = .ok context →
      Change g base m op { base with status := .failed, context })
    (hcounts : ∀ base, (fn base).Counts)
    (hq : fn.terms id operation failOnError w₀ t q) : op.terms g t q := by
  cases q with
  | insert e => exact hq.2.elim
  | save p v =>
      rcases hq.2 with ⟨base, m, a, hread, hm, hd, hv⟩ |
        ⟨hfail, base, f, ⟨m, refused, context, hread, hm, _, _, hcontext, hp⟩, hproposes, hv⟩
      · exact ⟨base, m, hread, hm, hchange base m p a hd, hv⟩
      · exact ⟨base, m, hread, hm, hp ▸ hmark hfail base m f context hproposes hcontext, hv⟩
  | moment use =>
      rcases hq.2 with ⟨base, huse⟩ | huse
      · rw [huse]
        exact hcounts base
      · rw [huse]
        exact fun _ _ => Nat.le_refl _
  | _ => trivial

/-- So it keeps to that, when it leaves no mark. -/
theorem keeps_mutate (hchange : ∀ base m p a, fn.Decides base m (some p) a →
      Change g base m op p) (hcounts : ∀ base, (fn base).Counts) :
    (g.mutate id fn operation).Keeps (op.terms g) (fn.Settled t.writes)
      (fun _ _ => True) t :=
  keeps_mono (Engine.keeps_mutate g id fn operation false t)
    (fun _ _ hq => terms_of_mutation hchange
      (fun h => absurd h Bool.false_ne_true) hcounts hq)
    (fun _ _ h => h) fun _ _ _ => trivial

/-- A reading of the execution is always within bounds. -/
theorem keeps_refresh {α : Type} {k : Execution → Client α} {done : Trail → α → Prop}
    (h : ∀ e, (k e).Keeps (op.terms g) done (fun _ _ => True)
      { read := some e, writes := t.writes }) :
    (Engine.refresh id >>= k).Keeps (op.terms g) done (fun _ _ => True) t :=
  keeps_bind (Engine.keeps_refresh trivial h fun _ => trivial)

theorem keeps_create (workflow : String) (subject actor context : Value) (t : Trail) :
    (g.create workflow subject actor context).Keeps
      (terms g (.create workflow subject actor context)) (fun _ _ => True)
      (fun _ _ => True) t := by
  unfold Engine.create
  split
  · exact trivial
  · rename_i d hd
    split
    · exact trivial
    · rename_i initial hinitial
      refine keeps_bind (keeps_ofExcept (fun values _ => ?_) fun _ _ => trivial)
      show (if !(contextProblems false values).isEmpty then _ else _ :
        Client Execution).Keeps _ _ _ _
      split
      · exact trivial
      · rename_i hproblems
        have hproblems : contextProblems false values = [] := by simpa using hproblems
        have hinsert (r : EntityRef) (a : Option EntityRef) :
            (draft (Engine.newExecution d.name initial r a values) >>= fun e => insert e).Keeps
              (terms g (.create workflow subject actor context)) (fun _ _ => True)
              (fun _ _ => True) t := by
          refine keeps_bind (keeps_draft ?_ (fun m e he => ?_) fun _ _ _ => trivial)
          · exact Draft.Counts.bind .executionId fun _ => .bind .now fun _ => .pure _
          · exact keeps_insert ⟨m, rfl, d, initial, r, a, values, hd, hinitial, hproblems, he⟩
              (fun _ => trivial) fun _ => trivial
        refine keeps_bind (keeps_ofExcept (fun r _ => ?_) fun _ _ => trivial)
        dsimp only
        split
        · refine keeps_bind (keeps_ofExcept (fun a _ => ?_) fun _ _ => trivial)
          exact hinsert r a
        · exact hinsert r none

theorem keeps_perform (target : Target) (action actor additional : Value) (t : Trail) :
    (g.perform target action actor additional).Keeps
      (onceTerms g t.writes (.perform target action actor additional))
      (g.Acted action actor additional t.writes)
      (Mutation.Failed s!"action {action.display}" true t.writes) t := by
  refine keeps_mono (Engine.keeps_perform g target action actor additional t)
    (fun t' q hq => ?_) (fun _ _ h => h) fun _ _ h => h
  obtain ⟨values, ref, _, hproblems, href, hq⟩ := hq
  refine ⟨terms_of_mutation (fun base m p a hd => ?_)
    (fun _ base m f context hproposes hcontext => ?_)
    (Engine.performMutation_counts g action ref values) hq, fun _ => hq.1⟩
  · exact Engine.performMutation_changes hproblems href hd
  · obtain ⟨_, _, _, hd⟩ := hproposes
    rcases Engine.performMutation_decides hd with ⟨_, _, _, _, hopen, _⟩ | ⟨hp, _⟩
    · exact .marked hopen.active hcontext
    · exact nomatch hp

theorem keeps_mergeContext (target : Target) (given : Value) (t : Trail) :
    (g.mergeContext target given).Keeps (terms g (.mergeContext target given))
      (fun _ _ => True) (fun _ _ => True) t := by
  unfold Engine.mergeContext
  dsimp only
  split
  · exact trivial
  · rename_i hproblems
    have hproblems : valueProblems false given = [] := by simpa using hproblems
    obtain ⟨m, rfl, hm⟩ := valueProblems_nil.mp hproblems
    rw [looseMapping_of_valid (contextProblems_nil.mp hm).1]
    refine keeps_bind (keeps_ofExcept (fun values hvalues => ?_) fun _ h => nomatch h)
    rw [← Except.ok.inj hvalues]
    refine keeps_bind (keeps_mono (keeps_mutate (fun base mo p _ hd => ?_)
      (Engine.mergeMutation_counts m)) (fun _ _ h => h) (fun _ _ _ => trivial) fun _ _ h => h)
    exact Engine.mergeMutation_changes hm hd

theorem keeps_setStatus {expected target : Status} {on : Target}
    (hchange : ∀ base m, base.status = expected →
      Change g base m op { base with status := target }) (t : Trail) :
    (g.setStatus on expected target).Keeps (op.terms g) (fun _ _ => True)
      (fun _ _ => True) t := by
  refine keeps_bind (keeps_mono (keeps_mutate (fun base m p _ hd => ?_)
    (Engine.statusMutation_counts expected target)) (fun _ _ h => h) (fun t r _ => ?_)
    fun _ _ h => h)
  · obtain ⟨hstatus, rfl⟩ := Engine.statusMutation_decides hd
    exact hchange base m hstatus
  · dsimp only
    split
    · exact trivial
    · exact trivial

/-- A checkpoint is stored by one write. -/
theorem keeps_createCheckpoint {on : Target} {label : Value}
    (hchange : ∀ base m entries context c, base.context = .dict entries →
      g.Stows base m m.before entries c context →
      Change g base m op { base with context := .dict context }) (t : Trail) :
    (g.createCheckpoint on label).Keeps (op.terms g)
      (fun t' id => Ends g t.writes (.createCheckpoint on label) t' id)
      (fun _ _ => True) t := by
  refine keeps_bind (keeps_draft (fun _ _ => Nat.le_refl _) (fun m now _ => ?_)
    fun _ _ _ => trivial)
  refine keeps_bind (keeps_mono (keeps_mutate (fun base m p id hd => ?_)
    (Engine.checkpointMutation_counts g _)) (fun _ _ h => h) (fun t' r hr => ?_)
    fun _ _ h => h)
  · obtain ⟨c, entries, context, hentries, hc, _, hp⟩ := Engine.checkpointMutation_decides hd
    rw [Option.some.inj hp]
    exact hchange base m entries context c hentries hc
  · cases hr with
    | @written base p e m id hread hm hd hw =>
        obtain ⟨c, entries, context, hentries, hc, hid, hp⟩ :=
          Engine.checkpointMutation_decides hd
        rw [Option.some.inj hp] at hw
        exact ⟨base, m, entries, context, c, e, hread, hm, hentries, hc, hid, hw⟩
    | unchanged _ _ hd _ =>
        obtain ⟨_, _, _, _, _, _, hp⟩ := Engine.checkpointMutation_decides hd
        exact nomatch hp

theorem keeps_restore (target : Target) (checkpointId : String) (force : Bool) (t : Trail) :
    (g.restore target checkpointId force).Keeps (terms g (.restore target checkpointId force))
      (fun _ _ => True) (fun _ _ => True) t := by
  refine keeps_bind (keeps_recover (keeps_mono (keeps_mutate (fun base m p _ hd => ?_)
    (Engine.restoreMutation_counts g checkpointId force)) (fun _ _ h => h)
    (fun _ _ _ => trivial) fun _ _ _ => trivial))
  obtain ⟨c, s, backup, context, hc, hbackup, _, hp⟩ := Engine.restoreMutation_decides hd
  rw [Option.some.inj hp]
  exact .restored hc hbackup

theorem keeps_autoRepair (target : Target) (t : Trail) :
    (g.autoRepair target).Keeps (terms g (.autoRepair target)) (fun _ _ => True)
      (fun _ _ => True) t := by
  refine keeps_bind (keeps_mono (keeps_mutate (fun base m p _ hd => ?_)
    (Engine.repairMutation_counts g)) (fun _ _ h => h) (fun t r _ => ?_) fun _ _ h => h)
  · exact Engine.repairMutation_changes hd
  · exact keeps_bind (keeps_ofExcept (fun _ _ => trivial) fun _ _ => trivial)

theorem keeps_recoverWith (target : Target) (word : String) (step : Value) (force : Bool)
    (t : Trail) :
    (g.recover target word step force).Keeps (terms g (.recover target word step force))
      (Ends g t.writes (.recover target word step force)) (fun _ _ => True) t := by
  refine keeps_refresh fun current => ?_
  split
  · exact trivial
  · rename_i s hword
    refine keeps_bind (keeps_ofExcept (fun blockers _ => ?_) fun _ _ => trivial)
    split
    · exact trivial
    · split
      · rename_i hmanual
        have hmanual : Strategy.ofText? word = some .manual := hmanual ▸ hword
        refine keeps_bind (keeps_mono (keeps_createCheckpoint
          (fun base m entries context c hentries hc => .prepared hmanual hentries hc) _)
          (fun _ _ h => h) (fun t id _ => ?_) fun _ _ h => h)
        refine keeps_refresh fun saved => ?_
        refine keeps_bind (keeps_ofExcept (fun plan _ => ?_) fun _ _ => trivial)
        refine keeps_bind (keeps_ofExcept (fun _ _ => ?_) fun _ _ => trivial)
        exact fun h => absurd hmanual h
      · rename_i hmanual
        refine keeps_bind (keeps_mono (keeps_mutate (fun base m p _ hd => ?_)
          (Engine.moveMutation_counts g _ step force)) (fun _ _ h => h) (fun t' r hr => ?_)
          fun _ _ h => h)
        · exact Engine.moveMutation_changes hword hmanual hd
        · have hends : Strategy.ofText? word ≠ some .manual → ∃ x, t'.writes = t.writes ++ [x] := by
            cases hr with
            | written _ _ _ hw => exact fun _ => ⟨_, hw⟩
            | unchanged _ _ hd _ =>
                obtain ⟨_, _, _, _, _, _, _, _, _, _, _, _, _, hp⟩ :=
                  Engine.moveMutation_decides hd
                exact nomatch hp
          dsimp only
          split
          · exact hends
          · exact keeps_bind (keeps_ofExcept (fun _ _ => hends) fun _ _ => trivial)

/-- Every operation stays within its terms, whatever it is answered, and an action asks
    for nothing once it has written. -/
theorem keeps_once (g : Engine) (op : Operation) (t : Trail) :
    (op.client g).Keeps (op.onceTerms g t.writes) (op.Ends g t.writes) (op.Fails t.writes) t := by
  have hterms {op : Operation} (hop : ¬op.IsPerform) {client : Client op.Result}
      {done : Trail → op.Result → Prop}
      (h : client.Keeps (op.terms g) done (fun _ _ => True) t) :
      client.Keeps (op.onceTerms g t.writes) done (fun _ _ => True) t :=
    keeps_mono h (fun _ _ hq => ⟨hq, fun h => absurd h hop⟩) (fun _ _ h => h) fun _ _ h => h
  cases op with
  | create workflow subject actor context =>
      exact hterms id (keeps_create workflow subject actor context t)
  | perform target action actor additional =>
      exact keeps_perform target action actor additional t
  | mergeContext target values => exact hterms id (keeps_mergeContext target values t)
  | pause target => exact hterms id (keeps_setStatus (fun _ _ h => .paused h) t)
  | resume target => exact hterms id (keeps_setStatus (fun _ _ h => .resumed h) t)
  | createCheckpoint target label =>
      exact hterms id
        (keeps_createCheckpoint (fun _ _ _ _ _ hentries hc => .checkpointed hentries hc) t)
  | restore target checkpointId force =>
      exact hterms id (keeps_restore target checkpointId force t)
  | autoRepair target => exact hterms id (keeps_autoRepair target t)
  | recover target word step force => exact hterms id (keeps_recoverWith target word step force t)

/-- So it stays within its terms. -/
theorem keeps_client (g : Engine) (op : Operation) (t : Trail) :
    (op.client g).Keeps (op.terms g) (op.Ends g t.writes) (op.Fails t.writes) t :=
  keeps_mono (keeps_once g op t) (fun _ _ hq => hq.1) (fun _ _ h => h) fun _ _ h => h

end Operation

/-! ## Ids of executions -/

section Ids

variable {g : Engine} {op : Operation} {base p : Execution} {m : Moment}

/-- A change leaves the id alone. -/
theorem Change.id_eq (h : Change g base m op p) :
    p.id = base.id ∧ p.idValue = base.idValue := by
  cases h <;> exact ⟨rfl, rfl⟩

theorem Change.ownsId (h : Change g base m op p) (hbase : base.OwnsId) : p.OwnsId :=
  hbase.of_id_eq h.id_eq.1 h.id_eq.2

/-- What is created has an id of its own, no history, and the time of the moment. -/
theorem Operation.Creates.fresh {e : Execution} (h : op.Creates g m e) :
    e.OwnsId ∧ e.history = [] ∧ e.createdAt = m.time ∧ e.updatedAt = m.time := by
  cases op with
  | create workflow subject actor context =>
      obtain ⟨d, initial, subject, actor, values, _, _, _, he⟩ := h
      obtain ⟨id, s, _, he⟩ := Draft.runAt_bind_ok.mp he
      obtain ⟨now, s', hnow, he⟩ := Draft.runAt_bind_ok.mp he
      obtain ⟨rfl, _⟩ := Draft.runAt_pure_ok.mp he
      obtain rfl : m.time = now := Except.ok.inj (Prod.mk.inj hnow).1
      exact ⟨rfl, rfl, rfl, rfl⟩
  | _ => exact h.elim

/-- What a client asks for within its terms goes under an id of its own. -/
theorem Operation.terms_ownsId {t : Trail} {q : Request} (hq : op.terms g t q)
    (hreads : ∀ base, t.read = some base → base.OwnsId) : q.OwnsId := by
  cases q with
  | insert e =>
      obtain ⟨m, _, he⟩ := hq
      exact he.fresh.1
  | save p v =>
      obtain ⟨base, m, hread, _, hchange, _⟩ := hq
      exact hchange.ownsId (hreads base hread)
  | _ => trivial

end Ids

end Workflow
