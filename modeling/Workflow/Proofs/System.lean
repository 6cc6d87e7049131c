import Mathlib.Data.List.Induction
import Mathlib.Logic.Function.Basic
import Workflow.Proofs.Client
import Workflow.Proofs.Store

/-! # System — any number of clients at work on one world

    Each client has an operation, of which a rest is left.  A run serves one
    request of one client at a time, in any order, so that between two requests of
    a client any number of requests of others may be served.  In between the
    clocks move, and saves may meet trouble.

    A client that carries out one operation after another is a row of clients
    here, each served to its end before the next one is begun: an operation that
    nobody has begun is one whose rest is all of it.  So nothing is lost by giving
    each client a single operation.

    The heart is `Run.invariant`: what every request served within its terms
    keeps true of the world holds after every run. -/

namespace Workflow

/-- A request of a client, with its answer and the time of it. -/
structure Event (ι : Type) where
  client  : ι
  request : Request
  answer  : request.Answer
  time    : Timestamp

/-- Clients, each with the rest of its operation, and the world they share. -/
structure System (ι : Type) (α : ι → Type) where
  world   : World
  clients : ∀ i, Client (α i)

/-- What may come over a world: the times that its calendar may show, and the
    trouble that saves may meet. -/
structure Climate where
  calendar : Timestamp → Prop
  trouble  : Disturbance → Prop

namespace Climate

/-- Is the world as the climate allows? -/
def Allows (c : Climate) (w : World) : Prop :=
  c.calendar w.now ∧ ∀ d ∈ w.disturbances, c.trouble d

/-- Does no trouble touch what is stored?  A save that meets it fails. -/
def Spares (c : Climate) : Prop := ∀ d, c.trouble d → d = .pass ∨ ∃ f, d = .fail f

/-- No save meets any trouble. -/
def calm : Climate := ⟨fun _ => True, fun d => d = .pass⟩

/-- Any save may fail in the store before it changes anything. -/
def failing : Climate := ⟨fun _ => True, fun d => d = .pass ∨ ∃ f, d = .fail f⟩

/-- Any save may fail, meet another writer or find its execution gone. -/
def wild : Climate := ⟨fun _ => True, fun _ => True⟩

/-- Where no trouble is ahead, all is calm. -/
theorem calm_allows {w : World} (h : w.disturbances = []) : calm.Allows w := by
  refine ⟨trivial, fun d hd => ?_⟩
  rw [h] at hd
  exact absurd hd List.not_mem_nil

end Climate

variable {ι : Type} {α : ι → Type} [DecidableEq ι]

namespace System

/-- The event of serving a request of a client. -/
def event (s : System ι α) (i : ι) (q : Request) : Event ι :=
  ⟨i, q, (s.world.answer q).1, s.world.now⟩

/-- The system after a request of a client is served. -/
def served (s : System ι α) (i : ι) (q : Request) (next : q.Answer → Client (α i)) :
    System ι α :=
  ⟨(s.world.answer q).2, Function.update s.clients i (next (s.world.answer q).1)⟩

/-- The runs of a system, with their events in order. -/
inductive Run (c : Climate) (s₀ : System ι α) : List (Event ι) → System ι α → Prop where
  | start : c.Allows s₀.world → Run c s₀ [] s₀
  | drift {es : List (Event ι)} {s : System ι α} (now : Timestamp) (elapsed : Binary64)
      (draw : Number) (disturbances : List Disturbance) :
      Run c s₀ es s → c.calendar now → (∀ d ∈ disturbances, c.trouble d) →
      Run c s₀ es { s with world := { s.world with now, elapsed, draw, disturbances } }
  | serve {es : List (Event ι)} {s : System ι α} (i : ι) {q : Request}
      {next : q.Answer → Client (α i)} :
      Run c s₀ es s → s.clients i = .ask q next →
      Run c s₀ (es ++ [s.event i q]) (s.served i q next)

end System

namespace System

/-- The events and the system that a schedule leads to: each client in turn is
    served its next request, if it has one. -/
def follow (s : System ι α) : List ι → List (Event ι) × System ι α
  | []      => ([], s)
  | i :: is =>
    match s.clients i with
    | .ask q next =>
      let r := (s.served i q next).follow is
      (s.event i q :: r.1, r.2)
    | _           => s.follow is

/-- A schedule goes on with a run. -/
theorem Run.follow {c : Climate} {s₀ s : System ι α} {es : List (Event ι)}
    (h : Run c s₀ es s) (is : List ι) :
    Run c s₀ (es ++ (s.follow is).1) (s.follow is).2 := by
  induction is generalizing es s with
  | nil =>
      rw [System.follow, List.append_nil]
      exact h
  | cons i is ih =>
      unfold System.follow
      cases hi : s.clients i with
      | ask q next =>
          have hs := ih (h.serve i hi)
          rw [List.append_assoc] at hs
          exact hs
      | done a => exact ih h
      | fail f => exact ih h

theorem Run.of_schedule {c : Climate} {s : System ι α} (hc : c.Allows s.world)
    (is : List ι) : Run c s (s.follow is).1 (s.follow is).2 :=
  (Run.start hc).follow is

/-- Serving a client on and on brings it to its end. -/
theorem Run.finishes {c : Climate} {s₀ s : System ι α} {es : List (Event ι)}
    (h : Run c s₀ es s) (i : ι) :
    ∃ es' s', Run c s₀ (es ++ es') s' ∧ (s'.clients i).hasEnded = true := by
  generalize hc : s.clients i = client
  induction client generalizing s es with
  | done a =>
      refine ⟨[], s, ?_, hc ▸ rfl⟩
      rw [List.append_nil]
      exact h
  | fail f =>
      refine ⟨[], s, ?_, hc ▸ rfl⟩
      rw [List.append_nil]
      exact h
  | ask q next ih =>
      have hi : (s.served i q next).clients i = next (s.world.answer q).1 :=
        Function.update_self ..
      obtain ⟨es', s', hrun, hend⟩ := ih _ (h.serve i hc) hi
      refine ⟨s.event i q :: es', s', ?_, hend⟩
      rw [List.append_assoc] at hrun
      exact hrun

/-- A client has not been served yet, or the first event of it is an answer to its first
    request; when that answer ends it, it is at that end still. -/
theorem Run.first {c : Climate} {s₀ s : System ι α} {es : List (Event ι)} {i : ι}
    {q : Request} {next : q.Answer → Client (α i)} (h : Run c s₀ es s)
    (hask : s₀.clients i = .ask q next) :
    (es.find? (fun e => e.client = i) = none ∧ s.clients i = .ask q next) ∨
    ∃ a now, es.find? (fun e => e.client = i) = some ⟨i, q, a, now⟩ ∧
      ((next a).hasEnded = true → s.clients i = next a) := by
  induction h with
  | start _ => exact .inl ⟨rfl, hask⟩
  | drift _ _ _ _ _ _ _ ih => exact ih
  | @serve es s j q' next' _ hj ih =>
      rw [List.find?_append]
      rcases ih with ⟨hnone, hsame⟩ | ⟨a, now, hfirst, hend⟩
      · rw [hnone, Option.none_or]
        by_cases hij : j = i
        · -- this is the first request of the client
          subst hij
          cases hsame.symm.trans hj
          refine .inr ⟨(s.world.answer q).1, s.world.now, ?_, fun _ => ?_⟩
          · exact List.find?_cons_of_pos (decide_eq_true rfl)
          · exact Function.update_self ..
        · refine .inl ⟨List.find?_cons_of_neg (by simp [System.event, hij]), ?_⟩
          exact (Function.update_of_ne (fun h => hij h.symm) ..).trans hsame
      · rw [hfirst, Option.some_or]
        refine .inr ⟨a, now, rfl, fun hended => ?_⟩
        by_cases hij : j = i
        · -- a client at its end is not served
          subst hij
          rw [← hend hended, hj] at hended
          exact nomatch hended
        · exact (Function.update_of_ne (fun h => hij h.symm) ..).trans (hend hended)

end System

/-! ## Trails in a run -/

/-- What the events of a run leave behind of one client. -/
def Trail.of (es : List (Event ι)) (i : ι) : Trail :=
  es.foldl (fun t e => if e.client = i then t.after e.request e.answer else t) {}

theorem Trail.of_concat (es : List (Event ι)) (e : Event ι) (i : ι) :
    Trail.of (es ++ [e]) i =
      if e.client = i then (Trail.of es i).after e.request e.answer else Trail.of es i := by
  rw [Trail.of, List.foldl_append]
  rfl

theorem Trail.of_concat_self (es : List (Event ι)) {e : Event ι} {i : ι}
    (h : e.client = i) :
    Trail.of (es ++ [e]) i = (Trail.of es i).after e.request e.answer := by
  rw [Trail.of_concat, if_pos h]

theorem Trail.of_concat_other (es : List (Event ι)) {e : Event ι} {i : ι}
    (h : e.client ≠ i) : Trail.of (es ++ [e]) i = Trail.of es i := by
  rw [Trail.of_concat, if_neg h]

/-- The snapshot that an event shows its client: the answer to a load. -/
def Event.shown? : Event ι → Option Execution
  | ⟨_, .load _, .ok o, _⟩ => o
  | _                      => none

omit [DecidableEq ι] in
private theorem Trail.read_after {t : Trail} {i : ι} {now : Timestamp} {q : Request}
    {a : q.Answer} {base : Execution} (h : (t.after q a).read = some base) :
    t.read = some base ∨ (⟨i, q, a, now⟩ : Event ι).shown? = some base := by
  cases q with
  | load id => cases a with
    | ok o => cases o with
      | none => exact .inl h
      | some e => exact .inr h
    | error f => exact .inl h
  | save p v => cases a with
    | ok e => exact .inl h
    | error f => exact .inl h
  | _ => exact .inl h

/-- What a client has read was shown to it by the last event, or read before. -/
theorem Trail.read_of_concat {es : List (Event ι)} {e : Event ι} {i : ι} {base : Execution}
    (h : (Trail.of (es ++ [e]) i).read = some base) :
    (Trail.of es i).read = some base ∨ e.shown? = some base := by
  by_cases hi : e.client = i
  · rw [Trail.of_concat_self es hi] at h
    exact Trail.read_after h
  · rw [Trail.of_concat_other es hi] at h
    exact .inl h

/-- The moment that an event is to its client. -/
def Event.moment? : Event ι → Option Moment
  | ⟨_, .moment use, m, _⟩ => some ⟨m.1, m.2, use m.1 m.2⟩
  | _                      => none

omit [DecidableEq ι] in
private theorem Trail.moment_after {t : Trail} {i : ι} {now : Timestamp} {q : Request}
    {a : q.Answer} {m : Moment} (h : (t.after q a).moment = some m) :
    (t.moment = some m ∨ (⟨i, q, a, now⟩ : Event ι).moment? = some m) ∧
      (t.after q a).read = t.read := by
  cases q with
  | load id => cases a with
    | ok o => cases o with
      | none => exact ⟨.inl h, rfl⟩
      | some e => exact nomatch h
    | error f => exact ⟨.inl h, rfl⟩
  | save p v => cases a with
    | ok e => exact ⟨.inl h, rfl⟩
    | error f => exact ⟨.inl h, rfl⟩
  | moment use => exact ⟨.inr h, rfl⟩
  | _ => exact ⟨.inl h, rfl⟩

/-- The last decision of a client was at the moment of the last event, or before. -/
theorem Trail.moment_of_concat {es : List (Event ι)} {e : Event ι} {i : ι} {m : Moment}
    (h : (Trail.of (es ++ [e]) i).moment = some m) :
    (Trail.of es i).moment = some m ∨ e.moment? = some m := by
  by_cases hi : e.client = i
  · rw [Trail.of_concat_self es hi] at h
    exact (Trail.moment_after h).1
  · rw [Trail.of_concat_other es hi] at h
    exact .inl h

/-- At the moment of its last decision a client had read what it has read now. -/
theorem Trail.read_of_moment {es : List (Event ι)} {e : Event ι} {i : ι} {m : Moment}
    (h : (Trail.of (es ++ [e]) i).moment = some m) :
    (Trail.of (es ++ [e]) i).read = (Trail.of es i).read := by
  by_cases hi : e.client = i
  · rw [Trail.of_concat_self es hi] at h ⊢
    exact (@Trail.moment_after ι _ i e.time _ _ _ h).2
  · rw [Trail.of_concat_other es hi]

/-! ## Commits in a run -/

/-- A write that a client committed, and when. -/
structure Commit (ι : Type) where
  client : ι
  time   : Timestamp
  write  : Write

/-- The commit that an event is: a save that went through. -/
def Event.commit? : Event ι → Option (Commit ι)
  | ⟨i, .save p v, .ok e, now⟩ => some ⟨i, now, ⟨p, v, e⟩⟩
  | _                          => none

/-- The commits of a run, in order. -/
def commits (es : List (Event ι)) : List (Commit ι) := es.filterMap Event.commit?

/-- The commits to an execution. -/
def commitsTo (es : List (Event ι)) (id : String) : List (Commit ι) :=
  (commits es).filter fun c => c.write.stored.id = id

/-- The commits of a client. -/
def commitsOf (es : List (Event ι)) (i : ι) : List (Commit ι) :=
  (commits es).filter fun c => c.client = i

omit [DecidableEq ι] in
theorem commits_concat (es : List (Event ι)) (e : Event ι) :
    commits (es ++ [e]) = commits es ++ e.commit?.toList := by
  unfold commits
  rw [List.filterMap_append]
  cases h : e.commit? with
  | none => rw [List.filterMap_cons_none h]; rfl
  | some c => rw [List.filterMap_cons_some h]; rfl

omit [DecidableEq ι] in
theorem commits_concat_none (es : List (Event ι)) {e : Event ι} (h : e.commit? = none) :
    commits (es ++ [e]) = commits es := by
  rw [commits_concat, h]
  exact List.append_nil _

omit [DecidableEq ι] in
theorem commitsTo_concat_self (es : List (Event ι)) {e : Event ι} {c : Commit ι}
    {id : String} (h : e.commit? = some c) (hid : c.write.stored.id = id) :
    commitsTo (es ++ [e]) id = commitsTo es id ++ [c] := by
  unfold commitsTo
  rw [commits_concat, h, Option.toList_some, List.filter_append, List.filter_cons,
    if_pos (decide_eq_true hid)]
  rfl

omit [DecidableEq ι] in
theorem commitsTo_concat_other (es : List (Event ι)) {e : Event ι} {c : Commit ι}
    {id : String} (h : e.commit? = some c) (hid : c.write.stored.id ≠ id) :
    commitsTo (es ++ [e]) id = commitsTo es id := by
  unfold commitsTo
  rw [commits_concat, h, Option.toList_some, List.filter_append, List.filter_cons,
    if_neg (fun hd => hid (of_decide_eq_true hd))]
  exact List.append_nil _

omit [DecidableEq ι] in
theorem Event.client_of_commit? {e : Event ι} {c : Commit ι} (h : e.commit? = some c) :
    c.client = e.client := by
  unfold commit? at h
  split at h
  · rw [← Option.some.inj h]
  · exact nomatch h

omit [DecidableEq ι] in
private theorem Trail.writes_after (t : Trail) (i : ι) (now : Timestamp) (q : Request)
    (a : q.Answer) : (t.after q a).writes =
      t.writes ++ ((⟨i, q, a, now⟩ : Event ι).commit?.map (·.write)).toList := by
  cases q with
  | save p v => cases a with
    | ok e => rfl
    | error f => exact (List.append_nil _).symm
  | load id => cases a with
    | ok o => cases o with
      | none => exact (List.append_nil _).symm
      | some e => exact (List.append_nil _).symm
    | error f => exact (List.append_nil _).symm
  | _ => exact (List.append_nil _).symm

/-- What a client has written is what it has committed. -/
theorem Trail.writes_of (es : List (Event ι)) (i : ι) :
    (Trail.of es i).writes = (commitsOf es i).map (·.write) := by
  induction es using List.reverseRecOn with
  | nil => rfl
  | append_singleton es e ih =>
      unfold commitsOf
      rw [commits_concat, List.filter_append, List.map_append]
      by_cases h : e.client = i
      · rw [Trail.of_concat_self es h, Trail.writes_after _ e.client e.time, ih]
        congr 1
        cases hc : e.commit? with
        | none => rfl
        | some c =>
            have hi : decide (c.client = i) = true :=
              decide_eq_true ((Event.client_of_commit? hc).trans h)
            rw [Option.toList_some, List.filter_cons, if_pos hi]
            rfl
      · rw [Trail.of_concat_other es h, ih]
        cases hc : e.commit? with
        | none => exact (List.append_nil _).symm
        | some c =>
            have hi : decide (c.client = i) = false :=
              decide_eq_false fun hci => h ((Event.client_of_commit? hc).symm.trans hci)
            rw [Option.toList_some, List.filter_cons, if_neg (Bool.eq_false_iff.mp hi)]
            exact (List.append_nil _).symm

/-- A client that has written nothing has no commits. -/
theorem commitsOf_nil {es : List (Event ι)} {i : ι} (h : (Trail.of es i).writes = []) :
    commitsOf es i = [] := by
  rw [Trail.writes_of] at h
  exact List.map_eq_nil_iff.mp h

/-! ## Answers of a world -/

namespace World

variable {w w' : World} {p e : Execution} {v : Int}

/-- A save that reaches the store stamps the offer and nothing else. -/
theorem stored_of_commit (h : (w.commit p v).1 = .ok e) : e = p.committed v w.now := by
  unfold commit at h
  cases hs : w.store.save w.now p v with
  | error f => rw [hs] at h; exact nomatch h
  | ok r =>
      rw [hs] at h
      have he : r.1 = e := Except.ok.inj h
      rw [← he]
      exact Store.saved_eq hs

/-- What a save comes to that reaches executions in memory: it puts the offer in
    the place of the expected version, or changes nothing. -/
theorem commit_memory {m : MemoryStore} (hm : w.store = .memory m) :
    (∃ cur, m.find? p.idValue = .ok (some cur) ∧ cur.version = v ∧
      w.commit p v = (.ok (p.committed v w.now),
        { w with store := .memory (m.replace (p.committed v w.now)) })) ∨
    ∃ f, m.save w.now p v = .error f ∧ w.commit p v = (.error f, w) := by
  unfold commit
  rw [hm]
  cases hs : m.save w.now p v with
  | error f =>
      refine .inr ⟨f, rfl, ?_⟩
      simp only [Store.save, hs, Except.map]
  | ok r =>
      obtain ⟨e, m'⟩ := r
      obtain ⟨cur, hcur, hv, rfl, rfl⟩ := MemoryStore.save_ok.mp hs
      refine .inl ⟨cur, hcur, hv, ?_⟩
      simp only [Store.save, hs, Except.map]

/-- What an insertion into executions in memory comes to. -/
theorem insert_memory {m : MemoryStore} (hm : w.store = .memory m) (e : Execution) :
    (m.get? e.id = none ∧ w.insert e =
      (.ok e, { w with store := .memory ⟨m.executions ++ [e]⟩ })) ∨
    ∃ f, w.insert e = (.error f, w) := by
  unfold insert
  rw [hm]
  by_cases h : (m.get? e.id).isSome
  · refine .inr ⟨.refused s!"Execution {e.id} already exists", ?_⟩
    simp only [Store.create, MemoryStore.create, if_pos h, Except.map]
  · refine .inl ⟨Option.not_isSome_iff_eq_none.mp h, ?_⟩
    simp only [Store.create, MemoryStore.create, if_neg h, Except.map]

/-- Another writer only changes the store. -/
theorem interfere_eq {id : String}
    {change : Timestamp → Execution → Except Failure Execution}
    (h : w.interfere id change = .ok w') : ∃ store, w' = { w with store } := by
  unfold interfere at h
  cases hg : w.store.get? w.now id with
  | error f => rw [hg] at h; exact nomatch h
  | ok o =>
      rw [hg] at h
      cases o with
      | none => exact nomatch h
      | some cur =>
          simp only [bind, Except.bind, pure, Except.pure] at h
          split at h
          · exact nomatch h
          · split at h
            · exact nomatch h
            · exact ⟨_, (Except.ok.inj h).symm⟩

/-- Reaching the store changes nothing but the store. -/
theorem commit_frame (w : World) (p : Execution) (v : Int) :
    ∃ store, (w.commit p v).2 = { w with store } := by
  unfold commit
  split
  · exact ⟨_, rfl⟩
  · exact ⟨w.store, rfl⟩

/-- Whatever a save meets, what is stored is the offer, stamped. -/
theorem stored_of_save (h : (w.save p v).1 = .ok e) : e = p.committed v w.now := by
  unfold save at h
  cases hd : w.disturbances with
  | nil => rw [hd] at h; exact stored_of_commit h
  | cons d ds =>
      rw [hd] at h
      cases d with
      | pass => exact stored_of_commit (w := { w with disturbances := ds }) h
      | fail f => exact nomatch h
      | vanish => exact stored_of_commit (w := { w with
          disturbances := ds, store := w.store.delete p.id }) h
      | conflict change =>
          cases hi : interfere { w with disturbances := ds } p.id change with
          | error f => simp only [hi] at h; exact nomatch h
          | ok w' =>
              simp only [hi] at h
              obtain ⟨store, rfl⟩ := interfere_eq hi
              exact stored_of_commit (w := { w with disturbances := ds, store }) h

/-- A save changes the store, and uses up disturbances. -/
theorem save_frame (w : World) (p : Execution) (v : Int) :
    ∃ store disturbances, (w.save p v).2 = { w with store, disturbances } ∧
      ∀ d ∈ disturbances, d ∈ w.disturbances := by
  unfold save
  cases hd : w.disturbances with
  | nil =>
      obtain ⟨store, h⟩ := commit_frame w p v
      exact ⟨store, w.disturbances, h, fun d h => hd ▸ h⟩
  | cons d ds =>
      have hds : ∀ x ∈ ds, x ∈ d :: ds := fun x h => List.mem_cons_of_mem _ h
      cases d with
      | pass =>
          obtain ⟨store, h⟩ := commit_frame { w with disturbances := ds } p v
          exact ⟨store, ds, h, hds⟩
      | fail f => exact ⟨w.store, ds, rfl, hds⟩
      | vanish =>
          obtain ⟨store, h⟩ := commit_frame
            { w with disturbances := ds, store := w.store.delete p.id } p v
          exact ⟨store, ds, h, hds⟩
      | conflict change =>
          cases hi : interfere { w with disturbances := ds } p.id change with
          | error f =>
              simp only [hi]
              exact ⟨w.store, ds, rfl, hds⟩
          | ok w' =>
              obtain ⟨store', rfl⟩ := interfere_eq hi
              obtain ⟨store, h⟩ := commit_frame { w with disturbances := ds, store := store' } p v
              simp only [hi]
              exact ⟨store, ds, h, hds⟩

theorem insert_frame (w : World) (e : Execution) :
    ∃ store, (w.insert e).2 = { w with store } := by
  unfold insert
  split
  · exact ⟨_, rfl⟩
  · exact ⟨w.store, rfl⟩

/-- Answers leave the calendar alone. -/
theorem answer_now (w : World) (q : Request) : (w.answer q).2.now = w.now := by
  cases q with
  | save p v =>
      obtain ⟨_, _, h, _⟩ := save_frame w p v
      show (w.save p v).2.now = w.now
      rw [h]
  | insert e =>
      obtain ⟨_, h⟩ := insert_frame w e
      show (w.insert e).2.now = w.now
      rw [h]
  | _ => rfl

/-- Answers bring no disturbances. -/
theorem answer_disturbances (w : World) (q : Request) :
    ∀ d ∈ (w.answer q).2.disturbances, d ∈ w.disturbances := by
  cases q with
  | save p v =>
      obtain ⟨_, _, h, hds⟩ := save_frame w p v
      show ∀ d ∈ (w.save p v).2.disturbances, d ∈ w.disturbances
      rw [h]
      exact hds
  | insert e =>
      obtain ⟨_, h⟩ := insert_frame w e
      show ∀ d ∈ (w.insert e).2.disturbances, d ∈ w.disturbances
      rw [h]
      exact fun d hd => hd
  | _ => exact fun d h => h

/-- Ids are drawn at moments only. -/
theorem answer_serials (w : World) (q : Request) : (w.answer q).2.serials =
    match q with
    | .moment use => use w.now w.serials
    | _           => w.serials := by
  cases q with
  | save p v =>
      obtain ⟨_, _, h, _⟩ := save_frame w p v
      show (w.save p v).2.serials = w.serials
      rw [h]
  | insert e =>
      obtain ⟨_, h⟩ := insert_frame w e
      show (w.insert e).2.serials = w.serials
      rw [h]
  | _ => rfl

end World

namespace Climate

theorem calm_spares : calm.Spares := fun _ h => .inl h

theorem failing_spares : failing.Spares := fun _ h => h

/-- Where trouble spares what is stored, a save reaches the store, or fails and
    changes nothing. -/
theorem Spares.save {c : Climate} {w : World} (hc : c.Spares) (h : c.Allows w)
    (p : Execution) (v : Int) :
    ∃ disturbances, w.save p v = { w with disturbances }.commit p v ∨
      ∃ f, c.trouble (.fail f) ∧ w.save p v = (.error f, { w with disturbances }) := by
  unfold World.save
  cases hd : w.disturbances with
  | nil => exact ⟨w.disturbances, .inl rfl⟩
  | cons d ds =>
      have ht : c.trouble d := h.2 d (hd ▸ List.mem_cons_self)
      rcases hc d ht with rfl | ⟨f, rfl⟩
      · exact ⟨ds, .inl rfl⟩
      · exact ⟨ds, .inr ⟨f, ht, rfl⟩⟩

end Climate

theorem Climate.allows_answer {c : Climate} {w : World} (h : c.Allows w) (q : Request) :
    c.Allows (w.answer q).2 := by
  refine ⟨?_, fun d hd => h.2 d (w.answer_disturbances q d hd)⟩
  rw [w.answer_now q]
  exact h.1

/-- What a run commits is what was offered, stamped. -/
theorem System.Run.stored_eq {c : Climate} {s₀ s : System ι α} {es : List (Event ι)}
    (h : Run c s₀ es s) {x : Commit ι} (hx : x ∈ commits es) :
    x.write.stored = x.write.offered.committed x.write.expected x.time := by
  induction h with
  | start _ => exact nomatch hx
  | drift _ _ _ _ _ _ _ ih => exact ih hx
  | @serve es s i q next _ _ ih =>
      rw [commits_concat] at hx
      rcases List.mem_append.mp hx with hx | hx
      · exact ih hx
      · cases q with
        | save p v =>
            cases hs : (s.world.save p v).1 with
            | error f =>
                have hx : x ∈ (⟨i, .save p v, .error f, s.world.now⟩ :
                    Event ι).commit?.toList := hs ▸ hx
                exact nomatch hx
            | ok e =>
                have hx : x ∈ (⟨i, .save p v, .ok e, s.world.now⟩ :
                    Event ι).commit?.toList := hs ▸ hx
                rw [List.mem_singleton.mp hx]
                exact World.stored_of_save hs
        | _ => exact nomatch hx

/-- The world of a run is as the climate allows, and so were the moments at which clients
    decided. -/
theorem System.Run.allowed {c : Climate} {s₀ s : System ι α} {es : List (Event ι)}
    (h : Run c s₀ es s) :
    c.Allows s.world ∧ ∀ i m, (Trail.of es i).moment = some m → c.calendar m.time := by
  induction h with
  | start hc => exact ⟨hc, nofun⟩
  | drift _ _ _ _ _ hnow hds ih => exact ⟨⟨hnow, hds⟩, ih.2⟩
  | @serve es s i q _ _ _ ih =>
      refine ⟨Climate.allows_answer ih.1 q, fun j m hm => ?_⟩
      rcases Trail.moment_of_concat hm with hm | hm
      · exact ih.2 j m hm
      · cases q with
        | moment use =>
            rw [← Option.some.inj hm]
            exact ih.1.1
        | _ => exact nomatch hm

/-- A client that has written once has one commit, of what it offered, stamped. -/
theorem System.Run.commitsOf_singleton {c : Climate} {s₀ s : System ι α}
    {es : List (Event ι)} (h : Run c s₀ es s) {i : ι} {x : Write}
    (hw : (Trail.of es i).writes = [x]) :
    ∃ now, commitsOf es i = [⟨i, now, x⟩] ∧
      x.stored = x.offered.committed x.expected now := by
  rw [Trail.writes_of] at hw
  obtain ⟨c, hc, hx⟩ := List.map_eq_singleton_iff.mp hw
  obtain ⟨hmem, hi⟩ : c ∈ commits es ∧ decide (c.client = i) = true :=
    List.mem_filter.mp (hc ▸ List.mem_singleton_self c : c ∈ commitsOf es i)
  refine ⟨c.time, ?_, ?_⟩
  · rw [hc, ← hx, ← of_decide_eq_true hi]
  · rw [← hx]
    exact h.stored_eq hmem

/-! ## What stores show -/

/-- Does the request leave the store alone, and what is read of it? -/
def Request.IsQuiet : Request → Prop
  | .load _   => False
  | .insert _ => False
  | .save _ _ => False
  | _         => True

/-- Does nothing stand in the place of the id of what goes into the store? -/
def Request.OwnsId : Request → Prop
  | .insert e => e.OwnsId
  | .save p _ => p.OwnsId
  | _         => True

/-- What a store may show of an execution that it was given: one with the same id and
    the same version. -/
structure Display where
  Shows   : Execution → Execution → Prop
  ownsId  : ∀ {e e'}, Shows e e' → e.OwnsId → e'.OwnsId ∧ e'.id = e.id
  version : ∀ {e e'}, Shows e e' → e'.version = e.version

/-- Executions in memory are shown as they are. -/
def Display.exact : Display :=
  ⟨Eq, fun h howns => h ▸ ⟨howns, rfl⟩, fun h => h ▸ rfl⟩

/-- All that serving a request can do to the executions that a store shows, in a climate
    that spares them. -/
inductive StoreStep (d : Display) (c : Climate) (m : MemoryStore) (now : Timestamp) :
    (q : Request) → q.Answer → MemoryStore → Prop where
  | load (id : Value) (a : Except Failure (Option Execution)) :
      (∀ e, a = .ok (some e) → m.get? e.id = some e ∧ ∀ s, id = .str s → e.id = s) →
      StoreStep d c m now (.load id) a m
  | inserted (e : Execution) {e' : Execution} : m.get? e.id = none → d.Shows e e' →
      StoreStep d c m now (.insert e) (.ok e) ⟨m.executions ++ [e']⟩
  | uninserted (e : Execution) (f : Failure) : StoreStep d c m now (.insert e) (.error f) m
  | saved (p : Execution) (v : Int) {cur e' : Execution} :
      m.get? p.id = some cur → cur.version = v → d.Shows (p.committed v now) e' →
      StoreStep d c m now (.save p v) (.ok (p.committed v now)) (m.replace e')
  | unsaved (p : Execution) (v : Int) (f : Failure) :
      m.save now p v = .error f ∨ c.trouble (.fail f) →
      StoreStep d c m now (.save p v) (.error f) m
  | quiet (q : Request) (a : q.Answer) : q.IsQuiet → StoreStep d c m now q a m

theorem World.answer_memory {c : Climate} {w : World} {m : MemoryStore} (hc : c.Spares)
    (hw : c.Allows w) (hm : w.store = .memory m) {q : Request} (hq : q.OwnsId) :
    ∃ m', (w.answer q).2.store = .memory m' ∧
      StoreStep .exact c m w.now q (w.answer q).1 m' := by
  cases q with
  | load id =>
      refine ⟨m, hm, .load id _ fun e he => ?_⟩
      have he : w.store.find? w.now id = .ok (some e) := he
      rw [hm] at he
      refine ⟨MemoryStore.get?_of_find? he, ?_⟩
      rintro s rfl
      exact MemoryStore.id_of_get? (Except.ok.inj ((MemoryStore.find?_str m s).symm.trans he))
  | insert e =>
      show ∃ m', (w.insert e).2.store = .memory m' ∧
        StoreStep .exact c m w.now (.insert e) (w.insert e).1 m'
      rcases World.insert_memory hm e with ⟨hnew, h⟩ | ⟨f, h⟩
      · rw [h]
        exact ⟨_, rfl, .inserted e hnew rfl⟩
      · rw [h]
        exact ⟨m, hm, .uninserted e f⟩
  | save p v =>
      show ∃ m', (w.save p v).2.store = .memory m' ∧
        StoreStep .exact c m w.now (.save p v) (w.save p v).1 m'
      obtain ⟨ds, h | ⟨f, hf, h⟩⟩ := hc.save hw p v
      · rw [h]
        rcases World.commit_memory (w := { w with disturbances := ds }) hm with
          ⟨cur, hcur, hv, h⟩ | ⟨f, hf, h⟩
        · rw [h]
          rw [MemoryStore.find?_of_ownsId m hq] at hcur
          exact ⟨_, rfl, .saved p v (Except.ok.inj hcur) hv rfl⟩
        · rw [h]
          exact ⟨m, hm, .unsaved p v f (.inl hf)⟩
      · rw [h]
        exact ⟨m, hm, .unsaved p v f (.inr hf)⟩
  | _ => exact ⟨m, hm, .quiet _ _ trivial⟩

/-- What is shown after a request is served was shown before, or came with it. -/
theorem StoreStep.mem {d : Display} {c : Climate} {m m' : MemoryStore} {now : Timestamp}
    {q : Request} {a : q.Answer} (h : StoreStep d c m now q a m') {e : Execution}
    (he : e ∈ m'.executions) : e ∈ m.executions ∨ (∃ x, q = .insert x ∧ d.Shows x e) ∨
      ∃ p v, q = .save p v ∧ d.Shows (p.committed v now) e := by
  cases h with
  | @inserted x e' _ hshows =>
      rcases List.mem_append.mp he with he | he
      · exact .inl he
      · exact .inr (.inl ⟨x, rfl, List.mem_singleton.mp he ▸ hshows⟩)
  | saved p v _ _ hshows =>
      rcases MemoryStore.mem_replace he with rfl | he
      · exact .inr (.inr ⟨p, v, rfl, hshows⟩)
      · exact .inl he
  | _ => exact .inl he

theorem Trail.after_quiet {q : Request} (h : q.IsQuiet) (t : Trail) (a : q.Answer) :
    (t.after q a).read = t.read ∧ (t.after q a).refused = t.refused ∧
      (t.after q a).writes = t.writes := by
  cases q with
  | load id => exact h.elim
  | insert e => exact h.elim
  | save p v => exact h.elim
  | _ => exact ⟨rfl, rfl, rfl⟩

omit [DecidableEq ι] in
theorem Event.commit?_quiet {q : Request} (h : q.IsQuiet) (i : ι) (a : q.Answer)
    (now : Timestamp) : (⟨i, q, a, now⟩ : Event ι).commit? = none := by
  cases q with
  | load id => exact h.elim
  | insert e => exact h.elim
  | save p v => exact h.elim
  | _ => rfl

/-! ## Invariants -/

namespace System

/-- What holds at the start, does not depend on clocks and disturbances, and is
    kept by every request served within the terms of its client, holds after
    every run; and every client has stayed within its terms. -/
theorem Run.invariant {c : Climate} {s₀ s : System ι α} {es : List (Event ι)}
    (may : ι → Client.Terms) (done : ∀ i, Trail → α i → Prop)
    (fail : ι → Trail → Failure → Prop) (inv : World → List (Event ι) → Prop)
    (hkeeps : ∀ i, (s₀.clients i).Keeps (may i) (done i) (fail i) {})
    (hstart : inv s₀.world [])
    (hdrift : ∀ w es now elapsed draw disturbances, inv w es →
      inv { w with now, elapsed, draw, disturbances } es)
    (hserve : ∀ w es i q, inv w es → c.Allows w → may i (Trail.of es i) q →
      inv (w.answer q).2 (es ++ [⟨i, q, (w.answer q).1, w.now⟩]))
    (h : Run c s₀ es s) :
    inv s.world es ∧ c.Allows s.world ∧
      ∀ i, (s.clients i).Keeps (may i) (done i) (fail i) (Trail.of es i) := by
  induction h with
  | start hc => exact ⟨hstart, hc, hkeeps⟩
  | drift now elapsed draw disturbances _ hnow hds ih =>
      obtain ⟨hinv, _, hk⟩ := ih
      exact ⟨hdrift _ _ now elapsed draw disturbances hinv, ⟨hnow, hds⟩, hk⟩
  | @serve es s i q next _ hi ih =>
      obtain ⟨hinv, hc, hk⟩ := ih
      have hask := hk i
      rw [hi] at hask
      refine ⟨hserve _ _ i q hinv hc hask.1, Climate.allows_answer hc q, fun j => ?_⟩
      show ((Function.update s.clients i (next (s.world.answer q).1)) j).Keeps _ _ _ _
      by_cases hj : i = j
      · subst hj
        rw [Function.update_self, Trail.of_concat_self es (e := s.event i q) (i := i) rfl]
        exact hask.2 _
      · rw [Function.update_of_ne (fun hji => hj hji.symm),
          Trail.of_concat_other es (e := s.event i q) hj]
        exact hk j

/-- What everything stored has at the start, what commits keep, and what all that
    clients put in has by their terms, everything stored has after every run. -/
theorem Run.every {c : Climate} {s₀ s : System ι α} {es : List (Event ι)}
    {P : Execution → Prop} (may : ι → Client.Terms) (done : ∀ i, Trail → α i → Prop)
    (fail : ι → Trail → Failure → Prop) (hc : c.Spares)
    (hcommit : ∀ e v now, P e → P (e.committed v now))
    (hkeeps : ∀ i, (s₀.clients i).Keeps (may i) (done i) (fail i) {})
    (hinsert : ∀ i t e, may i t (.insert e) → P e)
    (hsave : ∀ i t p v, (∀ base, t.read = some base → P base) → may i t (.save p v) → P p)
    (hstore : s₀.world.store.Every P) (hsuits : s₀.world.store.Suits P)
    (h : Run c s₀ es s) : s.world.store.Every P := by
  refine (h.invariant may done fail
    (fun w es => (w.store.Every P ∧ w.store.Suits P) ∧
      ∀ i base, (Trail.of es i).read = some base → P base) hkeeps
    ⟨⟨hstore, hsuits⟩, fun _ _ h => nomatch h⟩ (fun _ _ _ _ _ _ h => h) ?_).1.1.1
  intro w es i q ⟨⟨hevery, hsuits⟩, hreads⟩ hallows hmay
  constructor
  · cases q with
    | insert e =>
        show (w.insert e).2.store.Every P ∧ (w.insert e).2.store.Suits P
        unfold World.insert
        split
        · rename_i stored store hcreate
          exact hevery.create hsuits (hinsert i _ e hmay) hcreate
        · exact ⟨hevery, hsuits⟩
    | save p v =>
        show (w.save p v).2.store.Every P ∧ (w.save p v).2.store.Suits P
        obtain ⟨ds, h | ⟨f, _, h⟩⟩ := hc.save hallows p v
        · rw [h]
          unfold World.commit
          split
          · rename_i stored store hsaved
            have hstored := Store.saved_eq hsaved
            have hp := hsave i _ p v (hreads i) hmay
            exact hevery.save hsuits (hstored ▸ hcommit p v w.now hp) hsaved
          · exact ⟨hevery, hsuits⟩
        · rw [h]
          exact ⟨hevery, hsuits⟩
    | _ => exact ⟨hevery, hsuits⟩
  · intro j base hread
    rcases Trail.read_of_concat hread with hread | hshown
    · exact hreads j base hread
    · cases q with
      | load id =>
          cases hf : w.store.find? w.now id with
          | error f =>
              have hshown : (⟨i, .load id, w.store.find? w.now id, w.now⟩ :
                Event ι).shown? = some base := hshown
              rw [hf] at hshown
              exact nomatch hshown
          | ok o =>
              have hshown : (⟨i, .load id, w.store.find? w.now id, w.now⟩ :
                Event ι).shown? = some base := hshown
              rw [hf] at hshown
              have hshown : o = some base := hshown
              exact hevery.of_find? (hshown ▸ hf)
      | _ => exact nomatch hshown

end System

end Workflow
