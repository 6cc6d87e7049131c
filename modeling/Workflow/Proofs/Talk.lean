import Workflow.Proofs.System

/-! # Talk — the requests of an operation, with any answers whatever

    A talk of an operation is a list of its requests, each with an answer, and what is
    left of it then.  Nothing is asked of the answers, so a talk covers every store,
    every clock and every number of other writers.  What a client does in a run beside
    others is a talk too.

    The heart is `talks_bind`: a sequence is talked through part by part, which is how
    the talks of an operation are read off its text. -/

namespace Workflow

/-- A request with its answer. -/
structure Turn where
  request : Request
  answer  : request.Answer

namespace Turn

/-- A save with its answer. -/
def save (p : Execution) (v : Int) (r : Except Failure Execution) : Turn := ⟨.save p v, r⟩

/-- The moment at which a draft is carried out. -/
def moment {α : Type} (d : Draft α) (m : Moment) : Turn :=
  ⟨.moment fun now s => (d.runAt now s).2, (m.time, m.before)⟩

end Turn

namespace Client

variable {α β : Type} {c c' rest : Client α} {es es' : List Turn} {q : Request}

/-- Do the turns lead from an operation to what is left of it? -/
inductive Talks : Client α → List Turn → Client α → Prop where
  | start (c : Client α) : Talks c [] c
  | ask {q : Request} {next : q.Answer → Client α} {rest : Client α} {es : List Turn}
      (a : q.Answer) : Talks (next a) es rest → Talks (.ask q next) (⟨q, a⟩ :: es) rest

/-- One turn more. -/
theorem Talks.concat {next : q.Answer → Client α} (h : c.Talks es (.ask q next))
    (a : q.Answer) : c.Talks (es ++ [⟨q, a⟩]) (next a) := by
  generalize hrest : Client.ask q next = rest at h
  induction h with
  | start c =>
      rw [← hrest]
      exact .ask a (.start _)
  | ask b _ ih => exact .ask b (ih hrest)

/-- Every talk can go on to the end of its operation. -/
theorem Talks.finishes (h : c.Talks es rest) :
    ∃ es' end', c.Talks (es ++ es') end' ∧ end'.hasEnded = true := by
  induction rest generalizing es with
  | done a => exact ⟨[], _, by rwa [List.append_nil], rfl⟩
  | fail f => exact ⟨[], _, by rwa [List.append_nil], rfl⟩
  | ask q next ih =>
      -- some answer can be given to every request
      have ha : Nonempty q.Answer := by
        cases q with
        | load id => exact ⟨.ok none⟩
        | insert e => exact ⟨.ok e⟩
        | save p v => exact ⟨.ok p⟩
        | list f => exact ⟨.ok []⟩
        | findForSubject s => exact ⟨.ok []⟩
        | moment use => exact ⟨(.defaultNow, {})⟩
        | elapsed => exact ⟨Binary64.zero⟩
        | draw => exact ⟨.whole 0⟩
        | sleep delay => exact ⟨()⟩
      obtain ⟨a⟩ := ha
      obtain ⟨es', end', htalks, hend⟩ := ih a (h.concat a)
      refine ⟨⟨q, a⟩ :: es', end', ?_, hend⟩
      rw [List.append_assoc] at htalks
      exact htalks

/-! ## Operations at their end -/

theorem talks_done {a : α} (h : (Client.done a).Talks es rest) : es = [] ∧ rest = .done a := by
  cases h with
  | start => exact ⟨rfl, rfl⟩

theorem talks_fail {f : Failure} (h : (Client.fail f : Client α).Talks es rest) :
    es = [] ∧ rest = .fail f := by
  cases h with
  | start => exact ⟨rfl, rfl⟩

/-- An operation that has come to its end, from a request on, was answered it. -/
theorem talks_ask {next : q.Answer → Client α} (h : (Client.ask q next).Talks es rest)
    (hend : rest.hasEnded = true) :
    ∃ a es', es = ⟨q, a⟩ :: es' ∧ (next a).Talks es' rest := by
  cases h with
  | start => exact nomatch hend
  | ask a h => exact ⟨a, _, rfl, h⟩

/-- A sequence at its end is at a failure of its first part, or has gone on with the
    result of that part. -/
theorem talks_bind {k : α → Client β} {es : List Turn} {rest : Client β}
    (h : (c >>= k).Talks es rest) (hend : rest.hasEnded = true) :
    (∃ f, c.Talks es (.fail f) ∧ rest = .fail f) ∨
    ∃ a es₁ es₂, es = es₁ ++ es₂ ∧ c.Talks es₁ (.done a) ∧ (k a).Talks es₂ rest := by
  -- by induction on the first part, whose requests come first
  induction c generalizing es with
  | done a => exact .inr ⟨a, [], es, rfl, .start _, h⟩
  | fail f =>
      obtain ⟨rfl, rfl⟩ := talks_fail h
      exact .inl ⟨f, .start _, rfl⟩
  | ask q next ih =>
      obtain ⟨a, es', rfl, hnext⟩ := talks_ask h hend
      rcases ih a hnext with ⟨f, hc, hf⟩ | ⟨b, es₁, es₂, rfl, hc, hk⟩
      · exact .inl ⟨f, .ask a hc, hf⟩
      · exact .inr ⟨b, ⟨q, a⟩ :: es₁, es₂, rfl, .ask a hc, hk⟩

/-- An operation whose failures are taken up is, at its end, at its result, or has gone on
    with its failure. -/
theorem talks_recover {k : Failure → Client α} (h : (c.recover k).Talks es rest)
    (hend : rest.hasEnded = true) :
    (∃ a, c.Talks es (.done a) ∧ rest = .done a) ∨
    ∃ f es₁ es₂, es = es₁ ++ es₂ ∧ c.Talks es₁ (.fail f) ∧ (k f).Talks es₂ rest := by
  induction c generalizing es with
  | done a =>
      obtain ⟨rfl, rfl⟩ := talks_done h
      exact .inl ⟨a, .start _, rfl⟩
  | fail f => exact .inr ⟨f, [], es, rfl, .start _, h⟩
  | ask q next ih =>
      obtain ⟨a, es', rfl, hnext⟩ := talks_ask h hend
      rcases ih a hnext with ⟨b, hc, hb⟩ | ⟨f, es₁, es₂, rfl, hc, hk⟩
      · exact .inl ⟨b, .ask a hc, hb⟩
      · exact .inr ⟨f, ⟨q, a⟩ :: es₁, es₂, rfl, .ask a hc, hk⟩

/-- A sequence is talked through when its parts are. -/
theorem Talks.bind {k : α → Client β} {a : α} {rest : Client β} (h : c.Talks es (.done a))
    (hk : (k a).Talks es' rest) : (c >>= k).Talks (es ++ es') rest := by
  generalize hdone : Client.done a = end' at h
  induction h with
  | start c =>
      rw [← hdone]
      exact hk
  | ask b _ ih => exact .ask b (ih hdone)

/-- A sequence fails with its first part. -/
theorem Talks.bind_fail {k : α → Client β} {f : Failure} (h : c.Talks es (.fail f)) :
    (c >>= k).Talks es (.fail f) := by
  generalize hfail : Client.fail f = end' at h
  induction h with
  | start c =>
      rw [← hfail]
      exact .start _
  | ask b _ ih => exact .ask b (ih hfail)

/-- What fails goes on with what takes its failure up. -/
theorem Talks.recover_fail {k : Failure → Client α} {f f' : Failure}
    (h : c.Talks es (.fail f)) (hk : k f = .fail f') : (c.recover k).Talks es (.fail f') := by
  generalize hfail : Client.fail f = end' at h
  induction h with
  | start c =>
      rw [← hfail]
      exact hk ▸ .start _
  | ask b _ ih => exact .ask b (ih hfail)

/-! ## One request at a time -/

theorem talks_ofExcept {r : Except Failure α} (h : (ofExcept r).Talks es rest) :
    es = [] ∧ ((∃ a, r = .ok a ∧ rest = .done a) ∨ ∃ f, r = .error f ∧ rest = .fail f) := by
  cases r with
  | ok a =>
      obtain ⟨hes, hrest⟩ := talks_done h
      exact ⟨hes, .inl ⟨a, rfl, hrest⟩⟩
  | error f =>
      obtain ⟨hes, hrest⟩ := talks_fail h
      exact ⟨hes, .inr ⟨f, rfl, hrest⟩⟩

theorem talks_draft {d : Draft α} (h : (draft d).Talks es rest)
    (hend : rest.hasEnded = true) :
    ∃ m : Moment, es = [.moment d m] ∧
      ((∃ a, d.runAt m.time m.before = (.ok a, m.after) ∧ rest = .done a) ∨
        ∃ f, d.runAt m.time m.before = (.error f, m.after) ∧ rest = .fail f) := by
  obtain ⟨a, es', rfl, hnext⟩ := talks_ask h hend
  obtain ⟨rfl, hrest⟩ := talks_ofExcept hnext
  refine ⟨⟨a.1, a.2, (d.runAt a.1 a.2).2⟩, rfl, ?_⟩
  rcases hrest with ⟨x, hx, hrest⟩ | ⟨f, hf, hrest⟩
  · exact .inl ⟨x, Prod.ext hx rfl, hrest⟩
  · exact .inr ⟨f, Prod.ext hf rfl, hrest⟩

theorem talks_trySave {p : Execution} {v : Int} {rest : Client (Except Failure Execution)}
    (h : (trySave p v).Talks es rest) (hend : rest.hasEnded = true) :
    ∃ r, es = [.save p v r] ∧ rest = .done r := by
  obtain ⟨r, es', rfl, hnext⟩ := talks_ask h hend
  obtain ⟨rfl, hrest⟩ := talks_done hnext
  exact ⟨r, rfl, hrest⟩

end Client

/-! ## The talks of a run -/

variable {ι : Type} {α : ι → Type} [DecidableEq ι]

/-- The turns of a client in a run. -/
def Turn.of (es : List (Event ι)) (i : ι) : List Turn :=
  (es.filter fun e => e.client = i).map fun e => ⟨e.request, e.answer⟩

/-- What a client does in a run is a talk of its operation. -/
theorem System.Run.talks {c : Climate} {s₀ s : System ι α} {es : List (Event ι)}
    (h : Run c s₀ es s) (i : ι) :
    (s₀.clients i).Talks (Turn.of es i) (s.clients i) := by
  induction h with
  | start _ => exact .start _
  | drift _ _ _ _ _ _ _ ih => exact ih
  | @serve es s j q next _ hj ih =>
      unfold Turn.of
      rw [List.filter_append, List.map_append]
      show (s₀.clients i).Talks _ ((Function.update s.clients j _) i)
      by_cases hij : j = i
      · -- the request is one of this client
        subst hij
        rw [hj] at ih
        rw [Function.update_self, List.filter_cons_of_pos (by exact decide_eq_true rfl)]
        exact ih.concat _
      · rw [Function.update_of_ne (fun h => hij h.symm),
          List.filter_cons_of_neg (by simp [System.event, hij]), List.filter_nil,
          List.map_nil, List.append_nil]
        exact ih

end Workflow
