import Workflow.Proofs.Serial

/-! # Lineage — what an execution has been

    Every snapshot of an execution but the first was committed over the one before it, by
    a client that had decided on exactly that one.  So the commits to an execution tell
    all its snapshots in order, up to what the store makes of them.

    The heart is `Line.step`; what the clients may offer comes in as a relation, so the
    lemma serves any operations. -/

namespace Workflow

variable {ι : Type} {R : ι → Execution → Execution → Prop} {d : Display} {c : Climate}
  {m m' : MemoryStore} {now : Timestamp} {q : Request} {a : q.Answer} {id : String}

/-! ## Successions -/

/-- Commits that each put in the place of the snapshot before what its client may make
    of it; what the store shows of that is the next snapshot. -/
inductive Succession (d : Display) (R : ι → Execution → Execution → Prop)
    (first : Execution) : List (Commit ι) → Execution → Prop where
  | start : Succession d R first [] first
  | commit {cs : List (Commit ι)} {last p next : Execution} {i : ι} (now : Timestamp) :
      Succession d R first cs last → R i last p → d.Shows (p.committed last.version now) next →
      Succession d R first
        (cs ++ [⟨i, now, ⟨p, last.version, p.committed last.version now⟩⟩]) next

namespace Succession

variable {first last : Execution} {cs pre post : List (Commit ι)} {x : Commit ι}

/-- What the last commit was. -/
theorem concat_iff : Succession d R first (cs ++ [x]) last ↔
    ∃ before, Succession d R first cs before ∧ R x.client before x.write.offered ∧
      x.write.expected = before.version ∧
      x.write.stored = x.write.offered.committed before.version x.time ∧
      d.Shows x.write.stored last := by
  constructor
  · intro h
    generalize hcs : cs ++ [x] = all at h
    cases h with
    | start => exact absurd hcs (List.append_ne_nil_of_right_ne_nil _ (List.cons_ne_nil x []))
    | commit now h hR hshows =>
        obtain ⟨rfl, hx⟩ := List.append_inj' hcs rfl
        rw [(List.cons.inj hx).1]
        exact ⟨_, h, hR, rfl, rfl, hshows⟩
  · obtain ⟨i, now, ⟨p, v, e⟩⟩ := x
    rintro ⟨before, h, hR, hv, he, hshows⟩
    have hv : v = before.version := hv
    have he : e = p.committed before.version now := he
    have hshows : d.Shows e last := hshows
    rw [he] at hshows
    rw [hv, he]
    exact .commit now h hR hshows

/-- What comes after some of the commits goes on from the snapshot that they led to. -/
theorem split (h : Succession d R first (pre ++ post) last) :
    ∃ mid, Succession d R first pre mid ∧ Succession d R mid post last := by
  induction post using List.reverseRecOn generalizing last with
  | nil =>
      rw [List.append_nil] at h
      exact ⟨last, h, .start⟩
  | append_singleton post x ih =>
      rw [← List.append_assoc] at h
      obtain ⟨before, h, hR, hv, he, hlast⟩ := concat_iff.mp h
      obtain ⟨mid, hpre, hpost⟩ := ih h
      exact ⟨mid, hpre, concat_iff.mpr ⟨before, hpost, hR, hv, he, hlast⟩⟩

end Succession

/-! ## One execution in a run -/

variable [DecidableEq ι] {es es' : List (Event ι)} {i : ι}

/-- The commits to an execution, if there is one, are a succession that leads to what
    is stored. -/
inductive Line (d : Display) (R : ι → Execution → Execution → Prop) (id : String)
    (m : MemoryStore) (es : List (Event ι)) : Prop where
  | absent : m.get? id = none → commitsTo es id = [] → Line d R id m es
  | present {first last : Execution} : m.get? id = some last →
      Succession d R first (commitsTo es id) last → Line d R id m es

namespace Line

omit [DecidableEq ι] in
/-- Where nothing is committed to the execution, its line is as it was. -/
theorem unmoved (h : Line d R id m es) (hget : m'.get? id = m.get? id)
    (hcommits : commitsTo es' id = commitsTo es id) : Line d R id m' es' := by
  cases h with
  | absent hnone hnil => exact .absent (hget.trans hnone) (hcommits.trans hnil)
  | present hlast hsuccession =>
      rw [← hcommits] at hsuccession
      exact .present (hget.trans hlast) hsuccession

/-- A line is kept by every request that is served, when what is offered may be made
    of what was read. -/
theorem step (h : Line d R id m es) (hlink : Linked m es)
    (hstep : StoreStep d c m now q a m') (hq : q.OwnsId)
    (hoffer : ∀ p v, q = .save p v → ∃ base,
      (Trail.of es i).read = some base ∧ R i base p ∧ p.id = base.id ∧ v = base.version) :
    Line d R id m' (es ++ [⟨i, q, a, now⟩]) := by
  have hsame (h : (⟨i, q, a, now⟩ : Event ι).commit? = none) :
      commitsTo (es ++ [⟨i, q, a, now⟩]) id = commitsTo es id := by
    unfold commitsTo
    rw [commits_concat_none es h]
  cases hstep with
  | load v a _ => exact h.unmoved rfl (hsame (by cases a <;> rfl))
  | uninserted e f => exact h.unmoved rfl (hsame rfl)
  | unsaved p v f hf => exact h.unmoved rfl (hsame rfl)
  | quiet q a hquiet => exact h.unmoved rfl (hsame (Event.commit?_quiet hquiet i a now))
  | @inserted e e' hnew hshows =>
      have hget := MemoryStore.get?_append m e' id
      rw [(d.ownsId hshows hq).2] at hget
      by_cases hid : e.id = id
      · -- The new execution begins its line: there was none before.
        rw [if_pos hid, ← hid, hnew, Option.none_or, hid] at hget
        rw [hid] at hnew
        cases h with
        | absent _ hnil =>
            have hstart : Succession d R e' [] e' := .start
            rw [← hnil, ← hsame rfl] at hstart
            exact .present hget hstart
        | present hlast _ => exact nomatch hnew.symm.trans hlast
      · rw [if_neg hid, Option.or_none] at hget
        exact h.unmoved hget (hsame rfl)
  | @saved p v cur e' hcur hv hshows =>
      obtain ⟨base, hread, hR, hbase, hbv⟩ := hoffer p v rfl
      have hget := MemoryStore.get?_replace m e' id
      rw [(d.ownsId hshows (Execution.OwnsId.committed hq v now)).2,
        Execution.committed_id] at hget
      by_cases hid : p.id = id
      · obtain rfl := hlink.eq_of_saved hcur hread hbase (hv.trans hbv)
        rw [hid] at hcur
        rw [if_pos hid.symm, hcur] at hget
        cases h with
        | absent hnone _ => exact nomatch hnone.symm.trans hcur
        | present hlast hsuccession =>
            obtain rfl := Option.some.inj (hcur.symm.trans hlast)
            rw [hbv] at hshows
            have hcommit := Succession.commit now hsuccession hR hshows
            have hcommits : commitsTo (es ++ [⟨i, .save p v, .ok (p.committed v now), now⟩]) id =
                commitsTo es id ++ [⟨i, now, ⟨p, v, p.committed v now⟩⟩] :=
              commitsTo_concat_self es rfl hid
            rw [← hbv, ← hcommits] at hcommit
            exact .present hget hcommit
      · rw [if_neg (fun h => hid h.symm)] at hget
        exact h.unmoved hget (commitsTo_concat_other es rfl hid)

omit [DecidableEq ι] in
/-- From what the store shows of any commit to the execution the succession goes on to
    what is stored. -/
theorem after (h : Line d R id m es) {x : Commit ι} (hx : x ∈ commitsTo es id) :
    ∃ last pre post shown, m.get? id = some last ∧ commitsTo es id = pre ++ x :: post ∧
      d.Shows x.write.stored shown ∧ Succession d R shown post last := by
  obtain ⟨pre, post, hall⟩ := List.append_of_mem hx
  cases h with
  | absent _ hnil =>
      rw [hnil] at hx
      exact absurd hx List.not_mem_nil
  | @present first last hlast hsuccession =>
      rw [hall, ← List.singleton_append, ← List.append_assoc] at hsuccession
      obtain ⟨mid, hmid, hpost⟩ := hsuccession.split
      obtain ⟨_, _, _, _, _, hshows⟩ := Succession.concat_iff.mp hmid
      exact ⟨last, pre, post, mid, hlast, hall, hshows, hpost⟩

end Line

end Workflow
