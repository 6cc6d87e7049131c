import Workflow.Proofs.Definition
import Workflow.Recovery.Move

/-! # Visits — the safe steps visited, from the last one back

    The steps that an execution has been at are gone through from the last one back.  A
    safe step is listed where it is come upon first, with the number of steps gone back
    and the time of the record that led there; the present step is passed over.

    The heart is `rollbackPoints_place`: the scan skips some steps and counts them all, so
    what is listed stands where its count says. -/

namespace Workflow

variable {d : Definition} {p : RollbackPoint} {s step : String}

/-! ## The scan -/

variable {seen : List String} {n : Nat} {vs : List (String × Option Timestamp)}

/-- Does the point stand for the first place of its step, and tell how far that is, where
    the count begins at `n`? -/
def RollbackPoint.Marks (p : RollbackPoint) (n : Nat) (vs : List (String × Option Timestamp)) :
    Prop :=
  ∃ newer older, vs = newer ++ (p.step, p.timestamp) :: older ∧
    p.stepsBack = n + newer.length ∧ p.step ∉ newer.map Prod.fst

/-- Behind another step everything is one step further away. -/
theorem RollbackPoint.Marks.cons (h : p.Marks (n + 1) vs) (hne : p.step ≠ s)
    (t : Option Timestamp) : p.Marks n ((s, t) :: vs) := by
  obtain ⟨newer, older, rfl, hcount, hfirst⟩ := h
  refine ⟨(s, t) :: newer, older, rfl, ?_, List.not_mem_cons_of_ne_of_not_mem hne hfirst⟩
  rw [hcount, List.length_cons, Nat.add_assoc, Nat.add_comm 1]

namespace Definition

/-- A step is taken that is safe and was not seen before. -/
theorem rollbackPoints_cons (s : String) (t : Option Timestamp) :
    d.rollbackPoints seen n ((s, t) :: vs) =
      if s ∉ seen ∧ s ∈ d.safeSteps then
        ⟨s, t, n, d.pointDescription s⟩ :: d.rollbackPoints (s :: seen) (n + 1) vs
      else d.rollbackPoints seen (n + 1) vs := by
  rw [rollbackPoints]
  by_cases hs : s ∉ seen ∧ s ∈ d.safeSteps
  · rw [if_pos hs, if_neg (by simp [hs.1, hs.2])]
  · rw [if_neg hs, if_pos (by simpa [or_iff_not_imp_left] using hs)]

/-- What is listed is a safe step that was not seen before, at the first place at which
    the scan comes upon it. -/
theorem rollbackPoints_place (h : p ∈ d.rollbackPoints seen n vs) :
    p.step ∈ d.safeSteps ∧ p.step ∉ seen ∧ p.Marks n vs := by
  induction vs generalizing seen n with
  | nil => exact absurd h List.not_mem_nil
  | cons v vs ih =>
      obtain ⟨s, t⟩ := v
      rw [rollbackPoints_cons] at h
      split at h
      · rename_i hs
        rcases List.mem_cons.mp h with rfl | h
        · exact ⟨hs.2, hs.1, [], vs, rfl, rfl, List.not_mem_nil⟩
        · obtain ⟨hsafe, hnew, hmarks⟩ := ih h
          have hne : p.step ≠ s := fun hs => hnew (hs ▸ List.mem_cons_self)
          exact ⟨hsafe, fun hseen => hnew (List.mem_cons_of_mem _ hseen), hmarks.cons hne t⟩
      · rename_i hs
        obtain ⟨hsafe, hnew, hmarks⟩ := ih h
        have hne : p.step ≠ s := by
          rintro rfl
          exact hs ⟨hnew, hsafe⟩
        exact ⟨hsafe, hnew, hmarks.cons hne t⟩

end Definition

/-! ## What is listed of an execution -/

namespace RollbackPoint

/-- A point of the scan backwards stands where its count says. -/
theorem Marks.split (h : p.Marks 0 vs.reverse) :
    ∃ before after, vs = before ++ (p.step, p.timestamp) :: after ∧
      p.stepsBack = after.length ∧ p.step ∉ after.map Prod.fst := by
  obtain ⟨newer, older, hvs, hcount, hfirst⟩ := h
  refine ⟨older.reverse, newer.reverse, ?_, ?_, ?_⟩
  · rw [← List.reverse_reverse vs, hvs]
    simp
  · rw [hcount, List.length_reverse, Nat.zero_add]
  · rwa [List.map_reverse, List.mem_reverse]

/-- Where a step was entered by a record, its time is that of the record. -/
theorem Marks.entered {first : String} {history : List TransitionRecord}
    (h : p.Marks 0 ((first, none) ::
      history.map fun r => (r.toStep, some r.timestamp)).reverse) :
    p.stepsBack = history.length ∧ p.timestamp = none ∨
      p.stepsBack < history.length ∧ ∃ r, history[history.length - 1 - p.stepsBack]? = some r ∧
        r.toStep = p.step ∧ p.timestamp = some r.timestamp := by
  obtain ⟨before, after, hvs, hcount, _⟩ := h.split
  cases before with
  | nil =>
      obtain ⟨hfirst, rfl⟩ := List.cons.inj hvs
      refine .inl ⟨?_, (Prod.mk.inj hfirst).2.symm⟩
      rw [hcount, List.length_map]
  | cons v before =>
      obtain ⟨older, newer, rfl, rfl, hnewer⟩ := List.map_eq_append_iff.mp (List.cons.inj hvs).2
      obtain ⟨r, rest, rfl, hr, rfl⟩ := List.map_eq_cons_iff.mp hnewer
      obtain ⟨hstep, htime⟩ := Prod.mk.inj hr
      rw [List.length_map] at hcount
      have hlength : (older ++ r :: rest).length = older.length + rest.length + 1 := by
        simp [Nat.add_assoc]
      have hplace : older.length + rest.length + 1 - 1 - p.stepsBack = older.length := by omega
      rw [hlength, hplace]
      exact .inr ⟨by omega, r, by simp, hstep, htime.symm⟩

end RollbackPoint

namespace Definition

end Definition

end Workflow
