import Workflow.Proofs.Value

/-! # Traversal — texts of lists and maps, part by part

    A list or a map is written part by part, and the first part that has no text ends it.
    So each text among those of the parts is the text of one of them, and what is refused
    is refused at one of them. -/

namespace Workflow

variable {ε α β : Type}

/-- A sequence fails exactly when its first part does, or its second on the first's
    result. -/
theorem exceptBind_error {r : Except ε α} {k : α → Except ε β} {err : ε} :
    (r >>= k) = .error err ↔ r = .error err ∨ ∃ a, r = .ok a ∧ k a = .error err := by
  cases r with
  | ok a =>
      constructor
      · exact fun h => .inr ⟨a, rfl, h⟩
      · rintro (h | ⟨a', ha, h⟩)
        · exact nomatch h
        · rw [Except.ok.inj ha]
          exact h
  | error f =>
      constructor
      · exact fun h => .inl (congrArg _ (Except.error.inj h))
      · rintro (h | ⟨a, ha, _⟩)
        · exact congrArg _ (Except.error.inj h)
        · exact nomatch ha

theorem exceptMap_error {r : Except ε α} {k : α → β} {err : ε} :
    r.map k = .error err ↔ r = .error err := by
  cases r with
  | ok a => exact ⟨(fun h => nomatch h), fun h => nomatch h⟩
  | error f =>
      constructor
      · exact fun h => congrArg _ (Except.error.inj h)
      · exact fun h => congrArg _ (Except.error.inj h)

section Traversal

variable {f : α → Except ε β} {xs : List α} {ys : List β} {err : ε}

/-- What comes of a list comes of its items. -/
theorem exists_of_mapM_ok (h : xs.mapM f = .ok ys) : ∀ y ∈ ys, ∃ x ∈ xs, f x = .ok y := by
  induction xs generalizing ys with
  | nil =>
      rw [← Except.ok.inj h]
      exact fun y hy => absurd hy List.not_mem_nil
  | cons x xs ih =>
      rw [List.mapM_cons] at h
      obtain ⟨y, hy, h⟩ := exceptBind_ok.mp h
      obtain ⟨ys', hys, h⟩ := exceptBind_ok.mp h
      rw [← Except.ok.inj h]
      refine List.forall_mem_cons.mpr ⟨⟨x, List.mem_cons_self, hy⟩, fun z hz => ?_⟩
      obtain ⟨x', hx', hxz⟩ := ih hys z hz
      exact ⟨x', List.mem_cons_of_mem _ hx', hxz⟩

/-- What fails in a list fails at one of its items. -/
theorem exists_of_mapM_error (h : xs.mapM f = .error err) : ∃ x ∈ xs, f x = .error err := by
  induction xs with
  | nil => exact nomatch h
  | cons x xs ih =>
      rw [List.mapM_cons] at h
      rcases exceptBind_error.mp h with h | ⟨y, _, h⟩
      · exact ⟨x, List.mem_cons_self, h⟩
      rcases exceptBind_error.mp h with h | ⟨ys, _, h⟩
      · obtain ⟨x', hx', h⟩ := ih h
        exact ⟨x', List.mem_cons_of_mem _ hx', h⟩
      · exact nomatch h

end Traversal

namespace Json

variable {lenient : Bool} {xs : List Value} {es : Mapping} {ts : List (List Char)} {t : List Char}
  {r : JsonRefusal}

/-- Items are written one by one. -/
theorem encodeItems_eq (lenient : Bool) (xs : List Value) :
    encodeItems lenient xs = xs.mapM (encode lenient) := by
  induction xs with
  | nil => rfl
  | cons x xs ih => rw [encodeItems, ih, List.mapM_cons]

/-- An entry is written as its key and its value. -/
def encodeEntry (lenient : Bool) (e : Value × Value) : Except JsonRefusal (List Char) := do
  let key ← keyText e.1
  let t ← encode lenient e.2
  pure (quote key ++ ':' :: ' ' :: t)

theorem encodeEntries_eq (lenient : Bool) (es : Mapping) :
    encodeEntries lenient es = es.mapM (encodeEntry lenient) := by
  induction es with
  | nil => rfl
  | cons e es ih =>
      rw [encodeEntries, ih, List.mapM_cons, encodeEntry]
      simp only [bind_assoc, pure_bind]

theorem exists_of_encodeItems (h : encodeItems lenient xs = .ok ts) (ht : t ∈ ts) :
    ∃ x ∈ xs, encode lenient x = .ok t :=
  exists_of_mapM_ok (encodeItems_eq lenient xs ▸ h) t ht

theorem exists_of_encodeEntries (h : encodeEntries lenient es = .ok ts) (ht : t ∈ ts) :
    ∃ e ∈ es, ∃ k u, encode lenient e.2 = .ok u ∧ t = quote k ++ ':' :: ' ' :: u := by
  obtain ⟨e, he, h⟩ := exists_of_mapM_ok (encodeEntries_eq lenient es ▸ h) t ht
  obtain ⟨k, _, h⟩ := exceptBind_ok.mp h
  obtain ⟨u, hu, h⟩ := exceptBind_ok.mp h
  exact ⟨e, he, k, u, hu, (Except.ok.inj h).symm⟩

theorem exists_of_encodeItems_error (h : encodeItems lenient xs = .error r) :
    ∃ x ∈ xs, encode lenient x = .error r :=
  exists_of_mapM_error (encodeItems_eq lenient xs ▸ h)

/-- Entries with texts as keys are refused at nothing but their values. -/
theorem exists_of_encodeEntries_error (hkeys : ∀ e ∈ es, ∃ k, e.1 = .str k)
    (h : encodeEntries lenient es = .error r) : ∃ e ∈ es, encode lenient e.2 = .error r := by
  obtain ⟨e, he, h⟩ := exists_of_mapM_error (encodeEntries_eq lenient es ▸ h)
  refine ⟨e, he, ?_⟩
  rcases exceptBind_error.mp h with h | ⟨_, _, h⟩
  · obtain ⟨k, hk⟩ := hkeys e he
    rw [hk] at h
    exact nomatch h
  rcases exceptBind_error.mp h with h | ⟨_, _, h⟩
  · exact h
  · exact nomatch h

end Json

end Workflow
