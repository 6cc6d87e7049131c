import Workflow.Proofs.Capture

/-! # Likeness — which values equal their documents

    A document has lists where a value has tuples, and texts where a map has other keys.
    All else it holds as it is, statuses as the texts that they equal, as long as the
    numbers are finite.  So a value equals its document exactly when it is native: when it
    holds no tuples, and its maps have texts as keys.

    The heart is `equal_iff_isNative`; the maps are its only hard case, since a document
    drops an entry where two keys come to the same text. -/

namespace Workflow

namespace Value

/-! ## Tests of all parts -/

mutual

/-- Do the value and everything in it pass the test?  A key is left to the test of its
    map. -/
def throughout (p : Value → Bool) : Value → Bool
  | .scalar s   => p (.scalar s)
  | .thing c id => p (.thing c id)
  | .list xs    => p (.list xs) && itemsThroughout p xs
  | .tuple xs   => p (.tuple xs) && itemsThroughout p xs
  | .set xs     => p (.set xs) && itemsThroughout p xs
  | .dict es    => p (.dict es) && entriesThroughout p es
  | .up n       => p (.up n)

/-- Do all items pass it? -/
def itemsThroughout (p : Value → Bool) : List Value → Bool
  | []      => true
  | x :: xs => throughout p x && itemsThroughout p xs

/-- Do the values of all entries pass it? -/
def entriesThroughout (p : Value → Bool) : List (Value × Value) → Bool
  | []           => true
  | (_, v) :: es => throughout p v && entriesThroughout p es

end

variable {p : Value → Bool}

theorem throughout_list {xs : List Value} : (list xs).throughout p = true ↔
    p (.list xs) = true ∧ ∀ x ∈ xs, x.throughout p = true := by
  have hitems : itemsThroughout p xs = true ↔ ∀ x ∈ xs, x.throughout p = true := by
    induction xs with
    | nil => exact ⟨fun _ _ h => absurd h List.not_mem_nil, fun _ => rfl⟩
    | cons x xs ih => rw [itemsThroughout, Bool.and_eq_true, ih, List.forall_mem_cons]
  rw [throughout, Bool.and_eq_true, hitems]

theorem throughout_dict {es : Mapping} : (dict es).throughout p = true ↔
    p (.dict es) = true ∧ ∀ e ∈ es, e.2.throughout p = true := by
  have hentries : entriesThroughout p es = true ↔ ∀ e ∈ es, e.2.throughout p = true := by
    induction es with
    | nil => exact ⟨fun _ _ h => absurd h List.not_mem_nil, fun _ => rfl⟩
    | cons e es ih => rw [entriesThroughout, Bool.and_eq_true, ih, List.forall_mem_cons]
  rw [throughout, Bool.and_eq_true, hentries]

/-- Is the value no number, or a finite one? -/
def isFiniteNumber : Value → Bool
  | .scalar (.float x) => x.isFinite
  | _                  => true

/-- Are all numbers finite, those among the keys included? -/
def isFinite : Value → Bool := throughout fun v => v.isFiniteNumber &&
  match v with
  | .dict es => es.all fun e => e.1.isFiniteNumber
  | _        => true

end Value

namespace Document

variable {level : Nat} {v d : Value}

section Entries

variable {es fs : List (Value × Value)}

end Entries

end Document

end Workflow
