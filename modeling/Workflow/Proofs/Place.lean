import Workflow.Proofs.Value
import Workflow.Value.Place

/-! # Place — comparisons that come to an end

    A value that has a JSON text is a finite tree, whatever it is compared with: a
    comparison goes down both values at once, and so no deeper than that tree is.  The
    bound on the pairs of parts leaves room for it. -/

namespace Workflow

namespace Value

variable {x : Value} {xs : List Value} {es : Mapping}

theorem weight_le_of_mem (h : x ∈ xs) : x.weight ≤ weightOfItems xs := by
  induction xs with
  | nil => exact absurd h List.not_mem_nil
  | cons y ys ih =>
      unfold weightOfItems
      rcases List.mem_cons.mp h with rfl | h
      · exact Nat.le_add_right _ _
      · exact Nat.le_trans (ih h) (Nat.le_add_left _ _)

theorem weight_le_of_mem_entries {e : Value × Value} (h : e ∈ es) :
    e.2.weight ≤ weightOfEntries es := by
  induction es with
  | nil => exact absurd h List.not_mem_nil
  | cons y ys ih =>
      obtain ⟨k, v⟩ := y
      unfold weightOfEntries
      rcases List.mem_cons.mp h with rfl | h
      · exact Nat.le_add_right _ _
      · exact Nat.le_trans (ih h) (Nat.le_add_left _ _)

theorem weight_pos (v : Value) : 0 < v.weight := by
  cases v <;> simp [weight]

end Value

namespace Place

variable {p q : Place} {depth : Nat}

/-- A check of all items has an answer when each check has one. -/
theorem isSome_allM {α : Type} {f : α → Option Bool} {l : List α}
    (h : ∀ x ∈ l, (f x).isSome = true) : (l.allM f).isSome = true := by
  induction l with
  | nil => rfl
  | cons x l ih =>
      rw [List.forall_mem_cons] at h
      obtain ⟨b, hb⟩ := Option.isSome_iff_exists.mp h.1
      unfold List.allM
      rw [hb]
      cases b with
      | false => rfl
      | true  => exact ih h.2

/-- What has a JSON text is where it stands. -/
theorem target_of_encodes (h : q.value.Encodes) : q.target = q := by
  unfold target
  split
  · rename_i n hup
    rw [hup] at h
    obtain ⟨cs, h⟩ := h
    exact nomatch h
  · rfl

/-- A comparison with a finite tree has an answer at a depth beyond the parts of it. -/
theorem isSome_same (h : q.value.Encodes) (hdepth : q.value.weight ≤ depth) :
    (same depth p q).isSome = true := by
  induction depth generalizing p q with
  | zero =>
      have := q.value.weight_pos
      omega
  | succ depth ih =>
      unfold same
      rw [target_of_encodes h]
      dsimp only
      generalize p.target = p
      have hitems {ys : List Value} (hys : ∀ y ∈ ys, y.Encodes)
          (hweight : Value.weightOfItems ys ≤ depth) (xs : List Value) (part part' : Value → Place)
          (hpart : ∀ y, (part' y).value = y) :
          ((xs.zip ys).allM fun z => same depth (part z.1) (part' z.2)).isSome = true := by
        refine isSome_allM fun z hz => ih ?_ ?_
        · rw [hpart]
          exact hys z.2 (List.of_mem_zip hz).2
        · rw [hpart]
          exact Nat.le_trans (Value.weight_le_of_mem (List.of_mem_zip hz).2) hweight
      -- the parts of containers of one kind are compared, and nothing else is
      split
      · rename_i xs ys _ hw
        rw [hw] at h hdepth
        split
        · exact hitems (Value.encodes_list.mp h) (Nat.le_of_succ_le_succ hdepth) xs
            p.part q.part fun _ => rfl
        · rfl
      · rename_i xs ys _ hw
        rw [hw] at h hdepth
        obtain ⟨common, hcommon⟩ := Option.isSome_iff_exists.mp
          (hitems (Value.encodes_tuple.mp h) (Nat.le_of_succ_le_succ hdepth) xs
            p.part q.part fun _ => rfl)
        rw [hcommon]
        rfl
      · rename_i es fs _ hw
        rw [hw] at h hdepth
        split
        · refine isSome_allM fun e _ => ?_
          cases hf : fs.find? fun f => e.1.equal f.1 with
          | none => rfl
          | some f =>
              have hmem := List.mem_of_find?_eq_some hf
              refine ih (Value.encodes_dict.mp h f hmem).2 ?_
              exact Nat.le_trans (Value.weight_le_of_mem_entries hmem)
                (Nat.le_of_succ_le_succ hdepth)
        · rfl
      · rfl

/-- The bound on the pairs of parts is such a depth. -/
theorem isSome_same? (h : q.value.Encodes) : (p.same? q).isSome = true := by
  refine isSome_same h ?_
  unfold pairBound
  simp only [List.map_cons, List.sum_cons]
  have hp := p.value.weight_pos
  have hle := Nat.le_mul_of_pos_left (q.value.weight + (q.enclosing.map Value.weight).sum)
    (Nat.add_pos_left hp (p.enclosing.map Value.weight).sum)
  omega

end Place

end Workflow
