import Mathlib.Data.List.TakeWhile
import Mathlib.Tactic.Ring
import Workflow.Proofs.Json

/-! # Reading — what is read of JSON texts

    Whatever a text denotes has a JSON text again: the reader makes nothing but texts,
    numbers, words, and lists and maps of what it has made, and it takes no integer that
    is too long to be written.  This does not ask where the text came from.

    The heart is `readsEncoding`, by induction on the depth that is left. -/

namespace Workflow

/-- Digits denote less than the power of ten that has a digit more. -/
theorem ofDigits_lt {ds : List Char} (h : ∀ c ∈ ds, c.isDigit = true) :
    ofDigits ds < 10 ^ ds.length := by
  -- what was read before the digits is carried along
  have hfrom (n : Nat) : ds.foldl (fun n c => 10 * n + (c.toNat - '0'.toNat)) n <
      (n + 1) * 10 ^ ds.length := by
    induction ds generalizing n with
    | nil => simp
    | cons c ds ih =>
        have hc : c.toNat - '0'.toNat < 10 := by
          have hdigit := h c List.mem_cons_self
          simp only [Char.isDigit, Bool.and_eq_true, decide_eq_true_eq] at hdigit
          have hle : c.toNat ≤ 57 := hdigit.2
          have hzero : '0'.toNat = 48 := rfl
          omega
        have hrest := ih (fun x hx => h x (List.mem_cons_of_mem _ hx))
          (10 * n + (c.toNat - '0'.toNat))
        rw [List.foldl_cons, List.length_cons, Nat.pow_succ]
        refine Nat.lt_of_lt_of_le hrest ?_
        calc (10 * n + (c.toNat - '0'.toNat) + 1) * 10 ^ ds.length
            ≤ (10 * (n + 1)) * 10 ^ ds.length := Nat.mul_le_mul_right _ (by omega)
          _ = (n + 1) * (10 ^ ds.length * 10) := by ring
  have hzero := hfrom 0
  rw [Nat.zero_add, Nat.one_mul] at hzero
  exact hzero

namespace Json

variable {cs rest : List Char} {v : Value}

/-- An integer that is not too long has a JSON text. -/
theorem encodes_int {i : Int} (h : i.natAbs < 10 ^ digitLimit) : (Value.int i).Encodes := by
  refine ⟨intText i, ?_⟩
  show encode false (.scalar (.int i)) = _
  rw [encode, if_neg]
  · rfl
  · unfold isLong
    rw [decide_eq_true_iff]
    omega

theorem encodes_float (x : Binary64) : (Value.float x).Encodes := ⟨floatChars x, rfl⟩

/-- A whole number that is read has no more digits than are written. -/
theorem encodes_digits {negative : Bool} {ds : List Char} (hds : ∀ c ∈ ds, c.isDigit = true)
    (hlength : ds.length ≤ digitLimit) :
    (Value.int (if negative then -(ofDigits ds : Int) else ofDigits ds)).Encodes := by
  have habs : (if negative then -(ofDigits ds : Int) else ofDigits ds).natAbs =
      ofDigits ds := by
    cases negative with
    | false => rfl
    | true => exact Int.natAbs_neg _
  refine encodes_int ?_
  rw [habs]
  exact Nat.lt_of_lt_of_le (ofDigits_lt hds) (Nat.pow_le_pow_right (by decide) hlength)

/-- What stands behind the digits decides: an exponent or a fraction makes a double. -/
theorem encodes_of_parts {negative : Bool} {ds after : List Char}
    {e? : Option (Int × List Char)} {x : Int → Binary64} {p : Prop} [Decidable p]
    (hds : ∀ c ∈ ds, c.isDigit = true)
    (h : (match e? with
      | some (e, rest) => .ok (.float (x e), rest)
      | none =>
        if p then .ok (.float (x 0), after)
        else if ds.length ≤ digitLimit then
          .ok (.int (if negative then -(ofDigits ds : Int) else ofDigits ds), after)
        else .error .longInteger : Except Fault (Value × List Char)) = .ok (v, rest)) :
    v.Encodes := by
  split at h
  · rw [← (Prod.mk.inj (Except.ok.inj h)).1]
    exact encodes_float _
  · split at h
    · rw [← (Prod.mk.inj (Except.ok.inj h)).1]
      exact encodes_float _
    · split at h
      · rename_i hlength
        rw [← (Prod.mk.inj (Except.ok.inj h)).1]
        exact encodes_digits hds hlength
      · cases h

theorem encodes_of_readNumber {negative : Bool}
    (h : readNumber negative cs = .ok (v, rest)) : v.Encodes := by
  unfold readNumber at h
  dsimp only at h
  split at h
  · -- a zero that more digits follow is a number of its own
    exact encodes_of_parts (by simp) ((if_neg (List.cons_ne_nil _ _)).symm.trans h)
  · split at h
    · cases h
    · exact encodes_of_parts (fun c hc => List.mem_takeWhile_imp hc) h

theorem encodes_of_readWord {word : String} {u : Value} (hu : u.Encodes)
    (h : readWord word u cs = .ok (v, rest)) : v.Encodes := by
  unfold readWord at h
  split at h
  · rw [← (Prod.mk.inj (Except.ok.inj h)).1]
    exact hu
  · exact nomatch h

theorem encodes_of_readAtom (h : readAtom cs = .ok (v, rest)) : v.Encodes := by
  unfold readAtom at h
  split at h
  · exact encodes_of_readWord ⟨_, rfl⟩ h
  · exact encodes_of_readWord ⟨_, rfl⟩ h
  · exact encodes_of_readWord ⟨_, rfl⟩ h
  · exact encodes_of_readWord (encodes_float _) h
  · exact encodes_of_readWord (encodes_float _) h
  · exact encodes_of_readWord (encodes_float _) h
  · exact encodes_of_readNumber h
  · exact encodes_of_readNumber h

/-- Entries with texts as keys and values that have JSON texts make a map that has one. -/
theorem encodes_ofEntries {es : List (Value × Value)}
    (h : ∀ e ∈ es, (∃ k, e.1 = .str k) ∧ e.2.Encodes) :
    (Value.dict (Mapping.ofEntries es)).Encodes :=
  (Document.fit_ofEntries h).encodes

/-- Does all that a reader that may go so deep reads, values, items and entries, have a JSON
    text? -/
structure ReadsEncoding (fuel : Nat) : Prop where
  value   : ∀ {cs v rest}, readValue fuel cs = .ok (v, rest) → v.Encodes
  items   : ∀ {cs xs rest}, readItems fuel cs = .ok (xs, rest) → ∀ x ∈ xs, x.Encodes
  entries : ∀ {cs es rest}, readEntries fuel cs = .ok (es, rest) →
    ∀ e ∈ es, (∃ k, e.1 = .str k) ∧ e.2.Encodes

namespace ReadsEncoding

variable {fuel : Nat}

/-- A value is read of parts that are read with less depth than the whole, … -/
theorem value_succ (ih : ReadsEncoding fuel) (h : readValue (fuel + 1) cs = .ok (v, rest)) :
    v.Encodes := by
  rw [readValue] at h
  split at h
  · obtain ⟨⟨s, _⟩, _, h⟩ := exceptBind_ok.mp h
    rw [← (Prod.mk.inj (Except.ok.inj h)).1]
    exact Value.encodes_str s
  · split at h
    · rw [← (Prod.mk.inj (Except.ok.inj h)).1]
      exact ⟨_, rfl⟩
    · obtain ⟨⟨xs, _⟩, hxs, h⟩ := exceptBind_ok.mp h
      rw [← (Prod.mk.inj (Except.ok.inj h)).1]
      exact Value.encodes_list.mpr (ih.items hxs)
  · split at h
    · rw [← (Prod.mk.inj (Except.ok.inj h)).1]
      exact ⟨_, rfl⟩
    · obtain ⟨⟨es, _⟩, hes, h⟩ := exceptBind_ok.mp h
      rw [← (Prod.mk.inj (Except.ok.inj h)).1]
      exact encodes_ofEntries (ih.entries hes)
  · exact encodes_of_readAtom h

/-- … items of the first and the others, … -/
theorem items_succ (ih : ReadsEncoding fuel) {xs : List Value}
    (h : readItems (fuel + 1) cs = .ok (xs, rest)) : ∀ x ∈ xs, x.Encodes := by
  rw [readItems] at h
  obtain ⟨⟨x, _⟩, hx, h⟩ := exceptBind_ok.mp h
  dsimp only at h
  split at h
  · rw [← (Prod.mk.inj (Except.ok.inj h)).1]
    exact List.forall_mem_singleton.mpr (ih.value hx)
  · obtain ⟨⟨ys, _⟩, hys, h⟩ := exceptBind_ok.mp h
    rw [← (Prod.mk.inj (Except.ok.inj h)).1]
    exact List.forall_mem_cons.mpr ⟨ih.value hx, ih.items hys⟩
  · cases h

/-- … and so are entries, with texts as keys. -/
theorem entries_succ (ih : ReadsEncoding fuel) {es : List (Value × Value)}
    (h : readEntries (fuel + 1) cs = .ok (es, rest)) :
    ∀ e ∈ es, (∃ k, e.1 = .str k) ∧ e.2.Encodes := by
  rw [readEntries] at h
  split at h
  · obtain ⟨⟨k, _⟩, _, h⟩ := exceptBind_ok.mp h
    dsimp only at h
    split at h
    · obtain ⟨⟨u, _⟩, hu, h⟩ := exceptBind_ok.mp h
      dsimp only at h
      split at h
      · rw [← (Prod.mk.inj (Except.ok.inj h)).1]
        exact List.forall_mem_singleton.mpr ⟨⟨k, rfl⟩, ih.value hu⟩
      · obtain ⟨⟨fs, _⟩, hfs, h⟩ := exceptBind_ok.mp h
        rw [← (Prod.mk.inj (Except.ok.inj h)).1]
        exact List.forall_mem_cons.mpr ⟨⟨⟨k, rfl⟩, ih.value hu⟩, ih.entries hfs⟩
      · cases h
    · cases h
  · cases h

end ReadsEncoding

/-- Whatever is read has a JSON text, however deep the reader may go. -/
theorem readsEncoding (fuel : Nat) : ReadsEncoding fuel := by
  induction fuel with
  | zero => constructor <;> intro _ _ _ h <;> cases h
  | succ fuel ih => exact ⟨ih.value_succ, ih.items_succ, ih.entries_succ⟩

/-- What a text denotes has a JSON text. -/
theorem encodes_of_read? {s : String} (h : read? s = some v) : v.Encodes := by
  unfold read? at h
  cases hr : read s with
  | error f =>
      rw [hr] at h
      exact nomatch h
  | ok u =>
      rw [hr] at h
      obtain ⟨⟨u', _⟩, hvalue, hu⟩ := exceptBind_ok.mp hr
      dsimp only at hu
      split at hu
      · rw [← Option.some.inj h, ← Except.ok.inj hu]
        exact (readsEncoding _).value hvalue
      · exact nomatch hu

end Json

end Workflow
