import Mathlib.Algebra.Order.Field.Power
import Mathlib.Tactic.Linarith
import Mathlib.Tactic.NormNum
import Mathlib.Tactic.Positivity
import Mathlib.Tactic.Ring
import Workflow.Proofs.Decimal

/-! # Rounding — how far the operations on doubles are from the exact ones

    A finite double is a rational number.  A sum, a product or both at once is the exact
    one, rounded; so when the exact one is at most `2 ^ N`, the result is finite and within
    `2 ^ (N - 53)` of it, half of what the last bit is worth there.

    The heart is `ofUnits_near`, the rounding of one ratio of units. -/

namespace Workflow

namespace Binary64

variable {x y z : Binary64} {a b c : ℚ} {s : Bool} {n d j : Nat} {i : Int} {N : ℤ}

/-! ## One rounding -/

/-- A quotient is rounded to a whole number that is no further than a half from it. -/
theorem roundQuotient_near (hd : 0 < d) (n : Nat) :
    2 * (roundQuotient n d * d) ≤ 2 * n + d ∧ 2 * n ≤ 2 * (roundQuotient n d * d) + d := by
  have hdiv : n / d * d + n % d = n := Nat.div_add_mod' n d
  have hmod : n % d < d := Nat.mod_lt n hd
  have hsucc : (n / d + 1) * d = n / d * d + d := Nat.succ_mul _ _
  unfold roundQuotient
  dsimp only
  split
  · omega
  · split
    · omega
    · split <;> omega

/-- Nothing else is as near to it. -/
theorem roundQuotient_eq (hbelow : 2 * n < (2 * j + 1) * d) (habove : 2 * j * d < 2 * n + d) :
    roundQuotient n d = j := by
  have hd : 0 < d := by
    by_contra h
    simp [Nat.eq_zero_of_not_pos h] at hbelow
  obtain ⟨hle, hge⟩ := roundQuotient_near hd n
  generalize roundQuotient n d = m at hle hge
  have hupper : 2 * m * d < (2 * j + 2) * d := by
    calc 2 * m * d = 2 * (m * d) := Nat.mul_assoc _ _ _
      _ < (2 * j + 1) * d + d := by omega
      _ = (2 * j + 2) * d := (Nat.succ_mul _ _).symm
  have hlower : 2 * j * d < (2 * m + 2) * d := by
    calc 2 * j * d < 2 * (m * d) + d + d := by omega
      _ = (2 * m + 2) * d := by ring
  have := Nat.lt_of_mul_lt_mul_right hupper
  have := Nat.lt_of_mul_lt_mul_right hlower
  omega

/-- Rounding does not pass a whole number. -/
theorem roundQuotient_le (hd : 0 < d) (h : n ≤ j * d) : roundQuotient n d ≤ j := by
  obtain ⟨hle, _⟩ := roundQuotient_near hd n
  by_contra hlt
  have : (j + 1) * d ≤ roundQuotient n d * d := Nat.mul_le_mul_right _ (by omega)
  rw [Nat.succ_mul] at this
  omega

theorem le_roundQuotient (hd : 0 < d) (h : j * d ≤ n) : j ≤ roundQuotient n d := by
  obtain ⟨_, hge⟩ := roundQuotient_near hd n
  by_contra hlt
  have : (roundQuotient n d + 1) * d ≤ j * d := Nat.mul_le_mul_right _ (by omega)
  rw [Nat.succ_mul] at this
  omega

/-- A ratio of units is shifted to fifty-three bits, the first of them set unless the ratio
    is one of the smallest. -/
theorem shifted_bounds (hd : 0 < d) (n : Nat) :
    n ≤ 2 ^ 53 * (d * 2 ^ ((n / d).log2 - 52)) ∧
      ((n / d).log2 - 52 = 0 ∨ 2 ^ 52 * (d * 2 ^ ((n / d).log2 - 52)) ≤ n) := by
  constructor
  · have hlt : n / d < 2 ^ (53 + ((n / d).log2 - 52)) :=
      Nat.lt_of_lt_of_le Nat.lt_log2_self (Nat.pow_le_pow_right (by omega) (by omega))
    rw [Nat.div_lt_iff_lt_mul hd, Nat.pow_add, Nat.mul_right_comm, Nat.mul_assoc] at hlt
    exact hlt.le
  · refine or_iff_not_imp_left.mpr fun hshift => ?_
    have hne : n / d ≠ 0 := by
      intro h0
      rw [h0] at hshift
      exact hshift rfl
    have hle : 2 ^ (52 + ((n / d).log2 - 52)) ≤ n / d :=
      (Nat.pow_le_pow_right (by omega) (by omega)).trans (Nat.log2_self_le hne)
    rw [Nat.le_div_iff_mul_le hd, Nat.pow_add, Nat.mul_right_comm, Nat.mul_assoc] at hle
    exact hle

/-- A significand of fifty-three bits, or one of the smallest, is packed as it is. -/
theorem pack_magnitude {shift significand : Nat} (hshift : shift + 2 < 2047)
    (hle : significand ≤ 2 ^ 53) (hhidden : shift = 0 ∨ 2 ^ 52 ≤ significand) :
    ∃ e f, pack s shift significand = .finite s e f ∧
      magnitude e f = significand * 2 ^ shift := by
  unfold pack
  split
  · rename_i h
    obtain rfl : shift = 0 := hhidden.resolve_right (by omega)
    exact ⟨0, ⟨significand, h⟩, rfl, by simp [magnitude]⟩
  · split
    · rw [dif_pos (by omega)]
      refine ⟨_, _, rfl, ?_⟩
      simp only [magnitude, Nat.succ_ne_zero, if_false, Nat.add_sub_cancel]
      rw [Nat.add_sub_cancel' (by omega)]
    · obtain rfl : significand = 2 ^ 53 := by omega
      refine ⟨_, _, rfl, ?_⟩
      simp only [magnitude, Nat.add_one_sub_one, Nat.succ_ne_zero, if_false]
      show (2 ^ 52 + 0) * 2 ^ (shift + 1) = 2 ^ 53 * 2 ^ shift
      ring

/-- A ratio of units that is at most `2 ^ j` is rounded to a finite number of units within
    half of what the last bit is worth at `2 ^ j`. -/
theorem ofUnits_near (s : Bool) (hd : 0 < d) (hj : 53 ≤ j) (hj' : j ≤ 2096) (h : n ≤ 2 ^ j * d) :
    ∃ e f, ofUnits s n d = .finite s e f ∧ magnitude e f * d ≤ n + 2 ^ (j - 53) * d ∧
      n ≤ magnitude e f * d + 2 ^ (j - 53) * d := by
  have hlog : (n / d).log2 ≤ j := by
    have hquotient : n / d ≤ 2 ^ j := Nat.div_le_of_le_mul (by rwa [Nat.mul_comm])
    by_cases h0 : n / d = 0
    · rw [h0]
      exact Nat.zero_le _
    · exact (Nat.pow_le_pow_iff_right (by omega)).mp ((Nat.log2_self_le h0).trans hquotient)
  obtain ⟨hmost, hleast⟩ := shifted_bounds hd n
  unfold ofUnits
  dsimp only
  generalize hshift : (n / d).log2 - 52 = shift at hmost hleast ⊢
  have hunit : 0 < d * 2 ^ shift := Nat.mul_pos hd (Nat.two_pow_pos _)
  obtain ⟨e, f, hpack, hmagnitude⟩ := pack_magnitude (s := s) (by omega)
    (roundQuotient_le hunit hmost) (hleast.imp_right (le_roundQuotient hunit))
  -- the shift is at most that of a number at the bound
  have hhalf : d * 2 ^ shift ≤ 2 * (2 ^ (j - 53) * d) := by
    calc d * 2 ^ shift ≤ d * 2 ^ (j - 53 + 1) :=
          Nat.mul_le_mul_left _ (Nat.pow_le_pow_right (by omega) (by omega))
      _ = 2 * (2 ^ (j - 53) * d) := by ring
  have hsame : magnitude e f * d = roundQuotient n (d * 2 ^ shift) * (d * 2 ^ shift) := by
    rw [hmagnitude, Nat.mul_assoc, Nat.mul_comm d]
  obtain ⟨hle, hge⟩ := roundQuotient_near hunit n
  refine ⟨e, f, hpack, ?_, ?_⟩
  · rw [hsame]
    omega
  · rw [hsame]
    omega

/-! ## The rational numbers that doubles are -/

/-- Is the number finite, and this rational one? -/
def Denotes (x : Binary64) (q : ℚ) : Prop :=
  ∃ i : Int, x.units? = some i ∧ q * unitsInOne = i

theorem units_pos : 0 < unitsInOne := by
  obtain ⟨k, -, hunits⟩ := Decimal.unitsInOne_eq
  rw [hunits]
  exact Nat.two_pow_pos k

theorem unitsInOne_pos : (0 : ℚ) < unitsInOne := Nat.cast_pos.mpr units_pos

theorem Denotes.neg (h : x.Denotes a) : (-x).Denotes (-a) := by
  obtain ⟨i, hi, ha⟩ := h
  cases x with
  | finite s e f =>
      obtain rfl := Option.some.inj hi
      refine ⟨_, rfl, ?_⟩
      rw [neg_mul, ha]
      cases s <;> simp
  | _ => exact nomatch hi

/-- The units of a finite number, with its sign. -/
theorem Denotes.finite (h : x.Denotes a) : ∃ s e f, x = .finite s e f ∧
    a * unitsInOne = ((if s then -(magnitude e f : Int) else magnitude e f : Int) : ℚ) := by
  obtain ⟨i, hi, ha⟩ := h
  cases x with
  | finite s e f =>
      obtain rfl := Option.some.inj hi
      exact ⟨s, e, f, rfl, ha⟩
  | _ => exact nomatch hi

theorem exists_denotes (s : Bool) (e : Fin 2047) (f : Fin (2 ^ 52)) :
    ∃ q, (Binary64.finite s e f).Denotes q :=
  ⟨_, _, rfl, div_mul_cancel₀ _ unitsInOne_pos.ne'⟩

/-- Numbers compare like the rational numbers that they are. -/
theorem Denotes.compare?_lt (hx : x.Denotes a) (hy : y.Denotes b) :
    x.compare? y = some .lt ↔ a < b := by
  obtain ⟨s, e, f, rfl, ha⟩ := hx.finite
  obtain ⟨t, e', f', rfl, hb⟩ := hy.finite
  unfold compare?
  dsimp only
  rw [Option.some.injEq, compare_lt_iff_lt, ← Int.cast_lt (R := ℚ), ← ha, ← hb]
  exact mul_lt_mul_iff_left₀ unitsInOne_pos

theorem Denotes.compareInt?_lt (h : x.Denotes a) (j : Int) :
    x.compareInt? j = some .lt ↔ a < j := by
  obtain ⟨s, e, f, rfl, hq⟩ := h.finite
  unfold compareInt?
  dsimp only
  rw [Option.some.injEq, compare_lt_iff_lt, ← Int.cast_lt (R := ℚ), Int.cast_mul,
    Int.cast_natCast, ← hq]
  exact mul_lt_mul_iff_left₀ unitsInOne_pos

theorem denotes_zero : zero.Denotes 0 := ⟨0, rfl, zero_mul _⟩

theorem Denotes.nonneg (h : x.Denotes a) (hx : x.compare? zero ≠ some .lt) : 0 ≤ a := by
  rw [ne_eq, h.compare?_lt denotes_zero] at hx
  exact not_lt.mp hx

theorem Denotes.abs (h : x.Denotes a) : x.abs.Denotes |a| := by
  obtain ⟨s, e, f, rfl, ha⟩ := h.finite
  refine ⟨magnitude e f, rfl, ?_⟩
  rw [← abs_of_pos unitsInOne_pos, ← abs_mul, ha]
  cases s <;> simp

/-- A ratio of units of either sign, rounded.  The sign of zero is free. -/
theorem ofUnits_signed_near (hd : 0 < d) (hj : 53 ≤ j) (hj' : j ≤ 2096)
    (hs : i ≠ 0 → s = decide (i < 0)) (h : i.natAbs ≤ 2 ^ j * d) :
    ∃ k : Int, (ofUnits s i.natAbs d).units? = some k ∧
      (k * d - i).natAbs ≤ 2 ^ (j - 53) * d := by
  obtain ⟨e, f, hfinite, hle, hge⟩ := ofUnits_near s hd hj hj' h
  generalize 2 ^ (j - 53) * d = ε at hle hge ⊢
  generalize hm : magnitude e f * d = m at hle hge
  have hcast : (magnitude e f : Int) * d = m := by exact_mod_cast hm
  rw [hfinite]
  refine ⟨_, rfl, ?_⟩
  by_cases hi : i = 0
  · subst hi
    cases s <;> simp [neg_mul, hcast] <;> omega
  · rw [hs hi]
    by_cases hneg : i < 0
    · simp only [hneg, decide_true, if_true, neg_mul, hcast]
      omega
    · simp only [hneg, decide_false, Bool.false_eq_true, if_false, hcast]
      omega

/-- A power of two is a power of two in units, down to the unit itself. -/
theorem two_zpow_units (hN : -1074 ≤ N) :
    (2 : ℚ) ^ N * unitsInOne = ((2 ^ (N + 1074).toNat : ℕ) : ℚ) := by
  obtain ⟨k, hk, hunits⟩ := Decimal.unitsInOne_eq
  have hcast : ((N + 1074).toNat : ℤ) = N + k := by omega
  rw [hunits, Nat.cast_pow, Nat.cast_pow, Nat.cast_ofNat, ← zpow_natCast, ← zpow_natCast, hcast,
    zpow_add₀ two_ne_zero]

/-- So a rational number that is at most `2 ^ N` is rounded to within `2 ^ (N - 53)`. -/
theorem denotes_near (hd : 0 < d) (hN : -1021 ≤ N) (hN' : N ≤ 1022)
    (hs : i ≠ 0 → s = decide (i < 0)) {q : ℚ} (hq : q * (d * unitsInOne) = i)
    (h : |q| ≤ 2 ^ N) :
    ∃ v, (ofUnits s i.natAbs d).Denotes v ∧ |v - q| ≤ 2 ^ (N - 53) := by
  have hU := unitsInOne_pos
  have hd' : (0 : ℚ) < d := by exact_mod_cast hd
  have hbound := two_zpow_units (N := N) (by omega)
  have herror := two_zpow_units (N := N - 53) (by omega)
  generalize hj : (N + 1074).toNat = j at hbound
  rw [show (N - 53 + 1074).toNat = j - 53 by omega] at herror
  have hle : i.natAbs ≤ 2 ^ j * d := by
    have hi : |(i : ℚ)| = |q| * (d * unitsInOne) := by
      rw [← hq, abs_mul, abs_of_pos (mul_pos hd' hU)]
    have : ((i.natAbs : ℕ) : ℚ) ≤ ((2 ^ j * d : ℕ) : ℚ) := by
      rw [Nat.cast_natAbs, Int.cast_abs, hi, Nat.cast_mul, ← hbound]
      nlinarith [mul_le_mul_of_nonneg_right h (mul_pos hd' hU).le]
    exact_mod_cast this
  obtain ⟨k, hk, hnear⟩ := ofUnits_signed_near hd (by omega) (by omega) hs hle
  refine ⟨k / unitsInOne, ⟨k, hk, div_mul_cancel₀ _ hU.ne'⟩, ?_⟩
  have hnear : |(k * d - i : ℚ)| ≤ 2 ^ (N - 53) * unitsInOne * d := by
    rw [herror, ← Nat.cast_mul, ← Int.cast_natCast d, ← Int.cast_mul, ← Int.cast_sub,
      ← Int.cast_abs, Int.abs_eq_natAbs]
    exact_mod_cast hnear
  have hdiff : (k / unitsInOne - q) * (d * unitsInOne) = (k * d - i : ℚ) := by
    rw [← hq, show (k / unitsInOne - q) * (d * unitsInOne) =
      k / unitsInOne * unitsInOne * d - q * (d * unitsInOne) by ring, div_mul_cancel₀ _ hU.ne']
  have hpos : (0 : ℚ) < d * unitsInOne := mul_pos hd' hU
  rw [← hdiff, abs_mul, abs_of_pos hpos] at hnear
  exact le_of_mul_le_mul_right (by linarith) hpos

/-! ## One operation -/

theorem mul_near (hx : x.Denotes a) (hy : y.Denotes b) (hN : -1021 ≤ N) (hN' : N ≤ 1022)
    (h : |a * b| ≤ 2 ^ N) : ∃ v, (x * y).Denotes v ∧ |v - a * b| ≤ 2 ^ (N - 53) := by
  obtain ⟨s, e, f, rfl, ha⟩ := hx.finite
  obtain ⟨t, e', f', rfl, hb⟩ := hy.finite
  generalize hi : (if s != t then -((magnitude e f * magnitude e' f' : Nat) : Int)
    else (magnitude e f * magnitude e' f' : Nat)) = i
  have habs : i.natAbs = magnitude e f * magnitude e' f' := by
    rw [← hi]
    split <;> omega
  have hvalue : a * b * (unitsInOne * unitsInOne) = i := by
    rw [show a * b * (unitsInOne * unitsInOne) = a * unitsInOne * (b * unitsInOne) by ring, ha,
      hb, ← hi]
    cases s <;> cases t <;> push_cast <;> simp
  have hproduct : (finite s e f * finite t e' f' : Binary64) =
      ofUnits (s != t) (magnitude e f * magnitude e' f') unitsInOne := by
    rw [show (finite s e f * finite t e' f' : Binary64) =
      mul (finite s e f) (finite t e' f') from rfl, mul]
  rw [hproduct, ← habs]
  refine denotes_near units_pos hN hN' (fun h0 => ?_) hvalue h
  cases hsign : s != t with
  | true =>
      rw [hsign, if_pos rfl] at hi
      exact (decide_eq_true (by omega)).symm
  | false =>
      rw [hsign, if_neg Bool.false_ne_true] at hi
      exact (decide_eq_false (by omega)).symm

theorem add_near (hx : x.Denotes a) (hy : y.Denotes b) (hN : -1021 ≤ N) (hN' : N ≤ 1022)
    (h : |a + b| ≤ 2 ^ N) : ∃ v, (x + y).Denotes v ∧ |v - (a + b)| ≤ 2 ^ (N - 53) := by
  obtain ⟨s, e, f, rfl, ha⟩ := hx.finite
  obtain ⟨t, e', f', rfl, hb⟩ := hy.finite
  refine denotes_near Nat.one_pos hN hN' (fun h0 => if_neg h0) ?_ h
  rw [Nat.cast_one, one_mul, add_mul, ha, hb, Int.cast_add]

theorem fused_near (hx : x.Denotes a) (hy : y.Denotes b) (hz : z.Denotes c) (hN : -1021 ≤ N)
    (hN' : N ≤ 1022) (h : |a * b + c| ≤ 2 ^ N) :
    ∃ v, (fused x y z).Denotes v ∧ |v - (a * b + c)| ≤ 2 ^ (N - 53) := by
  obtain ⟨s, e, f, rfl, ha⟩ := hx.finite
  obtain ⟨t, e', f', rfl, hb⟩ := hy.finite
  obtain ⟨u, k, g, rfl, hc⟩ := hz.finite
  refine denotes_near units_pos hN hN' (fun h0 => if_neg h0) ?_ h
  rw [show (a * b + c) * (unitsInOne * unitsInOne) =
    a * unitsInOne * (b * unitsInOne) + c * unitsInOne * unitsInOne by ring, ha, hb, hc]
  generalize unitsInOne = n
  cases s <;> cases t <;> cases u <;> push_cast <;> simp

/-! ## Fractions -/

/-- A fraction is rounded once. -/
theorem ofRatio_near (hd : 0 < d) (hN : -1021 ≤ N) (hN' : N ≤ 1022) (h : |(i / d : ℚ)| ≤ 2 ^ N) :
    ∃ v, (ofRatio i d).Denotes v ∧ |v - i / d| ≤ 2 ^ (N - 53) := by
  have hd' : (d : ℚ) ≠ 0 := by exact_mod_cast hd.ne'
  have habs : i.natAbs * unitsInOne = (i * unitsInOne).natAbs := by
    rw [Int.natAbs_mul, Int.natAbs_natCast]
  have hsign : i < 0 ↔ i * (unitsInOne : Int) < 0 := by
    have : (0 : Int) < unitsInOne := by exact_mod_cast units_pos
    rw [mul_neg_iff]
    omega
  unfold ofRatio
  rw [habs]
  refine denotes_near hd hN hN' (fun _ => by simp only [hsign]) ?_ h
  rw [Int.cast_mul, Int.cast_natCast, ← mul_assoc, div_mul_cancel₀ _ hd']

/-- Fifty-three bits are not rounded at all. -/
theorem ofUnits_exact (s : Bool) {m k : Nat} (hm : m < 2 ^ 53) (hk : k + 2 < 2047) :
    ∃ e f, ofUnits s (m * 2 ^ k) 1 = .finite s e f ∧ magnitude e f = m * 2 ^ k := by
  have hlog : (m * 2 ^ k).log2 - 52 ≤ k := by
    by_cases h0 : m * 2 ^ k = 0
    · rw [h0]
      exact Nat.zero_le _
    · have hlt : m * 2 ^ k < 2 ^ (53 + k) := by
        rw [Nat.pow_add]
        exact Nat.mul_lt_mul_of_pos_right hm (Nat.two_pow_pos _)
      have := (Nat.log2_lt h0).mpr hlt
      omega
  obtain ⟨hmost, hleast⟩ := shifted_bounds Nat.one_pos (m * 2 ^ k)
  unfold ofUnits
  dsimp only
  rw [Nat.div_one, Nat.one_mul] at hmost hleast ⊢
  generalize (m * 2 ^ k).log2 - 52 = shift at hlog hmost hleast ⊢
  have hsplit : m * 2 ^ k = m * 2 ^ (k - shift) * 2 ^ shift := by
    rw [Nat.mul_assoc, ← Nat.pow_add, Nat.sub_add_cancel hlog]
  have hunit : 0 < 2 ^ shift := Nat.two_pow_pos _
  obtain ⟨e, f, hpack, hmagnitude⟩ := pack_magnitude (s := s) (by omega)
    (roundQuotient_le hunit hmost) (hleast.imp_right (le_roundQuotient hunit))
  refine ⟨e, f, hpack, ?_⟩
  rw [hmagnitude, hsplit, roundQuotient_exact hunit]

theorem ofRatio_whole (hi : i.natAbs < 2 ^ 53) : (ofRatio i 1).Denotes i := by
  obtain ⟨k, hk, hunits⟩ := Decimal.unitsInOne_eq
  obtain ⟨e, f, hfinite, hmagnitude⟩ := ofUnits_exact (decide (i < 0)) hi (k := k) (by omega)
  rw [← hunits] at hfinite hmagnitude
  unfold ofRatio
  rw [hfinite]
  refine ⟨_, rfl, ?_⟩
  rw [hmagnitude, ← Int.cast_natCast unitsInOne, ← Int.cast_mul, Int.cast_inj]
  by_cases hneg : i < 0
  · rw [decide_eq_true hneg, if_pos rfl, Nat.cast_mul, ← neg_mul,
      show -(i.natAbs : Int) = i by omega]
  · rw [decide_eq_false hneg, if_neg Bool.false_ne_true, Nat.cast_mul,
      show (i.natAbs : Int) = i by omega]

end Binary64

end Workflow
