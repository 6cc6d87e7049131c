import Workflow.Backoff
import Workflow.Proofs.Rounding

/-! # Growth — how far the delay before a retry can double

    The delay before a retry grows by a power of two, which is computed like any other
    power: as the exponential of the exponent times a logarithm.  A double holds the powers
    up to `2 ^ 1023`; the one after that is too large, and the delay that is in need of it
    has no value.

    The heart is `expParts_finite`: the exponent is a whole number of steps, and what is
    left of it is too little to matter. -/

namespace Workflow

namespace Binary64

variable {x y z tail r : Binary64} {a b c q : ℚ} {N : ℤ} {n : Nat}

/-! ## Bounds -/

/-- Is the number finite, and no further from zero than this? -/
def AtMost (x : Binary64) (a : ℚ) : Prop := ∃ v, x.Denotes v ∧ |v| ≤ a

theorem Denotes.atMost (h : x.Denotes q) (hq : |q| ≤ a) : x.AtMost a := ⟨q, h, hq⟩

theorem AtMost.mono (h : x.AtMost a) (hab : a ≤ b) : x.AtMost b := by
  obtain ⟨v, hv, hle⟩ := h
  exact ⟨v, hv, hle.trans hab⟩

/-- What is near to a number within a bound is within twice the bound. -/
theorem atMost_of_near {exact : ℚ} (h : ∃ v, x.Denotes v ∧ |v - exact| ≤ 2 ^ (N - 53))
    (hexact : |exact| ≤ 2 ^ N) : x.AtMost (2 ^ (N + 1)) := by
  obtain ⟨v, hv, hnear⟩ := h
  refine ⟨v, hv, ?_⟩
  have hpow : (2 : ℚ) ^ (N - 53) ≤ 2 ^ N := zpow_le_zpow_right₀ (by norm_num) (by omega)
  calc |v| ≤ |v - exact| + |exact| := by
        simpa using abs_add_le (v - exact) exact
    _ ≤ 2 ^ N + 2 ^ N := add_le_add (hnear.trans hpow) hexact
    _ = 2 ^ (N + 1) := by
        rw [zpow_add₀ two_ne_zero, zpow_one]
        ring

theorem AtMost.mul (hx : x.AtMost a) (hy : y.AtMost b) (hN : -1021 ≤ N) (hN' : N ≤ 1022)
    (h : a * b ≤ 2 ^ N) : (x * y).AtMost (2 ^ (N + 1)) := by
  obtain ⟨v, hv, hva⟩ := hx
  obtain ⟨w, hw, hwb⟩ := hy
  have hle : |v * w| ≤ 2 ^ N := by
    rw [abs_mul]
    exact (mul_le_mul hva hwb (abs_nonneg _) ((abs_nonneg _).trans hva)).trans h
  exact atMost_of_near (mul_near hv hw hN hN' hle) hle

theorem AtMost.add (hx : x.AtMost a) (hy : y.AtMost b) (hN : -1021 ≤ N) (hN' : N ≤ 1022)
    (h : a + b ≤ 2 ^ N) : (x + y).AtMost (2 ^ (N + 1)) := by
  obtain ⟨v, hv, hva⟩ := hx
  obtain ⟨w, hw, hwb⟩ := hy
  have hle : |v + w| ≤ 2 ^ N := (abs_add_le v w).trans ((add_le_add hva hwb).trans h)
  exact atMost_of_near (add_near hv hw hN hN' hle) hle

theorem AtMost.fused (hx : x.AtMost a) (hy : y.AtMost b) (hz : z.AtMost c) (hN : -1021 ≤ N)
    (hN' : N ≤ 1022) (h : a * b + c ≤ 2 ^ N) : (fused x y z).AtMost (2 ^ (N + 1)) := by
  obtain ⟨v, hv, hva⟩ := hx
  obtain ⟨w, hw, hwb⟩ := hy
  obtain ⟨u, hu, huc⟩ := hz
  have hle : |v * w + u| ≤ 2 ^ N := by
    refine (abs_add_le _ _).trans (le_trans (add_le_add ?_ huc) h)
    rw [abs_mul]
    exact mul_le_mul hva hwb (abs_nonneg _) ((abs_nonneg _).trans hva)
  exact atMost_of_near (fused_near hv hw hu hN hN' hle) hle

theorem ofRatio_atMost {i : Int} {d : Nat} (hd : 0 < d) (hN : -1021 ≤ N) (hN' : N ≤ 1022)
    (h : |(i / d : ℚ)| ≤ 2 ^ N) : (ofRatio i d).AtMost (2 ^ (N + 1)) :=
  atMost_of_near (ofRatio_near hd hN hN' h) h

namespace Exponential

/-! ## A small exponent -/

theorem coefficient_atMost (i : Nat) : (coefficient i).AtMost 1 := by
  have hhalf {n bits : Nat} (h : 2 * n ≤ 2 ^ bits) : (ofRatio n (2 ^ bits)).AtMost 1 := by
    have hpos : (0 : ℚ) < ((2 ^ bits : ℕ) : ℚ) := by positivity
    have hle : |(((n : ℕ) : ℤ) / ((2 ^ bits : ℕ) : ℚ) : ℚ)| ≤ 2 ^ (-1 : ℤ) := by
      rw [Int.cast_natCast, abs_of_nonneg (by positivity), div_le_iff₀ hpos]
      have : (2 : ℚ) * n ≤ ((2 ^ bits : ℕ) : ℚ) := by exact_mod_cast h
      norm_num at this ⊢
      linarith
    simpa using ofRatio_atMost (Nat.two_pow_pos bits) (by decide) (by decide) hle
  match i with
  | 2 => exact hhalf (by decide : 2 * 0x1ffffffffffdbd ≤ 2 ^ 54)
  | 3 => exact hhalf (by decide : 2 * 0x1555555555543c ≤ 2 ^ 55)
  | 4 => exact hhalf (by decide : 2 * 0x155555cf172b91 ≤ 2 ^ 57)
  | 0 | 1 | _ + 5 => exact hhalf (by decide : 2 * 0x11111167a4d017 ≤ 2 ^ 59)

/-- An exponential that is near to one is near to it. -/
theorem excess_atMost (ht : tail.AtMost (1 / 2 ^ 10)) (hr : r.AtMost (1 / 2 ^ 10)) :
    (excess tail r).AtMost (1 / 16) := by
  have hsquare : (r * r).AtMost (1 / 2 ^ 19) :=
    (hr.mul hr (N := -20) (by decide) (by decide) (by norm_num)).mono (by norm_num)
  have hfourth : (r * r * (r * r)).AtMost (1 / 2 ^ 37) :=
    (hsquare.mul hsquare (N := -38) (by decide) (by decide) (by norm_num)).mono (by norm_num)
  have hinner (i j : Nat) : (fused r (coefficient i) (coefficient j)).AtMost 4 :=
    (hr.fused (coefficient_atMost i) (coefficient_atMost j) (N := 1) (by decide) (by decide)
      (by norm_num)).mono (by norm_num)
  have hsum : (tail + r).AtMost (1 / 2 ^ 8) :=
    (ht.add hr (N := -9) (by decide) (by decide) (by norm_num)).mono (by norm_num)
  have hnear : (fused (r * r) (fused r (coefficient 3) (coefficient 2)) (tail + r)).AtMost
      (1 / 2 ^ 6) :=
    (hsquare.fused (hinner 3 2) hsum (N := -7) (by decide) (by decide) (by norm_num)).mono
      (by norm_num)
  exact (hfourth.fused (hinner 5 4) hnear (N := -5) (by decide) (by decide) (by norm_num)).mono
    (by norm_num)

end Exponential

/-! ## Powers of two -/

/-- The logarithm of two in two parts. -/
def logTwo : Parts :=
  ⟨.finite false ⟨1022, by decide⟩ ⟨1739715140794863, by decide⟩,
    .finite false ⟨967, by decide⟩ ⟨3022137551585280, by decide⟩⟩

theorem logUnits_two : logUnits (2 * unitsInOne) = logTwo := by
  have hlead : (logUnits (2 * unitsInOne)).lead = logTwo.lead := by decide +kernel
  have htrail : (logUnits (2 * unitsInOne)).trail = logTwo.trail := by decide +kernel
  exact congr (congrArg Parts.mk hlead) htrail

/-- A finite number is so many parts of a power of two. -/
theorem denotes_parts {e : Fin 2047} {f : Fin (2 ^ 52)} {m k : Nat}
    (h : magnitude e f * 2 ^ k = m * unitsInOne) :
    (Binary64.finite false e f).Denotes (m / 2 ^ k) := by
  refine ⟨magnitude e f, rfl, ?_⟩
  have h : (magnitude e f : ℚ) * 2 ^ k = m * unitsInOne := by exact_mod_cast h
  rw [div_mul_eq_mul_div, ← h, Int.cast_natCast]
  exact mul_div_cancel_right₀ _ (by positivity)

theorem logTwo_lead : logTwo.lead.Denotes ((6243314768165359 : ℕ) / 2 ^ 53) :=
  denotes_parts (by decide +kernel)

theorem logTwo_trail : logTwo.trail.Denotes ((7525737178955776 : ℕ) / 2 ^ 108) :=
  denotes_parts (by decide +kernel)

namespace Exponential

theorem step_lead : step.lead.Denotes ((6243314768150528 : ℕ) / 2 ^ 60) := by
  have h : step.lead = .finite false 1015 1739715140780032 := by decide +kernel
  rw [h]
  exact denotes_parts (by decide +kernel)

theorem step_trail : step.trail.Denotes ((8153543309409082 : ℕ) / 2 ^ 99) := by
  have h : step.trail = .finite false 976 3649943682038586 := by decide +kernel
  rw [h]
  exact denotes_parts (by decide +kernel)

theorem stepsInOne_denotes : stepsInOne.Denotes ((6497320848556798 : ℕ) / 2 ^ 45) := by
  have h : stepsInOne = .finite false 1030 1993721221186302 := by decide +kernel
  rw [h]
  exact denotes_parts (by decide +kernel)

theorem root_zero : root 0 = (2 ^ 52, zero) := by decide +kernel

end Exponential

/-- A product of numbers of units is as many as there are in their product, squared. -/
theorem Denotes.units_mul (hx : x.Denotes a) (hy : y.Denotes b) :
    (((x.units?.getD 0) * (y.units?.getD 0) : Int) : ℚ) =
      a * b * (unitsInOne * unitsInOne : Nat) := by
  obtain ⟨i, hi, ha⟩ := hx
  obtain ⟨j, hj, hb⟩ := hy
  rw [hi, hj, Option.getD_some, Option.getD_some, Int.cast_mul, ← ha, ← hb, Nat.cast_mul]
  ring

namespace Exponential

/-- A number that is not below zero is nearest to the whole number that is within a half. -/
theorem nearest_eq {i : Int} {u j : Nat} (hu : 0 < u) (hi : (i : ℚ) = q * u) (hq : 0 ≤ q)
    (h : |q - j| < 1 / 2) : nearest i u = j := by
  have hu' : (0 : ℚ) < u := by exact_mod_cast hu
  have hi0 : 0 ≤ i := by
    have : (0 : ℚ) ≤ i := hi ▸ mul_nonneg hq hu'.le
    exact_mod_cast this
  obtain ⟨n, rfl⟩ := Int.eq_ofNat_of_zero_le hi0
  rw [Int.cast_natCast] at hi
  rw [abs_lt] at h
  have hbelow : 2 * (n : ℚ) < (2 * j + 1) * u := by
    rw [hi]
    nlinarith
  have habove : 2 * j * u < 2 * (n : ℚ) + u := by
    rw [hi]
    nlinarith
  unfold nearest
  rw [if_neg (by omega), Int.natAbs_natCast,
    roundQuotient_eq (by exact_mod_cast hbelow) (by exact_mod_cast habove)]

end Exponential

/-! ## The exponential of a multiple of the logarithm of two -/

section Multiple

open Exponential

variable {p : Parts} {l : ℚ}

/-- Is the number such a multiple, and the part behind it small? -/
structure Multiple (n : Nat) (p : Parts) (l : ℚ) : Prop where
  lead  : p.lead.Denotes l
  near  : |l - n * ((6243314768165359 : ℕ) / 2 ^ 53)| ≤ 1 / 2 ^ 43
  trail : p.trail.AtMost (1 / 2 ^ 40)

namespace Multiple

theorem times (hn : n ≤ 1024) (hy : y.Denotes n) : ∃ l, Multiple n (logTwo.times y) l := by
  have hn : (n : ℚ) ≤ 1024 := by exact_mod_cast hn
  have hn0 : (0 : ℚ) ≤ n := Nat.cast_nonneg n
  obtain ⟨l, hl, hnear⟩ := mul_near hy logTwo_lead (N := 10) (by decide) (by decide) (by
    rw [abs_of_nonneg (by positivity)]
    norm_num
    linarith)
  have hnear : |l - n * ((6243314768165359 : ℕ) / 2 ^ 53)| ≤ 1 / 2 ^ 43 := by
    refine hnear.trans ?_
    norm_num
  -- the second part begins with the error of the first
  have herror : (fused y logTwo.lead (-(y * logTwo.lead))).AtMost (1 / 2 ^ 42) := by
    have hexact : |n * ((6243314768165359 : ℕ) / 2 ^ 53) + -l| ≤ (2 : ℚ) ^ (-43 : ℤ) := by
      rw [← sub_eq_add_neg, abs_sub_comm]
      refine hnear.trans ?_
      norm_num
    refine (atMost_of_near (fused_near hy logTwo_lead hl.neg (by decide) (by decide) hexact)
      hexact).mono ?_
    norm_num
  have hy : y.AtMost 1024 := hy.atMost (by rwa [abs_of_nonneg hn0])
  have htrail : logTwo.trail.AtMost (1 / 2 ^ 55) := logTwo_trail.atMost (by
    rw [abs_of_nonneg (by positivity)]
    norm_num)
  refine ⟨l, hl, hnear, ?_⟩
  exact (hy.fused htrail herror (N := -41) (by decide) (by decide) (by norm_num)).mono
    (by norm_num)

/-- It is as many times the steps of the logarithm. -/
theorem steps (h : Multiple n p l) (h1 : 1 ≤ n) (hn : n ≤ 1024) :
    nearest ((p.lead.units?.getD 0) * (stepsInOne.units?.getD 0)) (unitsInOne * unitsInOne) =
      (128 * n : Nat) := by
  have hn : (n : ℚ) ≤ 1024 := by exact_mod_cast hn
  have h1 : (1 : ℚ) ≤ n := by exact_mod_cast h1
  obtain ⟨hbelow, habove⟩ := abs_le.mp h.near
  push_cast at hbelow habove
  have hu : 0 < unitsInOne * unitsInOne := Nat.mul_pos units_pos units_pos
  refine nearest_eq hu (h.lead.units_mul stepsInOne_denotes) ?_ ?_
  · refine mul_nonneg ?_ (by positivity)
    linarith
  · rw [abs_lt]
    push_cast
    constructor <;> linarith

/-- What is left of it is small. -/
theorem rest (h : Multiple n p l) (hn : n ≤ 1024) :
    (fused (ofRatio (-(128 * n : Nat)) 1) step.trail
      (fused (ofRatio (-(128 * n : Nat)) 1) step.lead p.lead) + p.trail).AtMost (1 / 2 ^ 10) := by
  have hk : (-(128 * n : Nat) : Int).natAbs < 2 ^ 53 := by
    rw [Int.natAbs_neg, Int.natAbs_natCast]
    omega
  have hsteps := ofRatio_whole hk
  have hn : (n : ℚ) ≤ 1024 := by exact_mod_cast hn
  have hn0 : (0 : ℚ) ≤ n := Nat.cast_nonneg n
  obtain ⟨hbelow, habove⟩ := abs_le.mp h.near
  push_cast at hsteps hbelow habove
  have hexact : |-(128 * (n : ℚ)) * ((6243314768150528 : ℕ) / 2 ^ 60) + l| ≤ 2 ^ (-28 : ℤ) := by
    rw [abs_le]
    push_cast
    norm_num
    constructor <;> linarith
  have hfirst := atMost_of_near
    (fused_near hsteps step_lead h.lead (by decide) (by decide) hexact) hexact
  have hsteps : (ofRatio (-(128 * n : Nat)) 1).AtMost (2 ^ 17) := by
    push_cast
    refine hsteps.atMost ?_
    rw [abs_neg, abs_of_nonneg (by positivity)]
    linarith
  have htrail : step.trail.AtMost (1 / 2 ^ 46) := step_trail.atMost (by
    rw [abs_of_nonneg (by positivity)]
    norm_num)
  push_cast at hsteps ⊢
  have hsecond := hsteps.fused htrail hfirst (N := -26) (by decide) (by decide) (by norm_num)
  exact (hsecond.add h.trail (N := -24) (by decide) (by decide) (by norm_num)).mono
    (by norm_num)

/-- It is neither too small nor too large to be looked at. -/
theorem size (h : Multiple n p l) (h1 : 1 ≤ n) (hn : n ≤ 1024) :
    p.lead.abs.compare? tiny ≠ some .lt ∧ p.lead.abs.compare? huge = some .lt := by
  have h1 : (1 : ℚ) ≤ n := by exact_mod_cast h1
  have hn : (n : ℚ) ≤ 1024 := by exact_mod_cast hn
  obtain ⟨hbelow, habove⟩ := abs_le.mp h.near
  push_cast at hbelow habove
  have hl : |l| = l := abs_of_nonneg (by linarith)
  constructor
  · obtain ⟨v, hv, hle⟩ : tiny.AtMost (2 ^ (-2 + 1 : ℤ)) :=
      ofRatio_atMost (Nat.two_pow_pos 54) (by decide) (by decide) (by norm_num)
    rw [ne_eq, h.lead.abs.compare?_lt hv, hl, not_lt]
    norm_num at hle
    linarith [abs_le.mp hle]
  · have hhuge : huge.Denotes ((1024 : Int) : ℚ) := ofRatio_whole (by decide)
    rw [h.lead.abs.compare?_lt hhuge, hl]
    push_cast
    linarith

/-- So its exponential is a power of two and a little more or less. -/
theorem expParts_eq (h : Multiple n p l) (h1 : 1 ≤ n) (hn : n ≤ 1024) :
    ∃ above, above.AtMost (1 / 16) ∧ expParts p = scaled (2 ^ 52) n above := by
  obtain ⟨htiny, hhuge⟩ := h.size h1 hn
  have hzero : zero.AtMost (1 / 2 ^ 10) := denotes_zero.atMost (by norm_num)
  have hmod : (((128 * n : Nat) : Int) % 128).toNat = 0 := by omega
  have hdiv : ((128 * n : Nat) : Int) / 128 = n := by omega
  refine ⟨_, excess_atMost hzero (h.rest hn), ?_⟩
  unfold expParts
  dsimp only
  rw [if_neg htiny, if_neg (not_not.mpr hhuge), h.steps h1 hn, hmod, hdiv, root_zero,
    if_neg (by omega)]

end Multiple

/-- A number below `2 ^ 1022`, given by its places, is finite. -/
theorem ofScaled_finite {m : Nat} {e : Int} (hm : m ≤ 2 ^ 53 * unitsInOne) (he : e ≤ -105) :
    (ofScaled m e).isFinite = true := by
  obtain ⟨k, hk, hunits⟩ := Decimal.unitsInOne_eq
  rw [hunits, ← Nat.pow_add] at hm
  unfold ofScaled
  split
  · rename_i j hj
    have hj : e + 1074 = (j : Int) := hj
    have hle : m * 2 ^ j ≤ 2 ^ (53 + k + j) * 1 := by
      rw [Nat.mul_one, Nat.pow_add 2 (53 + k)]
      exact Nat.mul_le_mul_right _ hm
    obtain ⟨e, f, h, _⟩ := ofUnits_near false Nat.one_pos (by omega) (by omega) hle
    rw [h]
    rfl
  · rename_i j hj
    have hle : m ≤ 2 ^ (53 + k) * 2 ^ (j + 1) :=
      hm.trans (Nat.le_mul_of_pos_right _ (Nat.two_pow_pos _))
    obtain ⟨e, f, h, _⟩ := ofUnits_near false (Nat.two_pow_pos (j + 1)) (by omega) (by omega) hle
    rw [h]
    rfl

/-- What is about a power of two within the range is finite. -/
theorem scaled_finite {above : Binary64} (h : above.AtMost (1 / 16)) (hn : n ≤ 1021) :
    (scaled (2 ^ 52) n above).isFinite = true := by
  obtain ⟨v, ⟨i, hi, hv⟩, hle⟩ := h
  have hU := unitsInOne_pos
  have hi' : i ≤ unitsInOne := by
    have : (i : ℚ) ≤ unitsInOne := by
      rw [← hv]
      nlinarith [(abs_le.mp hle).2]
    exact_mod_cast this
  unfold scaled
  refine ofScaled_finite ?_ (by omega)
  rw [hi, Option.getD_some]
  calc 2 ^ 52 * (unitsInOne + i).toNat ≤ 2 ^ 52 * (2 * unitsInOne) :=
        Nat.mul_le_mul_left _ (by omega)
    _ = 2 ^ 53 * unitsInOne := by
        rw [← Nat.mul_assoc]

end Multiple

theorem powUnits_two (h1 : 1 ≤ n) (hn : n ≤ 1024) :
    powUnits (2 * unitsInOne) (ofRatio n 1) = expParts (logTwo.times (ofRatio n 1)) := by
  have hy : (ofRatio n 1).Denotes ((n : Int) : ℚ) := ofRatio_whole (by omega)
  have htiny : (ofRatio n 1).compare? (ofRatio 1 (2 ^ 65)) ≠ some .lt := by
    obtain ⟨v, hv, hle⟩ : (ofRatio 1 (2 ^ 65)).AtMost (2 ^ (-2 + 1 : ℤ)) :=
      ofRatio_atMost (Nat.two_pow_pos 65) (by decide) (by decide) (by norm_num)
    rw [ne_eq, hy.compare?_lt hv, not_lt, Int.cast_natCast]
    norm_num at hle
    have h1 : (1 : ℚ) ≤ n := by exact_mod_cast h1
    linarith [abs_le.mp hle]
  have hlarge : (ofRatio n 1).compareInt? (2 ^ 63) = some .lt := by
    rw [hy.compareInt?_lt, Int.cast_lt]
    omega
  have hone : 2 * unitsInOne ≠ unitsInOne := by
    have := units_pos
    omega
  unfold powUnits
  rw [if_neg (not_or.mpr ⟨hone, htiny⟩), if_neg (not_not.mpr hlarge), logUnits_two]

/-- A power of two with a finite exponent that is not zero is that of two times one. -/
theorem two_pow_eq (hy : y.Denotes q) (hq : q ≠ 0) :
    (ofRatio 2 1).pow y = powUnits (2 * unitsInOne) y := by
  have htwo : ofRatio 2 1 = .finite false 1024 0 := by decide +kernel
  have hmagnitude : magnitude 1024 0 = 2 * unitsInOne := by decide +kernel
  have hne : 2 * unitsInOne ≠ 0 := Nat.mul_ne_zero two_ne_zero units_pos.ne'
  obtain ⟨s, e, f, rfl, hunits⟩ := hy.finite
  have hzero : (Binary64.finite s e f).isZero = false := by
    have hm : magnitude e f ≠ 0 := by
      intro hm
      rw [hm] at hunits
      refine mul_ne_zero hq unitsInOne_pos.ne' (hunits.trans ?_)
      cases s <;> simp
    exact beq_false_of_ne hm
  unfold pow
  rw [hzero, if_neg Bool.false_ne_true, htwo]
  dsimp only
  simp only [hmagnitude, hne, Bool.false_and, Bool.false_eq_true, if_false]

/-- The powers of two up to the last one that is a double. -/
theorem two_pow_finite (hn : n ≤ 1023) : ((ofRatio 2 1).pow (ofRatio n 1)).isFinite = true := by
  rcases Nat.eq_zero_or_pos n with rfl | h1
  · decide +kernel
  by_cases hlast : n = 1022 ∨ n = 1023
  · rcases hlast with rfl | rfl <;> decide +kernel
  have hy : (ofRatio n 1).Denotes n := ofRatio_whole (by omega)
  obtain ⟨l, hl⟩ := Multiple.times (by omega) hy
  obtain ⟨above, habove, hpower⟩ := hl.expParts_eq h1 (by omega)
  rw [two_pow_eq hy (by exact_mod_cast h1.ne'), powUnits_two h1 (by omega), hpower]
  exact scaled_finite habove (by omega)

end Binary64

open Binary64

/-! ## The delay -/

namespace Number

variable {x y j u : Binary64} {a b : Number} {i : Int}

theorem toBinary64_eq (a : Number) : a.toBinary64 =
    match a with
    | whole i =>
      match ofInt? i with
      | some x => .ok x
      | none   => .error .overflow
    | real x => .ok x := by
  delta toBinary64
  rfl

theorem toBinary64_whole (h : ofInt? i = some y) : (whole i).toBinary64 = .ok y := by
  -- about any function, so that checking the proof does not compute this one
  have key (f : Int → Option Binary64) (h : f i = some y) :
      (match whole i with
        | whole i =>
          match f i with
          | some x => .ok x
          | none   => .error NumericError.overflow
        | real x => .ok x : Except NumericError Binary64) = .ok y := by
    dsimp only
    rw [h]
  exact (toBinary64_eq _).trans (key ofInt? h)

/-- A whole number below `2 ^ 53` is a double. -/
theorem toBinary64_small (h : i.natAbs < 2 ^ 53) :
    (whole i).toBinary64 = .ok (ofRatio i 1) := by
  obtain ⟨s, e, f, hfinite, _⟩ := (ofRatio_whole h).finite
  refine toBinary64_whole ?_
  generalize hg : ofInt? = g
  delta ofInt? at hg
  subst hg
  beta_reduce
  rw [hfinite]

/-- A computation is one of doubles as soon as its first number is a double. -/
theorem combine_real_left {onInt : Int → Int → Int} {onReal : Binary64 → Binary64 → Binary64}
    (h : b.toBinary64 = .ok y) : combine onInt onReal (.real x) b = .ok (.real (onReal x y)) := by
  delta combine
  dsimp only
  rw [h]
  rfl

/-- And so it is when the second one is. -/
theorem combine_real_right {onInt : Int → Int → Int} {onReal : Binary64 → Binary64 → Binary64}
    (h : a.toBinary64 = .ok x) : combine onInt onReal a (.real y) = .ok (.real (onReal x y)) := by
  delta combine
  split
  · rename_i hreal
    cases hreal
  · rw [h]
    rfl

theorem pow_real (h : b.toBinary64 = .ok y) : (real x).pow b = powReal x y := by
  delta Number.pow
  simp only [h, toBinary64_eq (real x), bind, Except.bind]

/-- A finite power is what the computation gives. -/
theorem powReal_finite (h : (x.pow y).isFinite = true) : powReal x y = .ok (.real (x.pow y)) := by
  delta powReal
  generalize x.pow y = z at h ⊢
  cases z with
  | finite s e f => rfl
  | nan => exact absurd h Bool.false_ne_true
  | infinite s => exact absurd h Bool.false_ne_true

/-- A power of finite numbers that is beyond the range is refused. -/
theorem powReal_infinite {s : Bool} (hx : x.isFinite = true) (hy : y.isFinite = true)
    (h : x.pow y = .infinite s) : powReal x y = .error .overflow := by
  delta powReal
  simp only [h, hx, hy, Bool.and_self, if_true]

end Number

/-- A random part of a double is a double. -/
theorem uniform_real (j u : Binary64) :
    uniform (.whole 0) (.real j) (.real u) =
      .ok (.real ((ofRatio 0 1).add ((j.sub (ofRatio 0 1)).mul u))) := by
  have hzero := Number.toBinary64_small (i := 0) (by decide)
  have hu := Number.toBinary64_eq (.real u)
  unfold uniform Number.sub Number.mul Number.add
  simp only [Number.combine_real_left hzero, Number.combine_real_left hu,
    Number.combine_real_right hzero, bind, Except.bind]

/-- Once the growth has a value, so does the delay. -/
theorem backoffDelay_ok {attempt factor : Number} {z : Binary64}
    (h : factor.pow (growthExponent attempt) = .ok (.real z)) (base jitter u : Binary64) :
    ∃ delay, backoffDelay attempt (.real base) factor (.real jitter) (.real u) = .ok delay := by
  unfold backoffDelay jittered Number.mul Number.add
  simp only [h, uniform_real, Number.combine_real_left (Number.toBinary64_eq (.real _)), bind,
    Except.bind]
  exact ⟨_, rfl⟩

/-- Up to the exponent of that power the growth has a value. -/
theorem growth_ok {n : Nat} (hn : n ≤ 1023) :
    defaultFactor.pow (.whole n) = .ok (.real ((ofRatio 2 1).pow (ofRatio n 1))) := by
  unfold defaultFactor
  rw [Number.pow_real (Number.toBinary64_small (by omega)),
    Number.powReal_finite (two_pow_finite hn)]

/-- The next one is beyond the range. -/
theorem growth_overflow : defaultFactor.pow (.whole 1024) = .error .overflow := by
  have hpow : (ofRatio 2 1).pow (ofRatio 1024 1) = .infinite false := by decide +kernel
  have htwo : (ofRatio 2 1).isFinite = true := by decide +kernel
  have hexponent : (ofRatio 1024 1).isFinite = true := by decide +kernel
  unfold defaultFactor
  rw [Number.pow_real (Number.toBinary64_small (by decide)),
    Number.powReal_infinite htwo hexponent hpow]

theorem growthExponent_whole {attempt : Nat} (h1 : 1 ≤ attempt) :
    growthExponent (.whole attempt) = .whole ((attempt - 1 : Nat) : Int) := by
  have hmax : max ((attempt : Int) - 1) 0 = (attempt - 1 : Nat) := by omega
  exact congrArg Number.whole hmax

/-- There is a delay up to the attempt whose growth is the last power of two, and none at
    the next one, whatever the settings are. -/
theorem backoffDelay_ok_iff {attempt : Nat} (h1 : 1 ≤ attempt) (h : attempt ≤ 1025)
    (base jitter u : Binary64) :
    (∃ delay, backoffDelay (.whole attempt) (.real base) defaultFactor (.real jitter) (.real u) =
      .ok delay) ↔ attempt ≤ 1024 := by
  constructor
  · intro hok
    by_contra hlarge
    obtain rfl : attempt = 1025 := by omega
    obtain ⟨delay, hdelay⟩ := hok
    have hgrowth : defaultFactor.pow (growthExponent (.whole (1025 : Nat))) = .error .overflow := by
      rw [growthExponent_whole h1]
      exact growth_overflow
    unfold backoffDelay at hdelay
    rw [hgrowth] at hdelay
    cases hdelay
  · intro hle
    have hgrowth := growth_ok (n := attempt - 1) (by omega)
    rw [← growthExponent_whole h1] at hgrowth
    exact backoffDelay_ok hgrowth base jitter u

end Workflow
