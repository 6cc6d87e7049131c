import Workflow.Duration
import Workflow.Proofs.Rounding

/-! # Span — the spans of time that settings may ask for

    A number of hours or days becomes a span in whole microseconds.  The fraction is rounded
    three times on the way, but all of that stays below a microsecond, and doubles near the
    longest span are further than that from each other.  So exactly the numbers below that
    of the longest span can be converted.

    The heart is `spanMicros_near`. -/

namespace Workflow

namespace Binary64

variable {x : Binary64} {q : ℚ} {i : Int}

theorem abs_sub_le_half {a b u : ℚ} (hu : 0 < u) (hle : 2 * (a * u) ≤ 2 * (b * u) + u)
    (hge : 2 * (b * u) ≤ 2 * (a * u) + u) : |a - b| ≤ 1 / 2 := by
  rw [abs_le]
  constructor <;> nlinarith

/-- Rounding to a whole number moves by a half at most. -/
theorem Denotes.roundToInt_near (h : x.Denotes q) : |(x.roundToInt : ℚ) - q| ≤ 1 / 2 := by
  obtain ⟨s, e, f, rfl, hq⟩ := h.finite
  obtain ⟨hle, hge⟩ := roundQuotient_near units_pos (magnitude e f)
  have hnear : |(roundQuotient (magnitude e f) unitsInOne : ℚ) - (|q|)| ≤ 1 / 2 := by
    have habs : |q| * unitsInOne = magnitude e f := by
      rw [← abs_of_pos unitsInOne_pos, ← abs_mul, hq]
      cases s
      · rw [if_neg Bool.false_ne_true, Int.cast_natCast, Nat.abs_cast]
      · rw [if_pos rfl, Int.cast_neg, Int.cast_natCast, abs_neg, Nat.abs_cast]
    refine abs_sub_le_half unitsInOne_pos ?_ ?_
    · rw [habs]
      exact_mod_cast hle
    · rw [habs]
      exact_mod_cast hge
  unfold roundToInt
  cases s with
  | false =>
      have hpos : 0 ≤ q := by
        refine nonneg_of_mul_nonneg_left ?_ unitsInOne_pos
        rw [hq, if_neg Bool.false_ne_true, Int.cast_natCast]
        exact Nat.cast_nonneg _
      rwa [abs_of_nonneg hpos] at hnear
  | true =>
      have hneg : q ≤ 0 := by
        refine nonpos_of_mul_nonpos_left ?_ unitsInOne_pos
        rw [hq, if_pos rfl, Int.cast_neg, Int.cast_natCast, neg_nonpos]
        exact Nat.cast_nonneg _
      rw [abs_of_nonpos hneg, sub_neg_eq_add, ← abs_neg] at hnear
      show |((-(roundQuotient (magnitude e f) unitsInOne : Int) : Int) : ℚ) - q| ≤ 1 / 2
      rwa [Int.cast_neg, Int.cast_natCast, ← neg_add']

/-- The last bit of a double is worth more than its size without fifty-three bits. -/
theorem two_pow_dvd_magnitude {e : Fin 2047} {f : Fin (2 ^ 52)} {j : Nat}
    (h : 2 ^ 53 * 2 ^ j ≤ magnitude e f) : 2 ^ (j + 1) ∣ magnitude e f := by
  have hf : f.val < 2 ^ 52 := f.isLt
  unfold magnitude at h ⊢
  split at h
  · have : 2 ^ 53 * 1 ≤ 2 ^ 53 * 2 ^ j := Nat.mul_le_mul_left _ (Nat.two_pow_pos j)
    omega
  · rw [if_neg ‹_›]
    have hlt : 2 ^ 53 * 2 ^ j < 2 ^ 53 * 2 ^ (e.val - 1) :=
      Nat.lt_of_le_of_lt h (Nat.mul_lt_mul_of_pos_right (by omega) (Nat.two_pow_pos _))
    have hlt := (Nat.pow_lt_pow_iff_right (by omega)).mp (Nat.lt_of_mul_lt_mul_left hlt)
    exact Dvd.dvd.mul_left (pow_dvd_pow 2 hlt) _

/-- The integer part of a double is one too. -/
theorem ofRatio_truncated (hi : x.units? = some i) (hpos : 0 ≤ i) :
    (ofRatio (i / unitsInOne) 1).Denotes ((i / unitsInOne : Int) : ℚ) := by
  have hU : (0 : Int) < unitsInOne := by exact_mod_cast units_pos
  by_cases hsmall : (i / unitsInOne).natAbs < 2 ^ 53
  · exact ofRatio_whole hsmall
  have hquotient : 2 ^ 53 ≤ i / unitsInOne := by
    have := Int.ediv_nonneg hpos hU.le
    omega
  have hlarge := (Int.le_ediv_iff_mul_le hU).mp hquotient
  cases x with
  | finite s e f =>
      have hi : (if s then -(magnitude e f : Int) else magnitude e f) = i := Option.some.inj hi
      cases s with
      | true =>
          rw [if_pos rfl] at hi
          have : (0 : Int) < 2 ^ 53 * unitsInOne := Int.mul_pos (by decide) hU
          omega
      | false =>
          rw [if_neg Bool.false_ne_true] at hi
          subst hi
          have hlarge : 2 ^ 53 * unitsInOne ≤ magnitude e f :=
            Int.ofNat_le.mp (by simpa only [Nat.cast_mul, Nat.cast_pow, Nat.cast_ofNat])
          obtain ⟨w, hw⟩ : unitsInOne ∣ magnitude e f := by
            obtain ⟨k, -, hunits⟩ := Decimal.unitsInOne_eq
            rw [hunits] at hlarge ⊢
            exact (pow_dvd_pow 2 (Nat.le_succ k)).trans (two_pow_dvd_magnitude hlarge)
          have hw' : (magnitude e f : Int) / unitsInOne = w := by
            rw [hw, Nat.cast_mul, Int.mul_ediv_cancel_left _ hU.ne']
          have hratio : ofRatio w 1 = .finite false e f := by
            unfold ofRatio
            rw [Int.natAbs_natCast, Nat.mul_comm, ← hw, decide_eq_false (by omega),
              ofUnits_magnitude]
          rw [hw', hratio]
          refine ⟨_, rfl, ?_⟩
          rw [if_neg Bool.false_ne_true, hw]
          push_cast
          ring
  | _ => exact nomatch hi

end Binary64

open Binary64

variable {x : Binary64} {q : ℚ} {seconds limit : Nat} {t : Int}

/-- A number is its integer part and a fraction below one. -/
theorem Binary64.units_div {i : Int} (hq : q * unitsInOne = i) :
    ((i / unitsInOne : Int) : ℚ) ≤ q ∧ q < ((i / unitsInOne : Int) : ℚ) + 1 := by
  have hU : (0 : Int) < unitsInOne := by exact_mod_cast units_pos
  have hU' := unitsInOne_pos
  have hle : ((i / unitsInOne : Int) : ℚ) * unitsInOne ≤ i := by
    exact_mod_cast Int.ediv_mul_le i hU.ne'
  have hlt : (i : ℚ) < (((i / unitsInOne : Int) : ℚ) + 1) * unitsInOne := by
    exact_mod_cast Int.lt_ediv_add_one_mul_self i hU
  rw [← hq] at hle hlt
  exact ⟨le_of_mul_le_mul_right hle hU', lt_of_mul_lt_mul_right hlt hU'.le⟩

/-- The integer part counts exactly, and what is left is multiplied and rounded. -/
theorem spanMicros_eq {i : Int} (hi : x.units? = some i) (hpos : 0 ≤ i) (seconds : Nat) :
    spanMicros seconds (.real x) =
      boundedSpan (i / unitsInOne * (seconds * microsPerSecond : Nat) +
        ((x + -(ofRatio (i / unitsInOne) 1)) *
          ofRatio (seconds * microsPerSecond : Nat) 1).roundToInt) := by
  cases x with
  | finite s e f =>
      have hwhole : ((Binary64.finite s e f).truncate?).getD 0 = i / unitsInOne := by
        unfold truncate?
        rw [hi, ← Int.tdiv_eq_ediv_of_nonneg hpos]
        rfl
      unfold spanMicros
      dsimp only
      rw [hwhole]
      rfl
  | _ => exact nomatch hi

/-- A span is the exact one, to the microsecond. -/
theorem spanMicros_near (h : x.Denotes q) (hpos : 0 ≤ q) (hunit : seconds ≤ 2 ^ 20) :
    ∃ t : Int, spanMicros seconds (.real x) = boundedSpan t ∧
      |t - q * (seconds * microsPerSecond : Nat)| < 1 := by
  obtain ⟨i, hi, hq⟩ := h
  have hi0 : 0 ≤ i := by
    have : (0 : ℚ) ≤ i := hq ▸ mul_nonneg hpos unitsInOne_pos.le
    exact_mod_cast this
  obtain ⟨hle, hlt⟩ := units_div hq
  have hwhole := ofRatio_truncated hi hi0
  generalize hw : i / (unitsInOne : Int) = w at hle hlt hwhole
  generalize hu : seconds * microsPerSecond = u
  have hu40 : u ≤ 2 ^ 40 := by
    calc u = seconds * microsPerSecond := hu.symm
      _ ≤ 2 ^ 20 * 2 ^ 20 := Nat.mul_le_mul hunit (by decide)
      _ = 2 ^ 40 := rfl
  -- what is left below a whole number, and that in microseconds
  obtain ⟨v, hv, hvnear⟩ := add_near (N := 0) ⟨i, hi, hq⟩ hwhole.neg (by decide) (by decide)
    (by rw [zpow_zero, abs_le]; constructor <;> linarith)
  have hunit : (ofRatio u 1).Denotes ((u : Int) : ℚ) := ofRatio_whole (by omega)
  rw [Int.cast_natCast] at hunit
  have hu40 : (u : ℚ) ≤ 2 ^ 40 := by exact_mod_cast hu40
  have hu0 : (0 : ℚ) ≤ u := Nat.cast_nonneg u
  have herror : (2 : ℚ) ^ (0 - 53 : ℤ) = 1 / 2 ^ 53 := by norm_num
  rw [herror, abs_le] at hvnear
  have hvu : |v * u| ≤ 2 ^ (41 : ℤ) := by
    rw [abs_mul, abs_of_nonneg hu0]
    have hv2 : |v| ≤ 2 := by
      rw [abs_le]
      constructor <;> linarith
    calc |v| * u ≤ 2 * 2 ^ 40 := mul_le_mul hv2 hu40 hu0 (by norm_num)
      _ = 2 ^ (41 : ℤ) := by norm_num
  obtain ⟨p, hp, hpnear⟩ := mul_near hv hunit (by decide) (by decide) hvu
  have hr := hp.roundToInt_near
  refine ⟨_, spanMicros_eq hi hi0 seconds, ?_⟩
  rw [hw, hu, abs_lt, Int.cast_add, Int.cast_mul, Int.cast_natCast]
  -- the roundings come to a half of a microsecond and some
  have herror' : (2 : ℚ) ^ (41 - 53 : ℤ) = 1 / 2 ^ 12 := by norm_num
  rw [herror', abs_le] at hpnear
  rw [abs_le] at hr
  have hbelow : (v - (q - w)) * u ≤ 1 / 2 ^ 13 := by nlinarith
  have habove : -(1 / 2 ^ 13) ≤ (v - (q - w)) * u := by nlinarith
  constructor <;> linarith

/-- A span that is not below zero is kept if it is below the one after the longest. -/
theorem boundedSpan_ok_iff (ht : 0 ≤ t) :
    (∃ m, boundedSpan t = .ok m) ↔ t < ((longestSpanDays + 1) * microsPerDay : Nat) := by
  have hday : (0 : Int) < microsPerDay := by decide
  have hdays : (t.fdiv microsPerDay).natAbs ≤ longestSpanDays ↔
      t < ((longestSpanDays + 1) * microsPerDay : Nat) := by
    have hnonneg : 0 ≤ t / microsPerDay := Int.ediv_nonneg ht hday.le
    rw [Int.fdiv_eq_ediv_of_nonneg _ hday.le, Nat.cast_mul, ← Int.ediv_lt_iff_lt_mul hday]
    omega
  unfold boundedSpan
  dsimp only
  rw [← hdays]
  split
  · exact iff_of_true ⟨_, rfl⟩ ‹_›
  · exact iff_of_false nofun ‹_›

namespace Binary64

/-- From `2 ^ 29` on the last bit is worth `2 ^ -23` at least, so a double below a whole
    number is that much below it. -/
theorem magnitude_gap {e : Fin 2047} {f : Fin (2 ^ 52)}
    (hsize : 2 ^ 29 * unitsInOne ≤ magnitude e f) (hless : magnitude e f < limit * unitsInOne) :
    2 ^ 23 * magnitude e f + unitsInOne ≤ 2 ^ 23 * (limit * unitsInOne) := by
  obtain ⟨k, hk, hunits⟩ := Decimal.unitsInOne_eq
  generalize unitsInOne = u at hunits hsize hless ⊢
  have hbit : u = 2 ^ (k - 24 + 1) * 2 ^ 23 := by
    rw [hunits, ← Nat.pow_add, show k - 24 + 1 + 23 = k by omega]
  obtain ⟨w, hw⟩ : 2 ^ (k - 24 + 1) ∣ magnitude e f := by
    refine two_pow_dvd_magnitude ?_
    rwa [← Nat.pow_add, show 53 + (k - 24) = 29 + k by omega, Nat.pow_add, ← hunits]
  -- both numbers are whole multiples of the last bit
  generalize 2 ^ (k - 24 + 1) = bit at hw hbit
  rw [hw, hbit, Nat.mul_left_comm] at hless
  have hmore : w + 1 ≤ limit * 2 ^ 23 := Nat.lt_of_mul_lt_mul_left hless
  calc 2 ^ 23 * magnitude e f + u = 2 ^ 23 * (bit * (w + 1)) := by
        rw [hw, hbit]
        ring
    _ ≤ 2 ^ 23 * (bit * (limit * 2 ^ 23)) :=
        Nat.mul_le_mul_left _ (Nat.mul_le_mul_left _ hmore)
    _ = 2 ^ 23 * (limit * u) := by
        rw [hbit]
        ring

theorem Denotes.gap (h : x.Denotes q) (hlimit : 2 ^ 29 < limit) (hlt : q < limit) :
    q ≤ limit - 1 / 2 ^ 23 := by
  by_cases hbelow : q < limit - 1
  · have : (1 : ℚ) / 2 ^ 23 < 1 := by norm_num
    linarith
  obtain ⟨s, e, f, rfl, hq⟩ := h.finite
  have hgap := @magnitude_gap limit e f
  have hU := unitsInOne_pos
  generalize unitsInOne = u at hq hgap hU
  have hq29 : (2 : ℚ) ^ 29 ≤ q := by
    have : ((2 ^ 29 + 1 : ℕ) : ℚ) ≤ limit := by exact_mod_cast hlimit
    push_cast at this
    linarith
  have hm : q * u = magnitude e f := by
    cases s with
    | false => simpa using hq
    | true =>
        have hnonneg : (0 : ℚ) ≤ magnitude e f := Nat.cast_nonneg _
        have hpos : 0 < q * u := mul_pos (lt_of_lt_of_le (by norm_num) hq29) hU
        simp only [if_true, Int.cast_neg, Int.cast_natCast] at hq
        linarith
  generalize magnitude e f = m at hm hgap
  have hsize : 2 ^ 29 * u ≤ m := by
    have hle : (2 : ℚ) ^ 29 * u ≤ m := hm ▸ mul_le_mul_of_nonneg_right hq29 hU.le
    exact_mod_cast hle
  have hless : m < limit * u := by
    have hlt : (m : ℚ) < limit * u := hm ▸ mul_lt_mul_of_pos_right hlt hU
    exact_mod_cast hlt
  have hgap : (2 : ℚ) ^ 23 * m + u ≤ 2 ^ 23 * (limit * u) := by
    exact_mod_cast hgap hsize hless
  rw [← hm] at hgap
  have hscaled : (2 ^ 23 * q + 1) * u ≤ 2 ^ 23 * limit * u := by linarith
  have hle : 2 ^ 23 * q + 1 ≤ 2 ^ 23 * (limit : ℚ) := le_of_mul_le_mul_right hscaled hU
  linarith

end Binary64

/-- A number of settings that is not below zero can be converted if it is below that of the
    longest span and one day. -/
theorem spanMicros_ok_iff (limit : Nat) (hleast : 9 ≤ seconds) (hmost : seconds ≤ 2 ^ 20)
    (hlimit : 2 ^ 29 < limit)
    (hunit : limit * (seconds * microsPerSecond) = (longestSpanDays + 1) * microsPerDay)
    (hx : x.compare? zero ≠ some .lt) :
    (∃ m, spanMicros seconds (.real x) = .ok m) ↔ x.compareInt? limit = some .lt := by
  cases x with
  | nan => exact iff_of_false nofun nofun
  | infinite s =>
      cases s with
      | true => exact absurd rfl hx
      | false => exact iff_of_false nofun nofun
  | finite s e f =>
      obtain ⟨q, h⟩ := exists_denotes s e f
      have hpos : 0 ≤ q := h.nonneg hx
      obtain ⟨t, ht, hnear⟩ := spanMicros_near h hpos hmost
      have hu : 2 ^ 23 ≤ seconds * microsPerSecond :=
        le_trans (by decide) (Nat.mul_le_mul_right microsPerSecond hleast)
      rw [ht, h.compareInt?_lt]
      generalize seconds * microsPerSecond = u at hunit hnear hu
      have hu : (2 : ℚ) ^ 23 ≤ u := by exact_mod_cast hu
      rw [abs_lt] at hnear
      have ht0 : 0 ≤ t := by
        have hmicros : 0 ≤ q * u := mul_nonneg hpos (Nat.cast_nonneg u)
        have hlt : ((-1 : Int) : ℚ) < t := by
          push_cast
          linarith
        have := Int.cast_lt.mp hlt
        omega
      rw [boundedSpan_ok_iff ht0, ← hunit]
      constructor
      · intro hlt
        have hlt : (t : ℚ) + 1 ≤ limit * u := by exact_mod_cast hlt
        by_contra hge
        have : (limit : ℚ) * u ≤ q * u :=
          mul_le_mul_of_nonneg_right (not_lt.mp hge) (Nat.cast_nonneg u)
        linarith
      · intro hlt
        have hgap := h.gap hlimit hlt
        have : (t : ℚ) < limit * u := by nlinarith
        exact_mod_cast this

/-- Of days less than a thousand million can be converted. -/
theorem spanMicros_days_ok_iff (hx : x.compare? zero ≠ some .lt) :
    (∃ m, spanMicros 86400 (.real x) = .ok m) ↔ x.compareInt? 1000000000 = some .lt :=
  spanMicros_ok_iff 1000000000 (by decide) (by decide) (by decide) (by decide) hx

/-- Of hours as many as there are in these days. -/
theorem spanMicros_hours_ok_iff (hx : x.compare? zero ≠ some .lt) :
    (∃ m, spanMicros 3600 (.real x) = .ok m) ↔ x.compareInt? 24000000000 = some .lt :=
  spanMicros_ok_iff 24000000000 (by decide) (by decide) (by decide) (by decide) hx

end Workflow
