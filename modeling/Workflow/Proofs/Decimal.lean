import Mathlib.Data.List.Basic
import Workflow.Binary64.Decimal

/-! # Decimal — a written number denotes what it was written from

    The written form of a double is a decimal that rounds to it.  What a decimal is
    rounded to depends on its value alone, not on how many zeros end its digits, so
    neither stripping those zeros nor writing one behind the point makes a difference.

    The heart is `shortest_toBinary64`: whichever way the search for the shortest
    decimal ends, what it ends with is rounded to the number that was searched for. -/

namespace Workflow

namespace Binary64

variable {s : Bool} {n d n' d' c : Nat}

/-! ## Rounding a ratio -/

/-- A quotient is rounded alike in other units. -/
theorem roundQuotient_scale (hc : 0 < c) (n d : Nat) :
    roundQuotient (n * c) (d * c) = roundQuotient n d := by
  have hless : 2 * (n % d * c) < d * c ↔ 2 * (n % d) < d := by
    rw [← Nat.mul_assoc]
    exact Nat.mul_lt_mul_right hc
  have hmore : d * c < 2 * (n % d * c) ↔ d < 2 * (n % d) := by
    rw [← Nat.mul_assoc]
    exact Nat.mul_lt_mul_right hc
  unfold roundQuotient
  simp only [Nat.mul_div_mul_right n d hc, Nat.mul_mod_mul_right, hless, hmore]

theorem ofUnits_scale (hc : 0 < c) (n d : Nat) :
    ofUnits s (n * c) (d * c) = ofUnits s n d := by
  unfold ofUnits
  simp only [Nat.mul_div_mul_right n d hc]
  rw [Nat.mul_right_comm, roundQuotient_scale hc]

/-- What a ratio is rounded to depends on the ratio alone. -/
theorem ofUnits_congr (hd : 0 < d) (hd' : 0 < d') (h : n * d' = n' * d) :
    ofUnits s n d = ofUnits s n' d' := by
  rw [← ofUnits_scale hd' n d, h, Nat.mul_comm d d', ofUnits_scale hd n' d']

/-- A whole number is rounded to itself. -/
theorem roundQuotient_exact (hd : 0 < d) (n : Nat) : roundQuotient (n * d) d = n := by
  unfold roundQuotient
  simp [Nat.mul_div_cancel n hd, hd]

/-- The magnitude of a number is rounded to that number. -/
theorem ofUnits_magnitude (s : Bool) (e : Fin 2047) (f : Fin (2 ^ 52)) :
    ofUnits s (magnitude e f) 1 = .finite s e f := by
  obtain ⟨e, he⟩ := e
  obtain ⟨f, hf⟩ := f
  unfold ofUnits magnitude
  simp only [Nat.div_one, Nat.one_mul]
  cases e with
  | zero =>
      have hlog : f.log2 - 52 = 0 := by
        by_cases h0 : f = 0
        · rw [h0]
          rfl
        · have := (Nat.log2_lt h0).mpr hf
          omega
      have hround := roundQuotient_exact Nat.one_pos f
      rw [Nat.mul_one] at hround
      rw [if_pos rfl, hlog, Nat.pow_zero, hround, pack, dif_pos hf]
      rfl
  | succ e =>
      have hpos : 0 < 2 ^ e := Nat.two_pow_pos e
      have hne : (2 ^ 52 + f) * 2 ^ e ≠ 0 := Nat.ne_of_gt (Nat.mul_pos (by omega) hpos)
      have hlog : ((2 ^ 52 + f) * 2 ^ e).log2 = 52 + e := by
        refine (Nat.log2_eq_iff hne).mpr ⟨?_, ?_⟩
        · rw [Nat.pow_add]
          exact Nat.mul_le_mul_right _ (Nat.le_add_right _ _)
        · rw [Nat.add_right_comm, Nat.pow_add]
          exact Nat.mul_lt_mul_of_pos_right (by omega) hpos
      have hshift : 52 + e - 52 = e := by omega
      rw [if_neg (Nat.succ_ne_zero e), Nat.add_sub_cancel, hlog, hshift,
        roundQuotient_exact hpos, pack, dif_neg (by omega), dif_pos (by omega), dif_pos he]
      simp

/-- The sign makes no difference to the rest. -/
theorem ofUnits_sign {e : Fin 2047} {f : Fin (2 ^ 52)} (h : ofUnits false n d = .finite false e f)
    (s : Bool) : ofUnits s n d = .finite s e f := by
  unfold ofUnits pack at h ⊢
  dsimp only at h ⊢
  split at h
  · rename_i hlt
    rw [dif_pos hlt]
    simpa using h
  · rename_i hlt
    rw [dif_neg hlt]
    split at h
    · rename_i hlt'
      rw [dif_pos hlt']
      split at h
      · rename_i he
        rw [dif_pos he]
        simpa using h
      · exact nomatch h
    · rename_i hlt'
      rw [dif_neg hlt']
      split at h
      · rename_i he
        rw [dif_pos he]
        simpa using h
      · exact nomatch h

/-- What lies beyond the finite range is rounded to infinity. -/
theorem ofUnits_large (s : Bool) {k : Nat} (hk : 2098 ≤ k) (h : 2 ^ k ≤ n) :
    ofUnits s n 1 = .infinite s := by
  have hne : n ≠ 0 := Nat.ne_of_gt (Nat.lt_of_lt_of_le (Nat.two_pow_pos k) h)
  have hlog : k ≤ n.log2 := (Nat.le_log2 hne).mpr h
  have hself : 2 ^ 52 * 2 ^ (n.log2 - 52) ≤ n := by
    rw [← Nat.pow_add, Nat.add_sub_cancel' (by omega)]
    exact Nat.log2_self_le hne
  have hquotient : 2 ^ 52 ≤ n / 2 ^ (n.log2 - 52) :=
    (Nat.le_div_iff_mul_le (Nat.two_pow_pos _)).mpr hself
  have hround : n / 2 ^ (n.log2 - 52) ≤ roundQuotient n (2 ^ (n.log2 - 52)) := by
    unfold roundQuotient
    dsimp only
    split
    · exact Nat.le_refl _
    · split
      · exact Nat.le_succ _
      · split
        · exact Nat.le_refl _
        · exact Nat.le_succ _
  unfold ofUnits
  simp only [Nat.div_one, Nat.one_mul]
  rw [pack, dif_neg (by omega)]
  split
  · rw [dif_neg (by omega)]
  · rw [dif_neg (by omega)]

/-- What is nearer to zero than to any other number is rounded to zero. -/
theorem ofUnits_small (s : Bool) (h : 2 * n < d) : ofUnits s n d = .signedZero s := by
  have hquotient : n / d = 0 := Nat.div_eq_of_lt (by omega)
  have hround : roundQuotient n d = 0 := by
    unfold roundQuotient
    simp only [hquotient, Nat.mod_eq_of_lt (by omega : n < d)]
    rw [if_pos h]
  unfold ofUnits
  simp only [hquotient]
  rw [show Nat.log2 0 - 52 = 0 from rfl, Nat.pow_zero, Nat.mul_one, hround]
  rfl

end Binary64

namespace Decimal

variable {s : Bool} {d d' : Decimal}

/-! ## The value of a decimal -/

/-- The units in a decimal, as a ratio: the upper part. -/
def units (d : Decimal) : Nat :=
  d.significand * 10 ^ d.exponent.toNat * Binary64.unitsInOne

/-- The lower part of that ratio. -/
def parts (d : Decimal) : Nat := 10 ^ (-d.exponent).toNat

theorem parts_pos (d : Decimal) : 0 < d.parts := Nat.pow_pos (by omega)

/-- One is a power of two units; which one is kept out of sight of the reasoning on
    powers. -/
theorem unitsInOne_eq : ∃ k, k = 1074 ∧ Binary64.unitsInOne = 2 ^ k := by
  unfold Binary64.unitsInOne
  exact ⟨1074, rfl, rfl⟩

/-- Beyond the limit of exponents there are no finite numbers. -/
theorem ofUnits_overflow (s : Bool) {m e : Nat} (hm : m ≠ 0) (he : exponentLimit < e) :
    Binary64.ofUnits s (m * 10 ^ e * Binary64.unitsInOne) 1 = .infinite s := by
  obtain ⟨k, hk, hunits⟩ := unitsInOne_eq
  have he : 400 < e := he
  have hlarge : 2 ^ (3 * e + k) ≤ m * 10 ^ e * Binary64.unitsInOne := by
    rw [hunits, Nat.pow_add]
    refine Nat.mul_le_mul_right _ ?_
    calc 2 ^ (3 * e) = 8 ^ e := Nat.pow_mul 2 3 e
      _ ≤ 10 ^ e := Nat.pow_le_pow_left (by omega) e
      _ ≤ m * 10 ^ e := Nat.le_mul_of_pos_left _ (Nat.pos_of_ne_zero hm)
  exact Binary64.ofUnits_large s (by omega) hlarge

/-- Nor are there any but zero, so far below it. -/
theorem ofUnits_underflow (s : Bool) {m e : Nat} (he : exponentLimit + m.log2 < e) :
    Binary64.ofUnits s (m * Binary64.unitsInOne) (10 ^ e) = .signedZero s := by
  obtain ⟨k, hk, hunits⟩ := unitsInOne_eq
  have he : 400 + m.log2 < e := he
  have hm : m < 2 ^ (m.log2 + 1) := Nat.lt_log2_self
  refine Binary64.ofUnits_small s ?_
  rw [hunits, Nat.mul_left_comm, ← Nat.pow_succ']
  calc m * 2 ^ (k + 1) < 2 ^ (m.log2 + 1) * 2 ^ (k + 1) :=
        Nat.mul_lt_mul_of_pos_right hm (Nat.two_pow_pos _)
    _ = 2 ^ (m.log2 + 1 + (k + 1)) := (Nat.pow_add 2 _ _).symm
    _ ≤ 2 ^ (3 * e) := Nat.pow_le_pow_right (by omega) (by omega)
    _ = 8 ^ e := Nat.pow_mul 2 3 e
    _ ≤ 10 ^ e := Nat.pow_le_pow_left (by omega) e

/-- What is cut off as too large or too small would be rounded to infinity or zero
    anyway: a decimal is rounded like the ratio that it denotes. -/
theorem toBinary64_eq (h : d.significand ≠ 0) :
    d.toBinary64 s = Binary64.ofUnits s d.units d.parts := by
  obtain ⟨m, e⟩ := d
  unfold toBinary64 units parts
  rw [if_neg h]
  cases e with
  | ofNat e =>
      have hupper : (Int.ofNat e).toNat = e := rfl
      have hlower : (-Int.ofNat e).toNat = 0 := by simp
      dsimp only
      rw [hupper, hlower, Nat.pow_zero]
      by_cases he : exponentLimit < e
      · rw [if_pos he, ofUnits_overflow s h he]
      · rw [if_neg he]
  | negSucc e =>
      have hupper : (Int.negSucc e).toNat = 0 := rfl
      have hlower : (-Int.negSucc e).toNat = e + 1 := rfl
      dsimp only
      rw [hupper, hlower, Nat.pow_zero, Nat.mul_one]
      by_cases he : exponentLimit + m.log2 < e + 1
      · rw [if_pos he, ofUnits_underflow s he]
      · rw [if_neg he]

/-- Decimals of the same value are rounded alike. -/
theorem toBinary64_congr (h : d.significand ≠ 0) (h' : d'.significand ≠ 0)
    (hvalue : d.units * d'.parts = d'.units * d.parts) : d.toBinary64 s = d'.toBinary64 s := by
  rw [toBinary64_eq h, toBinary64_eq h', Binary64.ofUnits_congr d.parts_pos d'.parts_pos hvalue]

/-- Zeros may stand at the end of the digits, or in the exponent. -/
theorem toBinary64_shift {m : Nat} (hm : m ≠ 0) (k : Nat) (e : Int) :
    toBinary64 s ⟨m * 10 ^ k, e - k⟩ = toBinary64 s ⟨m, e⟩ := by
  have hten : 0 < 10 ^ k := Nat.pow_pos (by omega)
  refine toBinary64_congr (Nat.mul_ne_zero hm (Nat.ne_of_gt hten)) hm ?_
  unfold units parts
  -- Both sides hold the same powers of ten, whichever exponents are negative.
  have hpower : 10 ^ k * 10 ^ (e - k).toNat * 10 ^ (-e).toNat =
      10 ^ e.toNat * 10 ^ (-(e - k)).toNat := by
    rw [← Nat.pow_add, ← Nat.pow_add, ← Nat.pow_add]
    congr 1
    omega
  generalize Binary64.unitsInOne = u
  calc m * 10 ^ k * 10 ^ (e - k).toNat * u * 10 ^ (-e).toNat
      = m * u * (10 ^ k * 10 ^ (e - k).toNat * 10 ^ (-e).toNat) := by ac_rfl
    _ = m * u * (10 ^ e.toNat * 10 ^ (-(e - k)).toNat) := by rw [hpower]
    _ = m * 10 ^ e.toNat * u * 10 ^ (-(e - k)).toNat := by ac_rfl

/-- Stripping zeros leaves what a decimal is rounded to. -/
theorem strip_toBinary64 {m : Nat} (hm : m ≠ 0) (e : Int) :
    (strip m e).significand ≠ 0 ∧ (strip m e).toBinary64 s = toBinary64 s ⟨m, e⟩ := by
  induction m, e using strip.induct with
  | case1 e => exact absurd rfl hm
  | case2 m e _ hzero ih =>
      rw [strip, if_neg hm, if_pos hzero]
      have hm' : m / 10 ≠ 0 := by omega
      obtain ⟨hne, hsame⟩ := ih hm'
      refine ⟨hne, hsame.trans ?_⟩
      rw [← toBinary64_shift hm' 1 (e + 1)]
      congr 2
      · omega
      · push_cast
        omega
  | case3 m e _ hzero =>
      rw [strip, if_neg hm, if_neg hzero]
      exact ⟨hm, rfl⟩

/-! ## The shortest decimal -/

/-- What the search finds is rounded to what was searched for. -/
theorem searchShortest_some {x : Binary64} {n k fuel count : Nat} {lead : Int}
    (h : searchShortest x n k lead fuel count = some d) : d.toBinary64 false = x := by
  induction fuel generalizing count with
  | zero => exact nomatch h
  | succ fuel ih =>
      unfold searchShortest at h
      split at h
      · rename_i c hc
        rw [← Option.some.inj h]
        exact beq_iff_eq.mp (List.find?_some (p := fun c : Decimal => c.toBinary64 false == x) hc)
      · exact ih h

theorem exact_eq {k : Nat} (hk : k = 1074) (m : Nat) : exact m = strip (m * 5 ^ k) (-k) := by
  rw [hk]
  rfl

/-- The full expansion of a number is rounded to it. -/
theorem exact_toBinary64 (s : Bool) (e : Fin 2047) (f : Fin (2 ^ 52))
    (h : Binary64.magnitude e f ≠ 0) :
    (exact (Binary64.magnitude e f)).significand ≠ 0 ∧
      (exact (Binary64.magnitude e f)).toBinary64 s = .finite s e f := by
  obtain ⟨k, hk, hunits⟩ := unitsInOne_eq
  have hm : Binary64.magnitude e f * 5 ^ k ≠ 0 :=
    Nat.mul_ne_zero h (Nat.ne_of_gt (Nat.pow_pos (by omega)))
  obtain ⟨hne, hsame⟩ := strip_toBinary64 (s := s) hm (-k)
  rw [exact_eq hk]
  refine ⟨hne, hsame.trans ?_⟩
  rw [toBinary64_eq hm, ← Binary64.ofUnits_magnitude s e f]
  refine Binary64.ofUnits_congr (parts_pos _) Nat.one_pos ?_
  unfold units parts
  have hupper : (-(k : Int)).toNat = 0 := by omega
  have hlower : (-(-(k : Int))).toNat = k := by omega
  rw [hupper, hlower, Nat.pow_zero, Nat.mul_one, Nat.mul_one, hunits, Nat.mul_assoc,
    ← Nat.mul_pow]

/-- The shortest decimal of a number other than zero is rounded to it. -/
theorem shortest_toBinary64 (s : Bool) (e : Fin 2047) (f : Fin (2 ^ 52))
    (h : Binary64.magnitude e f ≠ 0) :
    (shortest e f).significand ≠ 0 ∧ (shortest e f).toBinary64 s = .finite s e f := by
  unfold shortest
  dsimp only
  split
  · rename_i c hc
    have hround := searchShortest_some hc
    have hc : c.significand ≠ 0 := by
      intro hzero
      unfold toBinary64 at hround
      rw [if_pos hzero] at hround
      obtain ⟨_, rfl, rfl⟩ := Binary64.finite.inj hround
      exact h rfl
    obtain ⟨hne, hsame⟩ := strip_toBinary64 (s := s) hc c.exponent
    refine ⟨hne, hsame.trans ?_⟩
    rw [toBinary64_eq hc] at hround ⊢
    exact Binary64.ofUnits_sign hround s
  · exact exact_toBinary64 s e f h

end Decimal

/-! ## Digits -/

theorem digitsOf_ne_nil (n : Nat) : digitsOf n ≠ [] := Nat.toDigits_ne_nil

theorem isDigit_of_mem_digitsOf {n : Nat} {c : Char} (h : c ∈ digitsOf n) : c.isDigit = true :=
  Nat.isDigit_of_mem_toDigits (by omega) (by omega) h

theorem isDigit_zeros (k : Nat) : ∀ c ∈ List.replicate k '0', c.isDigit = true := by
  intro c hc
  rw [(List.mem_replicate.mp hc).2]
  rfl

theorem ofDigits_digitsOf (n : Nat) : ofDigits (digitsOf n) = n :=
  Nat.ofDigitChars_ten_toDigits

theorem ofDigits_append_zeros (cs : List Char) (k : Nat) :
    ofDigits (cs ++ List.replicate k '0') = ofDigits cs * 10 ^ k := by
  show Nat.ofDigitChars 10 (cs ++ List.replicate k '0') 0 = Nat.ofDigitChars 10 cs 0 * 10 ^ k
  rw [Nat.ofDigitChars_append, Nat.ofDigitChars_replicate_zero, Nat.mul_comm]

theorem ofDigits_zeros_append (k : Nat) (cs : List Char) :
    ofDigits (List.replicate k '0' ++ cs) = ofDigits cs := by
  show Nat.ofDigitChars 10 (List.replicate k '0' ++ cs) 0 = Nat.ofDigitChars 10 cs 0
  rw [Nat.ofDigitChars_append, Nat.ofDigitChars_replicate_zero, Nat.mul_zero]

/-- The digits of a number other than zero start with another digit than zero. -/
theorem head?_digitsOf {n : Nat} (h : n ≠ 0) : (digitsOf n).head? ≠ some '0' := by
  induction n using Nat.strongRecOn with
  | _ n ih =>
      unfold digitsOf
      by_cases hn : n < 10
      · rw [Nat.toDigits_of_lt_base hn, List.head?_cons]
        have hall : ∀ n < 10, n ≠ 0 → n.digitChar ≠ '0' := by decide
        exact fun hc => hall n hn h (Option.some.inj hc)
      · rw [Nat.toDigits_of_base_le (by omega) (by omega),
          List.head?_append_of_ne_nil _ Nat.toDigits_ne_nil]
        exact ih (n / 10) (by omega) (by omega)

/-! ## The parts of a written number -/

/-- A written number: the digits in front of the point, those behind it, and the
    exponent, if there is one. -/
structure Numeral where
  whole    : List Char
  fraction : List Char
  exponent : Option Int

namespace Numeral

/-- The text of a written number; without a fraction there is no point. -/
def chars (x : Numeral) : List Char :=
  x.whole ++ ((if x.fraction = [] then [] else '.' :: x.fraction) ++
    (x.exponent.map Decimal.exponentText).getD [])

/-- Does it have digits where digits stand, and no zero in front that it could do
    without? -/
structure Regular (x : Numeral) : Prop where
  whole    : ∀ c ∈ x.whole, c.isDigit = true
  fraction : ∀ c ∈ x.fraction, c.isDigit = true
  nonempty : x.whole ≠ []
  leading  : x.whole = ['0'] ∨ x.whole.head? ≠ some '0'

/-- The decimal that it denotes. -/
def value (x : Numeral) : Decimal :=
  Decimal.ofParts x.whole x.fraction (x.exponent.getD 0)

end Numeral

namespace Decimal

variable {s : Bool} {d : Decimal}

/-- Is the number written as a number that is no integer and that has the value of
    the decimal? -/
def Writes (cs : List Char) (d : Decimal) : Prop :=
  ∃ x : Numeral, cs = x.chars ∧ x.Regular ∧ (x.fraction ≠ [] ∨ x.exponent.isSome = true) ∧
    ∀ s, x.value.toBinary64 s = d.toBinary64 s

/-- Are these the digits of the number, with no zero in front? -/
structure Spells (ds : List Char) (m : Nat) : Prop where
  digit    : ∀ c ∈ ds, c.isDigit = true
  nonempty : ds ≠ []
  head     : ds.head? ≠ some '0'
  value    : ofDigits ds = m

theorem spells_digitsOf {m : Nat} (h : m ≠ 0) : Spells (digitsOf m) m :=
  ⟨fun _ hc => isDigit_of_mem_digitsOf hc, digitsOf_ne_nil m, head?_digitsOf h,
    ofDigits_digitsOf m⟩

namespace Spells

variable {ds : List Char} {m k : Nat} {e : Int}

/-- A text of digits and a point denotes the digits with as many of them behind the
    point, up to zeros at their end. -/
theorem writes_point (k : Nat) (whole fraction : List Char) (hm : m ≠ 0)
    (hwhole : ∀ c ∈ whole, c.isDigit = true) (hfraction : ∀ c ∈ fraction, c.isDigit = true)
    (hnonempty : whole ≠ []) (hleading : whole = ['0'] ∨ whole.head? ≠ some '0')
    (hfloat : fraction ≠ []) (hvalue : ofDigits (whole ++ fraction) = m * 10 ^ k)
    (he : e - k = -fraction.length) : Writes (whole ++ '.' :: fraction) ⟨m, e⟩ := by
  refine ⟨⟨whole, fraction, none⟩, ?_, ⟨hwhole, hfraction, hnonempty, hleading⟩, .inl hfloat,
    fun s => ?_⟩
  · simp [Numeral.chars, hfloat]
  · rw [← toBinary64_shift hm k e, he, ← hvalue]
    simp [Numeral.value, ofParts]

/-- The point may stand in front of the digits, with zeros between, … -/
theorem writes_below (h : Spells ds m) (hm : m ≠ 0) (hk : e + ds.length = -k) :
    Writes ('0' :: '.' :: List.replicate k '0' ++ ds) ⟨m, e⟩ := by
  refine writes_point 0 ['0'] (List.replicate k '0' ++ ds) hm (isDigit_zeros 1)
    (List.forall_mem_append.mpr ⟨isDigit_zeros k, h.digit⟩) (by simp) (.inl rfl)
    (by simp [h.nonempty]) ?_ ?_
  · rw [← List.append_assoc, ← List.replicate_one, List.replicate_append_replicate,
      ofDigits_zeros_append, h.value, Nat.pow_zero, Nat.mul_one]
  · rw [List.length_append, List.length_replicate]
    omega

/-- … behind them, with zeros between and one behind it, … -/
theorem writes_above (h : Spells ds m) (hm : m ≠ 0) (hk : e = k) :
    Writes (ds ++ List.replicate k '0' ++ ['.', '0']) ⟨m, e⟩ := by
  -- The zero behind the point makes up for the exponent.
  refine writes_point (k + 1) (ds ++ List.replicate k '0') ['0'] hm
    (List.forall_mem_append.mpr ⟨h.digit, isDigit_zeros k⟩) (isDigit_zeros 1)
    (by simp [h.nonempty]) (.inr ?_) (by simp) ?_ ?_
  · rw [List.head?_append_of_ne_nil _ h.nonempty]
    exact h.head
  · rw [List.append_assoc, ← List.replicate_one, List.replicate_append_replicate,
      ofDigits_append_zeros, h.value]
  · rw [List.length_singleton]
    omega

/-- … or among them. -/
theorem writes_within (h : Spells ds m) (hm : m ≠ 0) (hpos : 0 < k) (hlt : k < ds.length)
    (hk : e + ds.length = k) : Writes (ds.take k ++ '.' :: ds.drop k) ⟨m, e⟩ := by
  refine writes_point 0 _ _ hm (fun c hc => h.digit c (List.mem_of_mem_take hc))
    (fun c hc => h.digit c (List.mem_of_mem_drop hc)) ?_ (.inr ?_) ?_ ?_ ?_
  · exact List.ne_nil_of_length_pos (by rw [List.length_take]; omega)
  · rw [List.head?_take, if_neg (Nat.ne_of_gt hpos)]
    exact h.head
  · exact List.ne_nil_of_length_pos (by rw [List.length_drop]; omega)
  · rw [List.take_append_drop, h.value, Nat.pow_zero, Nat.mul_one]
  · rw [List.length_drop]
    omega

end Spells

/-- A positional text has the value of its digits. -/
theorem positional_writes (h : d.significand ≠ 0) :
    Writes (positional (digitsOf d.significand)
      (d.exponent + (digitsOf d.significand).length) ['.', '0']) d := by
  have hspells := spells_digitsOf h
  generalize digitsOf d.significand = ds at *
  unfold positional
  by_cases hpoint : d.exponent + ds.length ≤ 0
  · rw [if_pos hpoint]
    exact hspells.writes_below h (by omega)
  · rw [if_neg hpoint]
    dsimp only
    by_cases hlength : ds.length ≤ (d.exponent + ds.length).toNat
    · rw [if_pos hlength]
      exact hspells.writes_above h (by omega)
    · rw [if_neg hlength]
      exact hspells.writes_within h (by omega) (by omega) (by omega)

/-- So has a scientific text. -/
theorem scientific_writes (h : d.significand ≠ 0) :
    Writes (scientific (digitsOf d.significand)
      (d.exponent + (digitsOf d.significand).length - 1)) d := by
  have hspells := spells_digitsOf h
  generalize digitsOf d.significand = ds at *
  match ds with
  | [] => exact absurd rfl hspells.nonempty
  | [c] =>
      refine ⟨⟨[c], [], some (d.exponent + 1 - 1)⟩, ?_,
        ⟨hspells.digit, by simp, by simp, .inr hspells.head⟩, .inr rfl, fun s => ?_⟩
      · simp [Numeral.chars, scientific]
      · unfold Numeral.value ofParts
        rw [List.append_nil, hspells.value]
        simp
  | c :: c' :: cs =>
      refine ⟨⟨[c], c' :: cs, some (d.exponent + (c :: c' :: cs).length - 1)⟩, ?_,
        ⟨fun x hx => hspells.digit x ?_, fun x hx => hspells.digit x (List.mem_cons_of_mem _ hx),
          by simp, .inr hspells.head⟩, .inl (by simp), fun s => ?_⟩
      · simp [Numeral.chars, scientific]
      · rw [List.mem_singleton.mp hx]
        exact List.mem_cons_self
      · unfold Numeral.value ofParts
        rw [List.singleton_append, hspells.value]
        congr 2
        simp
        omega

/-- A stored number is written as a number that is no integer and has its value. -/
theorem layout_writes (h : d.significand ≠ 0) : Writes d.layout d := by
  unfold layout
  dsimp only
  split
  · exact positional_writes h
  · exact scientific_writes h

end Decimal

end Workflow
