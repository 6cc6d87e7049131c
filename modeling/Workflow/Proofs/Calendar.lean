import Workflow.Proofs.Timestamp

/-! # Calendar — the texts of times stand in the order of the times

    A table lists executions by the text of their creation time.  All fields of a time
    are written with a fixed number of digits, the greater ones first, and a fraction of
    a second behind a sign that is greater than that of a zone.  So the texts of times
    of universal time compare as the times do.

    The heart is `isoText_le`: a field that is smaller makes the text smaller, whatever
    stands behind it. -/

namespace Workflow

/-! ## Padded numbers -/

/-- Does a character decide that the first text is smaller, whatever stands behind? -/
def Below (xs ys : List Char) : Prop :=
  ∃ shared x y xs' ys', xs = shared ++ x :: xs' ∧ ys = shared ++ y :: ys' ∧ x < y

theorem Below.append {xs ys : List Char} (h : Below xs ys) (rest rest' : List Char) :
    Below (xs ++ rest) (ys ++ rest') := by
  obtain ⟨shared, x, y, xs', ys', rfl, rfl, hxy⟩ := h
  exact ⟨shared, x, y, xs' ++ rest, ys' ++ rest', by simp, by simp, hxy⟩

theorem Below.behind {xs ys : List Char} (h : Below xs ys) (cs : List Char) :
    Below (cs ++ xs) (cs ++ ys) := by
  obtain ⟨shared, x, y, xs', ys', rfl, rfl, hxy⟩ := h
  exact ⟨cs ++ shared, x, y, xs', ys', by simp, by simp, hxy⟩

/-- Does the first text stand in order before the second? -/
def UpTo (xs ys : List Char) : Prop := xs = ys ∨ Below xs ys

theorem UpTo.behind {xs ys : List Char} (h : UpTo xs ys) (cs : List Char) :
    UpTo (cs ++ xs) (cs ++ ys) := by
  rcases h with rfl | h
  · exact .inl rfl
  · exact .inr (h.behind cs)

/-- Texts in order compare so. -/
theorem UpTo.le {s t : String} (h : UpTo s.toList t.toList) : s ≤ t := by
  intro hts
  have hts : t.toList < s.toList := hts
  rcases h with h | ⟨shared, x, y, xs, ys, hs, ht, hxy⟩
  · rw [h] at hts
    exact List.lt_irrefl _ hts
  · rw [hs, ht] at hts
    exact List.lt_asymm hts (List.append_left_lt (List.cons_lt_cons_iff.mpr (.inl hxy)))

/-- A wider number is written as its tens and its last digit. -/
theorem paddedDigits_succ {width : Nat} (hw : 0 < width) (n : Nat) :
    paddedDigits (width + 1) n = paddedDigits width (n / 10) ++ [(n % 10).digitChar] := by
  unfold paddedDigits digitsOf
  by_cases hn : n < 10
  · -- The tens are nought, which is written by a digit of its own.
    obtain ⟨width, rfl⟩ : ∃ k, width = k + 1 := ⟨width - 1, by omega⟩
    rw [Nat.toDigits_of_lt_base hn, Nat.div_eq_of_lt hn, Nat.mod_eq_of_lt hn]
    show List.replicate (width + 1) '0' ++ [n.digitChar] =
      List.replicate width '0' ++ ['0'] ++ [n.digitChar]
    rw [List.replicate_succ']
  · rw [Nat.toDigits_of_base_le (by omega) (by omega), List.length_append,
      List.length_singleton, Nat.add_sub_add_right, List.append_assoc]

theorem digitChar_lt {a b : Nat} (h : a < b) (hb : b < 10) : a.digitChar < b.digitChar := by
  have hall : ∀ y < 10, ∀ x < y, x.digitChar < y.digitChar := by decide
  exact hall b hb a h

/-- A smaller number is written below a greater one. -/
theorem paddedDigits_below {width a b : Nat} (hw : 0 < width) (h : a < b)
    (hb : b < 10 ^ width) : Below (paddedDigits width a) (paddedDigits width b) := by
  induction width generalizing a b with
  | zero => exact absurd hw (Nat.lt_irrefl 0)
  | succ width ih =>
      cases width with
      | zero =>
          have hb : b < 10 := hb
          have ha : a < 10 := Nat.lt_trans h hb
          refine ⟨[], a.digitChar, b.digitChar, [], [], ?_, ?_, digitChar_lt h hb⟩
          · unfold paddedDigits digitsOf
            rw [Nat.toDigits_of_lt_base ha]
            rfl
          · unfold paddedDigits digitsOf
            rw [Nat.toDigits_of_lt_base hb]
            rfl
      | succ width =>
          rw [paddedDigits_succ width.succ_pos a, paddedDigits_succ width.succ_pos b]
          rw [Nat.pow_succ] at hb
          by_cases htens : a / 10 < b / 10
          · exact (ih (by omega) htens (by omega)).append _ _
          · -- With the same tens the last digit decides.
            have htens : a / 10 = b / 10 := by omega
            rw [htens]
            have hlast : a % 10 < b % 10 := by omega
            exact ⟨_, _, _, [], [], rfl, rfl, digitChar_lt hlast (Nat.mod_lt b (by omega))⟩

/-- Numbers in order, with texts behind them that are in order where the numbers are the
    same, are written in order. -/
theorem paddedDigits_upTo {width a b : Nat} {xs ys : List Char} (hw : 0 < width)
    (hb : b < 10 ^ width) (hab : a ≤ b) (h : a = b → UpTo xs ys) :
    UpTo (paddedDigits width a ++ xs) (paddedDigits width b ++ ys) := by
  rcases Nat.lt_or_eq_of_le hab with hlt | rfl
  · exact .inr ((paddedDigits_below hw hlt hb).append xs ys)
  · exact (h rfl).behind _

/-! ## Days -/

namespace Date

/-- A later month begins when the earlier one is over. -/
theorem daysBeforeMonth_succ (year : Nat) {month : Nat} (h : 1 ≤ month) :
    daysBeforeMonth year (month + 1) = daysBeforeMonth year month + daysInMonth year month := by
  obtain ⟨month, rfl⟩ : ∃ k, month = k + 1 := ⟨month - 1, by omega⟩
  unfold daysBeforeMonth
  rw [Nat.add_sub_cancel, Nat.add_sub_cancel, List.range_succ, List.map_append, List.sum_append]
  rfl

theorem daysBeforeMonth_le (year : Nat) {month later : Nat} (h : 1 ≤ month)
    (hlater : month < later) :
    daysBeforeMonth year month + daysInMonth year month ≤ daysBeforeMonth year later := by
  induction hlater with
  | refl => exact Nat.le_of_eq (daysBeforeMonth_succ year h).symm
  | @step later hlater ih =>
      have hlater : month + 1 ≤ later := hlater
      rw [daysBeforeMonth_succ year (by omega)]
      omega

/-- Number of days of a year. -/
def daysInYear (year : Nat) : Nat := if isLeapYear year then 366 else 365

/-- Days before the first day of a year. -/
def daysBeforeYear (year : Nat) : Nat :=
  (year - 1) * 365 + (year - 1) / 4 - (year - 1) / 100 + (year - 1) / 400

theorem dayNumber_eq (d : Date) :
    d.dayNumber = daysBeforeYear d.year + daysBeforeMonth d.year d.month + d.day := rfl

theorem isLeapYear_iff (year : Nat) : isLeapYear year = true ↔
    year % 4 = 0 ∧ (year % 100 ≠ 0 ∨ year % 400 = 0) := by
  unfold isLeapYear
  simp only [Bool.and_eq_true, Bool.or_eq_true, beq_iff_eq, bne_iff_ne]

theorem div_succ (n k : Nat) : (n + 1) / k = n / k + if (n + 1) % k = 0 then 1 else 0 := by
  rw [Nat.succ_div]
  simp only [Nat.dvd_iff_mod_eq_zero]

/-- The next year begins when a year is over. -/
theorem daysBeforeYear_succ {year : Nat} (h : 1 ≤ year) :
    daysBeforeYear (year + 1) = daysBeforeYear year + daysInYear year := by
  obtain ⟨year, rfl⟩ : ∃ k, year = k + 1 := ⟨year - 1, by omega⟩
  have hle : year / 100 ≤ year := Nat.div_le_self year 100
  have hfour : (year + 1) % 100 = 0 → (year + 1) % 4 = 0 := by omega
  have hhundred : (year + 1) % 400 = 0 → (year + 1) % 100 = 0 := by omega
  unfold daysBeforeYear daysInYear
  rw [Nat.add_sub_cancel, Nat.add_sub_cancel, div_succ year 4, div_succ year 100,
    div_succ year 400]
  simp only [isLeapYear_iff]
  -- Which of the three divide the year decides; the quotients themselves do not matter.
  generalize year / 4 = a at *
  generalize year / 100 = b at *
  generalize year / 400 = c at *
  generalize (year + 1) % 4 = x at *
  generalize (year + 1) % 100 = y at *
  generalize (year + 1) % 400 = z at *
  split <;> split <;> split <;> split <;> omega

theorem daysBeforeYear_le {year later : Nat} (h : 1 ≤ year) (hlater : year < later) :
    daysBeforeYear year + daysInYear year ≤ daysBeforeYear later := by
  induction hlater with
  | refl => exact Nat.le_of_eq (daysBeforeYear_succ h).symm
  | @step later hlater ih =>
      have hlater : year + 1 ≤ later := hlater
      rw [daysBeforeYear_succ (by omega)]
      omega

/-- No day comes after its year is over. -/
theorem day_of_year_le (d : Date) :
    daysBeforeMonth d.year d.month + d.day ≤ daysInYear d.year := by
  obtain ⟨_, hmonth, hday⟩ := d.valid
  have hend : daysBeforeMonth d.year d.month + daysInMonth d.year d.month ≤
      daysBeforeMonth d.year 13 := daysBeforeMonth_le d.year hmonth.1 (by omega)
  have hyear : daysBeforeMonth d.year 13 = daysInYear d.year := by
    unfold daysBeforeMonth daysInMonth daysInYear
    cases isLeapYear d.year <;> rfl
  omega

/-- Days in order have their years in order, those of a year their months, and those of a
    month their days. -/
theorem fields_of_dayNumber_le {d d' : Date} (h : d.dayNumber ≤ d'.dayNumber) :
    d.year ≤ d'.year ∧ (d.year = d'.year → d.month ≤ d'.month ∧
      (d.month = d'.month → d.day ≤ d'.day)) := by
  obtain ⟨_, _, hday, hlast⟩ := d.valid
  obtain ⟨hyear', hmonth', hday', hlast'⟩ := d'.valid
  rw [dayNumber_eq, dayNumber_eq] at h
  refine ⟨Nat.le_of_not_lt fun hlt => ?_, fun hy => ⟨Nat.le_of_not_lt fun hlt => ?_,
    fun hm => ?_⟩⟩
  · have hyears := daysBeforeYear_le hyear'.1 hlt
    have hpast := d'.day_of_year_le
    omega
  · have hmonths := daysBeforeMonth_le d.year hmonth'.1 hlt
    rw [hy] at h hmonths
    omega
  · rw [hy, hm] at h
    omega

end Date

namespace Timestamp

variable {t u : Timestamp}

/-- Times on the clock in order have their dates in order, those of a date their hours,
    and so on. -/
theorem fields_of_wallMicros_le (h : t.wallMicros ≤ u.wallMicros) :
    t.date.dayNumber ≤ u.date.dayNumber ∧ (t.date.dayNumber = u.date.dayNumber →
      t.hour.val ≤ u.hour.val ∧ (t.hour.val = u.hour.val →
        t.minute.val ≤ u.minute.val ∧ (t.minute.val = u.minute.val →
          t.second.val ≤ u.second.val ∧ (t.second.val = u.second.val →
            t.micro.val ≤ u.micro.val)))) := by
  unfold wallMicros secondOfDay microsPerSecond at h
  omega

/-- The fraction of a second, with a zone behind it, is written in order. -/
theorem microChars_upTo (h : t.micro.val ≤ u.micro.val) (cs : List Char) :
    UpTo (t.microChars ++ '+' :: cs) (u.microChars ++ '+' :: cs) := by
  unfold microChars
  by_cases hu : u.micro.val = 0
  · rw [if_pos hu, if_pos (by omega)]
    exact .inl rfl
  · rw [if_neg hu]
    by_cases ht : t.micro.val = 0
    · rw [if_pos ht]
      exact .inr ⟨[], '+', '.', _, _, rfl, rfl, by decide⟩
    · rw [if_neg ht]
      refine UpTo.behind (paddedDigits_upTo (by omega) ?_ h fun _ => .inl rfl) ['.']
      exact u.micro.isLt

theorem timeChars_upTo (hhour : t.hour.val ≤ u.hour.val)
    (hminute : t.hour.val = u.hour.val → t.minute.val ≤ u.minute.val ∧
      (t.minute.val = u.minute.val → t.second.val ≤ u.second.val ∧
        (t.second.val = u.second.val → t.micro.val ≤ u.micro.val))) (cs : List Char) :
    UpTo (t.timeChars ++ '+' :: cs) (u.timeChars ++ '+' :: cs) := by
  unfold timeChars
  simp only [List.append_assoc, List.cons_append]
  refine paddedDigits_upTo (by omega) (by omega) hhour fun h => UpTo.behind ?_ [':']
  obtain ⟨hminute, hsecond⟩ := hminute h
  refine paddedDigits_upTo (by omega) (by omega) hminute fun h => UpTo.behind ?_ [':']
  obtain ⟨hsecond, hmicro⟩ := hsecond h
  refine paddedDigits_upTo (by omega) (by omega) hsecond fun h => ?_
  exact microChars_upTo (hmicro h) cs

/-- Times of universal time in order have their standard texts in order. -/
theorem isoText_le (ht : t.offset = some 0) (hu : u.offset = some 0)
    (h : t.instant ≤ u.instant) : t.isoText ≤ u.isoText := by
  have hwall : t.wallMicros ≤ u.wallMicros := by
    unfold instant at h
    rw [ht, hu] at h
    simpa using h
  obtain ⟨hdate, htime⟩ := fields_of_wallMicros_le hwall
  obtain ⟨hyear, hmonth⟩ := Date.fields_of_dayNumber_le hdate
  have hzone : (some (0 : Int)).map offsetChars = some ['+', '0', '0', ':', '0', '0'] := rfl
  refine UpTo.le ?_
  unfold isoText charsWith Date.chars
  rw [String.toList_ofList, String.toList_ofList, ht, hu, hzone, Option.getD_some]
  simp only [List.append_assoc, List.cons_append]
  obtain ⟨⟨_, hyears⟩, ⟨_, hmonths⟩, _⟩ := u.date.valid
  refine paddedDigits_upTo (by omega) (by omega) hyear fun hy => UpTo.behind ?_ ['-']
  obtain ⟨hmonth, hday⟩ := hmonth hy
  refine paddedDigits_upTo (by omega) (by omega) hmonth fun hm => UpTo.behind ?_ ['-']
  refine paddedDigits_upTo (by omega) (day_lt u.date) (hday hm) fun hd => UpTo.behind ?_ ['T']
  have hsame : t.date.dayNumber = u.date.dayNumber := by
    rw [Date.dayNumber_eq, Date.dayNumber_eq, hy, hm, hd]
  obtain ⟨hhour, hminute⟩ := htime hsame
  exact timeChars_upTo hhour hminute _

end Timestamp

end Workflow
