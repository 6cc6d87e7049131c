import Workflow.Checked
import Workflow.Timestamp.Standard

/-! # Timestamp — times outlast their text

    A document keeps a time as a text, and so does a row, in the standard form.  Its
    fields are written with a fixed number of digits, so reading takes them apart again
    one by one.  A time of universal time comes back as it was, and out of a document
    also one of another zone of whole minutes. -/

namespace Workflow

/-! ## Digits -/

theorem ofDigits_paddedDigits (width n : Nat) : ofDigits (paddedDigits width n) = n := by
  show Nat.ofDigitChars 10 (List.replicate (width - (digitsOf n).length) '0' ++ digitsOf n) 0 = n
  rw [Nat.ofDigitChars_append, Nat.ofDigitChars_replicate_zero, Nat.mul_zero]
  exact Nat.ofDigitChars_ten_toDigits

theorem isDigit_of_mem_paddedDigits {width n : Nat} {c : Char}
    (h : c ∈ paddedDigits width n) : c.isDigit = true := by
  rcases List.mem_append.mp h with h | h
  · rw [(List.mem_replicate.mp h).2]
    rfl
  · exact Nat.isDigit_of_mem_toDigits (by omega) (by omega) h

theorem length_paddedDigits {width n : Nat} (hw : 0 < width) (hn : n < 10 ^ width) :
    (paddedDigits width n).length = width := by
  have h := (Nat.length_toDigits_le_iff (by omega : 1 < 10) hw).mpr hn
  rw [paddedDigits, List.length_append, List.length_replicate]
  show width - (Nat.toDigits 10 n).length + (Nat.toDigits 10 n).length = width
  omega

namespace Timestamp

variable {cs : List Char}

/-- Padded digits are read as the number that they write. -/
theorem readDigits_paddedDigits {width n : Nat} (hw : 0 < width) (hn : n < 10 ^ width) :
    readDigits width (paddedDigits width n ++ cs) = some (n, cs) := by
  have hlength := length_paddedDigits hw hn
  unfold readDigits
  rw [List.take_left' hlength, List.drop_left' hlength, if_pos, ofDigits_paddedDigits]
  exact ⟨hlength, List.all_eq_true.mpr fun c hc => isDigit_of_mem_paddedDigits hc⟩

theorem readChar_self (c : Char) : readChar c (c :: cs) = some cs := if_pos rfl

/-- A day fits in two digits. -/
theorem day_lt (d : Date) : d.day < 10 ^ 2 := by
  obtain ⟨_, _, hday⟩ := d.valid
  have hmonth : daysInMonth d.year d.month ≤ 31 := by
    unfold daysInMonth
    split
    · split
      · omega
      · omega
    · omega
    · omega
    · omega
    · omega
    · omega
  omega

/-- A date is read as it was written. -/
theorem readDate_chars (d : Date) : readDate (d.chars ++ cs) = some (d, cs) := by
  obtain ⟨hyear, hmonth, _⟩ := d.valid
  unfold readDate Date.chars
  rw [List.append_assoc, List.append_assoc, readDigits_paddedDigits (by omega) (by omega)]
  simp only [Option.bind_eq_bind, Option.bind_some, List.cons_append, readChar_self]
  rw [readDigits_paddedDigits (by omega) (by omega)]
  simp only [Option.bind_some, readChar_self]
  rw [readDigits_paddedDigits (by omega) (day_lt d)]
  simp only [Option.bind_some, Date.ofFields?, dif_pos d.valid]
  rfl

/-- May the text stand behind a fraction of a second, without being taken for a part of
    it? -/
def Follows (cs : List Char) : Prop :=
  ∀ c rest, cs = c :: rest → c.isDigit = false ∧ c ≠ '.' ∧ c ≠ ','

/-- The fraction of a second is read as it was written, before the zone. -/
theorem readMicros_microChars (t : Timestamp) (hcs : Follows cs) :
    readMicros (t.microChars ++ cs) = some (t.micro.val, cs) := by
  unfold microChars
  split
  · rename_i h
    rw [List.nil_append, h]
    cases cs with
    | nil => rfl
    | cons c rest =>
        obtain ⟨_, hpoint, hcomma⟩ := hcs c rest rfl
        exact if_neg (not_or_intro hpoint hcomma)
  · have hdigit : ∀ c ∈ paddedDigits 6 t.micro.val, c.isDigit = true :=
      fun c hc => isDigit_of_mem_paddedDigits hc
    have hlength : (paddedDigits 6 t.micro.val).length = 6 :=
      length_paddedDigits (by omega) (show t.micro.val < 10 ^ 6 from t.micro.isLt)
    have hspan : spanDigits (paddedDigits 6 t.micro.val ++ cs) =
        (paddedDigits 6 t.micro.val, cs) := by
      unfold spanDigits
      rw [List.takeWhile_append_of_pos hdigit, List.dropWhile_append_of_pos hdigit]
      cases cs with
      | nil => rw [List.takeWhile_nil, List.dropWhile_nil, List.append_nil]
      | cons c rest =>
          have hstop : ¬ c.isDigit = true := Bool.eq_false_iff.mp (hcs c rest rfl).1
          rw [List.takeWhile_cons_of_neg hstop, List.dropWhile_cons_of_neg hstop,
            List.append_nil]
    have hne : paddedDigits 6 t.micro.val ≠ [] := by
      intro h
      rw [h] at hlength
      exact nomatch hlength
    rw [List.cons_append, readMicros, if_pos (.inl rfl), hspan]
    dsimp only
    rw [if_neg hne, List.take_left' hlength, ofDigits_paddedDigits]

/-! ## Zones of whole minutes -/

/-- Is the time bound to no zone, or to one that is whole minutes away from universal
    time, and less than a day?  A document holds no other zone in full. -/
def OnMinutes (t : Timestamp) : Prop :=
  ∀ o, t.offset = some o → ∃ k : Int, o = k * 60000000 ∧ k.natAbs < 1440

theorem OnMinutes.universal {t : Timestamp} (h : t.offset = some 0) : t.OnMinutes := by
  intro o ho
  refine ⟨0, ?_, by decide⟩
  rw [← Option.some.inj (h.symm.trans ho)]
  rfl

/-- The zone of a time in a document. -/
def zoneChars (t : Timestamp) : List Char := (t.offset.map documentZone).getD []

/-- Another zone than universal time is written as a signed number of hours and minutes. -/
theorem documentZone_minutes {k : Int} (h : k ≠ 0) : documentZone (k * 60000000) =
    (if k < 0 then '-' else '+') ::
      (paddedDigits 2 (k.natAbs / 60) ++ ':' :: paddedDigits 2 (k.natAbs % 60)) := by
  have hseconds : (2 * (k * 60000000).natAbs + microsPerSecond) / (2 * microsPerSecond) =
      k.natAbs * 60 := by
    unfold microsPerSecond
    rw [Int.natAbs_mul, show Int.natAbs 60000000 = 60000000 from rfl]
    omega
  have hsign : (k * 60000000 < 0) = (k < 0) := by
    rw [eq_iff_iff]
    omega
  unfold documentZone
  dsimp only
  rw [hseconds, if_neg (by omega)]
  simp only [hsign]
  rw [show k.natAbs * 60 / 3600 = k.natAbs / 60 by omega,
    show k.natAbs * 60 / 60 % 60 = k.natAbs % 60 by omega]
  rfl

/-- It is read as it was written. -/
theorem readZone_signed {c : Char} (hc : c = '+' ∨ c = '-') {n : Nat} (hn : n < 1440) :
    readZone (c :: (paddedDigits 2 (n / 60) ++ ':' :: paddedDigits 2 (n % 60))) =
      some (some (if c = '+' then (n : Int) * 60000000 else -((n : Int) * 60000000))) := by
  have hminutes : readDigits 2 (paddedDigits 2 (n % 60)) = some (n % 60, []) := by
    have h : readDigits 2 (paddedDigits 2 (n % 60) ++ []) = some (n % 60, []) :=
      readDigits_paddedDigits (by omega) (by omega)
    rwa [List.append_nil] at h
  have htotal : (((n / 60 * 60 + n % 60) * 60 * microsPerSecond : Nat) : Int) = n * 60000000 := by
    unfold microsPerSecond
    omega
  have hletter (d : Char) (hd : d = 'Z' ∨ d = 'z') : c ≠ d := by
    rintro rfl
    rcases hc with rfl | rfl
    · exact absurd hd (by decide)
    · exact absurd hd (by decide)
  unfold readZone
  split
  · rename_i h
    exact nomatch h
  · rename_i h
    exact absurd (List.cons.inj h).1 (hletter 'Z' (.inl rfl))
  · rename_i h
    exact absurd (List.cons.inj h).1 (hletter 'z' (.inr rfl))
  · rename_i h
    obtain ⟨rfl, rfl⟩ := List.cons.inj h
    rw [if_pos (hc.imp_right .inl), readDigits_paddedDigits (by omega) (by omega)]
    simp only [Option.bind_eq_bind, Option.bind_some]
    rw [hminutes]
    simp only [Option.bind_some, htotal]
    rw [if_pos ⟨trivial, by omega, by omega⟩]

theorem readZone_zoneChars {t : Timestamp} (h : t.OnMinutes) :
    readZone t.zoneChars = some t.offset := by
  unfold zoneChars
  cases ho : t.offset with
  | none => rfl
  | some o =>
      obtain ⟨k, rfl, hk⟩ := h o ho
      rw [Option.map_some, Option.getD_some]
      by_cases hzero : k = 0
      · rw [hzero]
        rfl
      · rw [documentZone_minutes hzero]
        by_cases hsign : k < 0
        · rw [if_pos hsign, readZone_signed (.inr rfl) hk, if_neg (by decide)]
          congr 2
          omega
        · rw [if_neg hsign, readZone_signed (.inl rfl) hk, if_pos rfl]
          congr 2
          omega

theorem follows_zoneChars {t : Timestamp} (h : t.OnMinutes) : Follows t.zoneChars := by
  intro c rest hcs
  unfold zoneChars at hcs
  cases ho : t.offset with
  | none =>
      rw [ho] at hcs
      exact nomatch hcs
  | some o =>
      obtain ⟨k, rfl, _⟩ := h o ho
      rw [ho, Option.map_some, Option.getD_some] at hcs
      by_cases hzero : k = 0
      · rw [hzero] at hcs
        obtain ⟨rfl, _⟩ := List.cons.inj (show ['Z'] = c :: rest from hcs)
        decide
      · rw [documentZone_minutes hzero] at hcs
        obtain ⟨rfl, _⟩ := List.cons.inj hcs
        split
        · decide
        · decide

/-- A time of day is read as it was written. -/
theorem readTime_timeChars {t : Timestamp} (h : t.OnMinutes) :
    readTime t.date (t.timeChars ++ t.zoneChars) = some t := by
  have hhour : t.hour.val < 10 ^ 2 := by have := t.hour.isLt; omega
  have hminute : t.minute.val < 10 ^ 2 := by have := t.minute.isLt; omega
  have hsecond : t.second.val < 10 ^ 2 := by have := t.second.isLt; omega
  have hfields : ofFields? t.date t.hour t.minute t.second t.micro t.offset = some t :=
    dif_pos ⟨t.hour.isLt, t.minute.isLt, t.second.isLt, t.micro.isLt⟩
  unfold readTime timeChars
  simp only [List.append_assoc, List.cons_append]
  rw [readDigits_paddedDigits (by omega) hhour]
  simp only [Option.bind_eq_bind, Option.bind_some, readChar_self]
  rw [readDigits_paddedDigits (by omega) hminute]
  simp only [Option.bind_some, readSeconds, List.head?_cons, beq_self_eq_true, if_true]
  rw [readDigits_paddedDigits (by omega) hsecond]
  simp only [Option.bind_some, readMicros_microChars t (follows_zoneChars h),
    readZone_zoneChars h, hfields]

/-- A time is read as it was written into a document. -/
theorem ofText?_documentText {t : Timestamp} (h : t.OnMinutes) :
    ofText? t.documentText = some t := by
  unfold ofText? documentText charsWith
  rw [String.toList_ofList, List.append_assoc, readDate_chars]
  simp only [Option.bind_eq_bind, Option.bind_some, List.cons_append, true_or, if_true]
  exact readTime_timeChars h

/-! ## Times that are read -/

/-- A zone that is read is one of whole minutes. -/
theorem onMinutes_of_readZone {cs : List Char} {o : Option Int} (h : readZone cs = some o) :
    ∀ x, o = some x → ∃ k : Int, x = k * 60000000 ∧ k.natAbs < 1440 := by
  rintro x rfl
  unfold readZone at h
  split at h
  · exact nomatch h
  · exact ⟨0, (Option.some.inj (Option.some.inj h)).symm, by decide⟩
  · exact ⟨0, (Option.some.inj (Option.some.inj h)).symm, by decide⟩
  · split at h
    · obtain ⟨⟨hours, rest⟩, _, h⟩ := Option.bind_eq_some_iff.mp h
      obtain ⟨⟨minutes, rest'⟩, _, h⟩ := Option.bind_eq_some_iff.mp h
      dsimp only at h
      split at h
      · rename_i hrange
        have hx := Option.some.inj (Option.some.inj h)
        unfold microsPerSecond at hx
        split at hx
        · exact ⟨(hours * 60 + minutes : Nat), by omega, by omega⟩
        · exact ⟨-(hours * 60 + minutes : Nat), by omega, by omega⟩
      · exact nomatch h
    · exact nomatch h

theorem ofFields?_offset {date : Date} {hour minute second micro : Nat} {o : Option Int}
    {t : Timestamp} (h : ofFields? date hour minute second micro o = some t) : t.offset = o := by
  unfold ofFields? at h
  split at h
  · rw [← Option.some.inj h]
  · exact nomatch h

/-- A time that is read of a text is in such a zone. -/
theorem onMinutes_of_ofText? {s : String} {t : Timestamp} (h : ofText? s = some t) :
    t.OnMinutes := by
  obtain ⟨⟨date, cs⟩, _, h⟩ := Option.bind_eq_some_iff.mp h
  dsimp only at h
  split at h
  · rw [← Option.some.inj h]
    rintro _ ⟨⟩
  · split at h
    · obtain ⟨⟨hour, cs₁⟩, _, h⟩ := Option.bind_eq_some_iff.mp h
      obtain ⟨cs₂, _, h⟩ := Option.bind_eq_some_iff.mp h
      obtain ⟨⟨minute, cs₃⟩, _, h⟩ := Option.bind_eq_some_iff.mp h
      obtain ⟨⟨second, cs₄⟩, _, h⟩ := Option.bind_eq_some_iff.mp h
      dsimp only at h
      obtain ⟨micro, cs₅, h⟩ : ∃ micro cs₅, ((readZone cs₅).bind fun zone =>
          ofFields? date hour minute second micro zone) = some t := by
        split at h
        · obtain ⟨⟨micro, cs₅⟩, _, h⟩ := Option.bind_eq_some_iff.mp h
          exact ⟨micro, cs₅, h⟩
        · exact ⟨0, cs₄, h⟩
      obtain ⟨zone, hzone, h⟩ := Option.bind_eq_some_iff.mp h
      unfold OnMinutes
      rw [ofFields?_offset h]
      exact onMinutes_of_readZone hzone
    · cases h

/-! ## Standard texts -/

/-- A digit stands at the front of padded digits. -/
theorem paddedDigits_cons (width : Nat) (hw : 0 < width) (n : Nat) :
    ∃ c cs, paddedDigits width n = c :: cs ∧ c.isDigit = true := by
  cases h : paddedDigits width n with
  | nil =>
      have hlength : (paddedDigits width n).length =
          width - (digitsOf n).length + (digitsOf n).length := by
        rw [paddedDigits, List.length_append, List.length_replicate]
      rw [h, List.length_nil] at hlength
      omega
  | cons c cs =>
      have hmem : c ∈ paddedDigits width n := h ▸ List.mem_cons_self
      exact ⟨c, cs, rfl, isDigit_of_mem_paddedDigits hmem⟩

/-- A date in the usual standard form is read as it was written. -/
theorem readStandardDate_chars (d : Date) : readStandardDate (d.chars ++ cs) = some (d, cs) := by
  obtain ⟨hyear, hmonth, _⟩ := d.valid
  obtain ⟨c, rest, hc, hdigit⟩ := paddedDigits_cons 2 (by omega) d.month
  unfold readStandardDate Date.chars
  rw [List.append_assoc, List.append_assoc, readDigits_paddedDigits (by omega) (by omega)]
  simp only [Option.bind_eq_bind, Option.bind_some, List.cons_append]
  split
  · -- No week stands where the month does.
    rename_i _ _ h
    rw [hc] at h
    injection h with _ h
    injection h with h _
    rw [h] at hdigit
    exact nomatch hdigit
  · rename_i h
    injection h with h _
    exact absurd h (by decide)
  · rename_i h
    injection h with _ h
    rw [← h, readDigits_paddedDigits (by omega) (by omega)]
    simp only [Option.bind_some, readChar_self]
    rw [readDigits_paddedDigits (by omega) (day_lt d)]
    simp only [Option.bind_some, Date.ofFields?, dif_pos d.valid]
    rfl
  · rename_i h
    exact absurd rfl (h _)

namespace Clock

theorem isLast_cons_cons (a b : Char) (cs : List Char) : isLast (a :: b :: cs) = false := rfl

/-- Behind a colon the next field is read. -/
theorem readNext_colon (next : List Char → Option Clock) (c : Clock) {cs : List Char}
    (h : cs ≠ []) : readNext true next c (':' :: cs) = next cs := by
  cases cs with
  | nil => exact absurd rfl h
  | cons a cs =>
      rw [readNext, isLast_cons_cons]
      rfl

/-- The fraction of a second is read as it was written. -/
theorem withFraction_paddedDigits (c : Clock) {n : Nat} (hn : n < 10 ^ 6) :
    c.withFraction (paddedDigits 6 n) = some { c with micro := n, ends := true } := by
  have hlength : (paddedDigits 6 n).length = 6 := length_paddedDigits (by omega) hn
  have hdigits : readDigits 6 (paddedDigits 6 n ++ []) = some (n, []) :=
    readDigits_paddedDigits (by omega) hn
  rw [List.append_nil] at hdigits
  unfold withFraction
  rw [hlength, Nat.min_self]
  dsimp only
  rw [hdigits]
  simp only [Option.bind_eq_bind, Option.bind_some, Nat.sub_self, Nat.pow_zero, Nat.mul_one]
  rfl

/-- The fields of a time of day are read as they were written. -/
theorem read?_timeChars (t : Timestamp) :
    read? t.timeChars = some ⟨t.hour, t.minute, t.second, t.micro, true⟩ := by
  have hhour : t.hour.val < 10 ^ 2 := by have := t.hour.isLt; omega
  have hminute : t.minute.val < 10 ^ 2 := by have := t.minute.isLt; omega
  have hsecond : t.second.val < 10 ^ 2 := by have := t.second.isLt; omega
  have hne (n : Nat) (cs : List Char) : paddedDigits 2 n ++ cs ≠ [] := by
    obtain ⟨c, rest, hc, _⟩ := paddedDigits_cons 2 (by omega) n
    rw [hc]
    exact List.cons_ne_nil _ _
  unfold read? timeChars
  simp only [List.append_assoc, List.cons_append]
  rw [readDigits_paddedDigits (by omega) hhour]
  simp only [Option.bind_eq_bind, Option.bind_some, List.head?_cons, beq_self_eq_true]
  rw [readNext_colon _ _ (hne _ _), readDigits_paddedDigits (by omega) hminute]
  simp only [Option.bind_some]
  rw [readNext_colon _ _ (hne _ _), readDigits_paddedDigits (by omega) hsecond]
  simp only [Option.bind_some]
  unfold microChars
  split
  · rename_i h
    rw [h]
    rfl
  · obtain ⟨c, rest, hc, _⟩ := paddedDigits_cons 6 (by omega) t.micro.val
    have hfraction := withFraction_paddedDigits ⟨t.hour, t.minute, t.second, 0, true⟩
      (show t.micro.val < 10 ^ 6 from t.micro.isLt)
    rw [hc] at hfraction ⊢
    rw [readNext, isLast_cons_cons]
    exact hfraction

end Clock

/-- A zone starts where the time of day ends. -/
theorem span_timeChars (t : Timestamp) {c : Char} (hc : startsZone c = true) (cs : List Char) :
    (t.timeChars ++ c :: cs).takeWhile (fun c => !startsZone c) = t.timeChars ∧
      (t.timeChars ++ c :: cs).dropWhile (fun c => !startsZone c) = c :: cs := by
  have hdigit {c : Char} (h : c.isDigit = true) : (!startsZone c) = true := by
    unfold startsZone
    rw [Bool.not_eq_true', Bool.or_eq_false_iff, Bool.or_eq_false_iff, beq_eq_false_iff_ne,
      beq_eq_false_iff_ne, beq_eq_false_iff_ne]
    refine ⟨⟨?_, ?_⟩, ?_⟩
    · rintro rfl
      exact nomatch h
    · rintro rfl
      exact nomatch h
    · rintro rfl
      exact nomatch h
  have hpadded {width n : Nat} : ∀ c ∈ paddedDigits width n, (!startsZone c) = true :=
    fun c h => hdigit (isDigit_of_mem_paddedDigits h)
  have hmicro : ∀ c ∈ t.microChars, (!startsZone c) = true := by
    unfold microChars
    split
    · exact fun c h => absurd h List.not_mem_nil
    · exact List.forall_mem_cons.mpr ⟨rfl, hpadded⟩
  have hall : ∀ c ∈ t.timeChars, (!startsZone c) = true := by
    unfold timeChars
    simp only [List.forall_mem_append, List.forall_mem_cons]
    exact ⟨⟨⟨hpadded, rfl, hpadded⟩, rfl, hpadded⟩, hmicro⟩
  have hstop : ¬(!startsZone c) = true := by
    rw [hc]
    exact Bool.false_ne_true
  rw [List.takeWhile_append_of_pos hall, List.dropWhile_append_of_pos hall,
    List.takeWhile_cons_of_neg (p := fun c => !startsZone c) hstop,
    List.dropWhile_cons_of_neg (p := fun c => !startsZone c) hstop, List.append_nil]
  exact ⟨rfl, rfl⟩

/-- A time of universal time is read as it was written in its standard form. -/
theorem ofIsoText?_isoText {t : Timestamp} (h : t.offset = some 0) :
    ofIsoText? t.isoText = some t := by
  have hzone : (t.offset.map offsetChars).getD [] = ['+', '0', '0', ':', '0', '0'] := by
    rw [h]
    rfl
  have hfields : ofFields? t.date t.hour t.minute t.second t.micro (some 0) = some t := by
    unfold ofFields?
    rw [dif_pos ⟨t.hour.isLt, t.minute.isLt, t.second.isLt, t.micro.isLt⟩, ← h]
  obtain ⟨htake, hdrop⟩ := span_timeChars t (c := '+') rfl ['0', '0', ':', '0', '0']
  unfold ofIsoText? isoText charsWith
  rw [String.toList_ofList, hzone, List.append_assoc, readStandardDate_chars]
  simp only [Option.bind_eq_bind, Option.bind_some, List.cons_append]
  unfold readStandardTime
  rw [htake, hdrop, Clock.read?_timeChars]
  exact hfields

end Timestamp

namespace Lax

theorem time_str (path s : String) : time path (.str s) = present path (timeOfText? s) := rfl

/-- So it is read back of a document. -/
theorem time_documentText {t : Timestamp} (h : t.OnMinutes) (path : String) :
    time path (.str t.documentText) = .ok t := by
  rw [time_str, timeOfText?, Timestamp.ofText?_documentText h, Option.some_or, present]

theorem present_ok {α : Type} {path : String} {o : Option α} {a : α}
    (h : present path o = .ok a) : o = some a := by
  cases o with
  | none => exact nomatch h
  | some b => exact congrArg some (Checked.ok.inj h)

/-- A count of units since 1970 is one of universal time. -/
theorem ofUnits?_universal {unit : Nat} {count : Int} {micros : Nat} {t : Timestamp}
    (h : ofUnits? unit count micros = some t) : t.OnMinutes := by
  obtain ⟨date, _, h⟩ := Option.bind_eq_some_iff.mp h
  refine .universal ?_
  rw [← Option.some.inj h]

theorem ofEpochFloat?_universal {x : Binary64} {t : Timestamp} (h : ofEpochFloat? x = some t) :
    t.OnMinutes := by
  obtain ⟨whole, _, h⟩ := Option.bind_eq_some_iff.mp h
  exact ofUnits?_universal h

theorem epochOfText?_universal {cs : List Char} {t : Timestamp} (h : epochOfText? cs = some t) :
    t.OnMinutes := by
  unfold epochOfText? at h
  -- Whatever the sign, the digits decide.
  extract_lets ds at h
  generalize spanDigits ds = p at h
  obtain ⟨whole, rest⟩ := p
  dsimp only at h
  split at h
  · exact nomatch h
  · split at h
    · split at h
      · exact nomatch h
      · exact ofUnits?_universal h
    · obtain ⟨x, _, h⟩ := Option.bind_eq_some_iff.mp h
      exact ofEpochFloat?_universal h
    · exact nomatch h

/-- A time that is read of anything but a time is one that a document holds in full. -/
theorem time_onMinutes {path : String} {v : Value} {t : Timestamp}
    (hv : ∀ x, v ≠ .scalar (.time x)) (h : time path v = .ok t) : t.OnMinutes := by
  unfold time at h
  split at h
  · rename_i x
    exact absurd rfl (hv x)
  · exact ofUnits?_universal (present_ok h)
  · exact ofEpochFloat?_universal (present_ok h)
  · obtain ⟨s, _, hs⟩ := Option.bind_eq_some_iff.mp (present_ok h)
    rcases Option.or_eq_some_iff.mp hs with hs | ⟨_, hs⟩
    · exact Timestamp.onMinutes_of_ofText? hs
    · exact epochOfText?_universal hs

end Lax

end Workflow
