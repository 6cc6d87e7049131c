import Workflow.Json.Reader
import Workflow.Json.Writer
import Workflow.Proofs.Decimal
import Workflow.Proofs.Plain
import Workflow.Proofs.Timestamp

/-! # Json — a text is read as the data that it was written from

    Reading is followed along the text that writing made: each part is read up to its
    end and what stands behind it is left over, whatever it is, as long as it does not
    go on with a number.

    The heart is `readValue_encode`, by induction over plain data; the strings and the
    numbers in it have readings of their own. -/

namespace Workflow

namespace Json

/-! ## Strings -/

/-- The digits of a code unit in base sixteen. -/
theorem hexDigits_four {n : Nat} (h : n < 65536) : hexDigits 4 n =
    [(n / 4096).digitChar, (n / 256 % 16).digitChar, (n / 16 % 16).digitChar,
      (n % 16).digitChar] := by
  have hbase {k : Nat} (hk : k < 16) : Nat.toDigits 16 k = [k.digitChar] :=
    Nat.toDigits_of_lt_base hk
  have hstep {k : Nat} (hk : 16 ≤ k) :
      Nat.toDigits 16 k = Nat.toDigits 16 (k / 16) ++ [(k % 16).digitChar] :=
    Nat.toDigits_of_base_le (by omega) hk
  have hzero : Nat.digitChar 0 = '0' := rfl
  have h256 : n / 16 / 16 = n / 256 := by omega
  have h4096 : n / 256 / 16 = n / 4096 := by omega
  unfold hexDigits
  dsimp only
  -- Leading zeros fill up what the number has too few digits for.
  by_cases h1 : n < 16
  · have h2 : n / 4096 = 0 := by omega
    have h3 : n / 256 % 16 = 0 := by omega
    have h4 : n / 16 % 16 = 0 := by omega
    rw [hbase h1, h2, h3, h4, hzero, Nat.mod_eq_of_lt h1]
    rfl
  · rw [hstep (by omega)]
    by_cases h2 : n < 256
    · have h3 : n / 4096 = 0 := by omega
      have h4 : n / 256 % 16 = 0 := by omega
      have h5 : n / 16 % 16 = n / 16 := by omega
      rw [hbase (by omega), h3, h4, h5, hzero]
      rfl
    · rw [hstep (by omega), h256]
      by_cases h3 : n < 4096
      · have h4 : n / 4096 = 0 := by omega
        have h5 : n / 256 % 16 = n / 256 := by omega
        rw [hbase (by omega), h4, h5, hzero]
        rfl
      · rw [hstep (by omega), h4096, hbase (by omega)]
        rfl

theorem hexValue?_digitChar {k : Nat} (h : k < 16) : hexValue? k.digitChar = some k := by
  have hall : ∀ k < 16, hexValue? (Nat.digitChar k) = some k := by decide
  exact hall k h

/-- An escaped code unit is read as this unit. -/
theorem readUnits_escapeUnit {n : Nat} (h : n < 65536) (cs : List Char) :
    readUnits (escapeUnit n ++ cs) = (readUnits cs).map fun r => (n :: r.1, r.2) := by
  have hvalue : ((n / 4096 * 16 + n / 256 % 16) * 16 + n / 16 % 16) * 16 + n % 16 = n := by
    omega
  unfold escapeUnit
  rw [hexDigits_four h]
  show ((hexUnit? (n / 4096).digitChar (n / 256 % 16).digitChar (n / 16 % 16).digitChar
    (n % 16).digitChar).bind fun m => (readUnits cs).bind fun r => some (m :: r.1, r.2)) = _
  unfold hexUnit?
  rw [hexValue?_digitChar (by omega), hexValue?_digitChar (by omega),
    hexValue?_digitChar (by omega), hexValue?_digitChar (by omega)]
  simp only [Option.bind_eq_bind, Option.bind_some, Option.pure_def, hvalue]
  cases readUnits cs with
  | none => rfl
  | some r => rfl

/-- The code units of a character. -/
def unitsOf (c : Char) : List Nat :=
  if c.toNat < 0x10000 then [c.toNat]
  else [0xD800 + (c.toNat - 0x10000) / 0x400, 0xDC00 + (c.toNat - 0x10000) % 0x400]

theorem readUnits_short {e : Char} {n : Nat} (he : e ≠ 'u') (hn : shortEscape? e = some n)
    (cs : List Char) :
    readUnits ('\\' :: e :: cs) = (readUnits cs).map fun r => (n :: r.1, r.2) := by
  rw [readUnits, hn]
  · cases readUnits cs with
    | none => rfl
    | some r => rfl
  · simp [he]

theorem readUnits_self {c : Char} (hquote : c ≠ '"') (hslash : c ≠ '\\') (h : 32 ≤ c.toNat)
    (cs : List Char) :
    readUnits (c :: cs) = (readUnits cs).map fun r => (c.toNat :: r.1, r.2) := by
  rw [readUnits, if_neg]
  · cases readUnits cs with
    | none => rfl
    | some r => rfl
  · rintro (h' | h')
    · omega
    · exact hslash h'
  · exact hquote
  · exact fun _ _ _ _ _ h' _ => hslash h'
  · exact fun _ _ h' _ => hslash h'

/-- A character is read as its code units, however it was escaped. -/
theorem readUnits_escapeChar (c : Char) (cs : List Char) :
    readUnits (escapeChar c ++ cs) = (readUnits cs).map fun r => (unitsOf c ++ r.1, r.2) := by
  have hone (h : c.toNat < 0x10000) : unitsOf c = [c.toNat] := if_pos h
  unfold escapeChar
  by_cases h1 : c = '"'
  · rw [if_pos h1, h1]
    exact readUnits_short (by decide) rfl cs
  rw [if_neg h1]
  by_cases h2 : c = '\\'
  · rw [if_pos h2, h2]
    exact readUnits_short (by decide) rfl cs
  rw [if_neg h2]
  by_cases h3 : c = '\n'
  · rw [if_pos h3, h3]
    exact readUnits_short (by decide) rfl cs
  rw [if_neg h3]
  by_cases h4 : c = '\r'
  · rw [if_pos h4, h4]
    exact readUnits_short (by decide) rfl cs
  rw [if_neg h4]
  by_cases h5 : c = '\t'
  · rw [if_pos h5, h5]
    exact readUnits_short (by decide) rfl cs
  rw [if_neg h5]
  by_cases h6 : c = '\x08'
  · rw [if_pos h6, h6]
    exact readUnits_short (by decide) rfl cs
  rw [if_neg h6]
  by_cases h7 : c = '\x0c'
  · rw [if_pos h7, h7]
    exact readUnits_short (by decide) rfl cs
  rw [if_neg h7]
  by_cases hprintable : 32 ≤ c.toNat ∧ c.toNat < 127
  · rw [if_pos hprintable, hone (by omega)]
    exact readUnits_self h1 h2 hprintable.1 cs
  rw [if_neg hprintable]
  by_cases hsmall : c.toNat < 0x10000
  · rw [if_pos hsmall, hone hsmall]
    exact readUnits_escapeUnit hsmall cs
  · have hlarge : c.toNat < 0x110000 := by
      have := c.valid
      unfold UInt32.isValidChar Nat.isValidChar at this
      show c.val.toNat < _
      omega
    rw [if_neg hsmall]
    dsimp only
    rw [List.append_assoc, readUnits_escapeUnit (by omega), readUnits_escapeUnit (by omega),
      unitsOf, if_neg hsmall]
    cases readUnits cs with
    | none => rfl
    | some r => rfl

/-- A quoted text is read up to its closing quote. -/
theorem readUnits_flatMap (cs rest : List Char) :
    readUnits (cs.flatMap escapeChar ++ '"' :: rest) = some (cs.flatMap unitsOf, rest) := by
  induction cs with
  | nil => rfl
  | cons c cs ih =>
      rw [List.flatMap_cons, List.append_assoc, readUnits_escapeChar, ih]
      rfl

/-- What is no half of a pair stands for a character of its own. -/
theorem joinUnits_cons {n : Nat} (h : n < 0xD800 ∨ 0xDC00 ≤ n) (ns : List Nat) :
    joinUnits (n :: ns) = charOfUnit n :: joinUnits ns := by
  cases ns with
  | nil => rfl
  | cons m ns =>
      rw [joinUnits, if_neg]
      omega

/-- The code units of a text are joined to this text. -/
theorem joinUnits_unitsOf (cs : List Char) : joinUnits (cs.flatMap unitsOf) = cs := by
  induction cs with
  | nil => rfl
  | cons c cs ih =>
      have hvalid : c.toNat.isValidChar := c.valid
      have hself : Char.ofNat c.toNat = c := Char.ofNat_toNat c
      rw [List.flatMap_cons, unitsOf]
      by_cases hsmall : c.toNat < 0x10000
      · rw [if_pos hsmall, List.singleton_append, joinUnits_cons, ih, charOfUnit, if_pos hvalid,
          hself]
        unfold Nat.isValidChar at hvalid
        omega
      · have hnumber : 0x10000 + (0xD800 + (c.toNat - 0x10000) / 0x400 - 0xD800) * 0x400 +
            (0xDC00 + (c.toNat - 0x10000) % 0x400 - 0xDC00) = c.toNat := by omega
        unfold Nat.isValidChar at hvalid
        rw [if_neg hsmall, List.cons_append, List.singleton_append, joinUnits, if_pos (by omega),
          hnumber, hself, ih]

/-- The rest of a string is read as the text that was quoted. -/
theorem readString_quote (s : String) (rest : List Char) :
    readString (s.toList.flatMap escapeChar ++ '"' :: rest) = some (s, rest) := by
  unfold readString
  rw [readUnits_flatMap]
  show some (String.ofList (joinUnits (s.toList.flatMap unitsOf)), rest) = some (s, rest)
  rw [joinUnits_unitsOf, String.ofList_toList]

/-! ## Numbers -/

/-- Does a number that ends here not go on behind? -/
def Stops (cs : List Char) : Prop :=
  ∀ c, cs.head? = some c → c.isDigit = false ∧ c ≠ '.' ∧ c ≠ 'e' ∧ c ≠ 'E'

theorem Stops.nil : Stops [] := fun _ h => nomatch h

theorem spanDigits_append {ds rest : List Char} (hds : ∀ c ∈ ds, c.isDigit = true)
    (hrest : ∀ c, rest.head? = some c → c.isDigit = false) :
    spanDigits (ds ++ rest) = (ds, rest) := by
  unfold spanDigits
  rw [List.takeWhile_append_of_pos hds, List.dropWhile_append_of_pos hds]
  cases rest with
  | nil => rw [List.takeWhile_nil, List.dropWhile_nil, List.append_nil]
  | cons c rest =>
      have hc := hrest c rfl
      rw [List.takeWhile_cons_of_neg (by simp [hc]), List.dropWhile_cons_of_neg (by simp [hc]),
        List.append_nil]

/-- An exponent is read as it was written. -/
theorem spanExponent_exponentText (e : Int) {rest : List Char} (hrest : Stops rest) :
    spanExponent (Decimal.exponentText e ++ rest) = some (e, rest) := by
  have hdigits : ∀ c ∈ paddedDigits 2 e.natAbs, c.isDigit = true :=
    fun c hc => isDigit_of_mem_paddedDigits hc
  have hspan := spanDigits_append hdigits fun c hc => (hrest c hc).1
  have hne : paddedDigits 2 e.natAbs ≠ [] := by simp [paddedDigits, digitsOf_ne_nil]
  have hvalue := ofDigits_paddedDigits 2 e.natAbs
  unfold Decimal.exponentText
  by_cases he : e < 0
  · have habs : e = -(e.natAbs : Int) := by omega
    rw [if_pos he, congrArg (fun x => some (x, rest)) habs]
    generalize e.natAbs = n at *
    simp [spanExponent, hspan, hne, hvalue]
  · have habs : e = (e.natAbs : Int) := by omega
    rw [if_neg he, congrArg (fun x => some (x, rest)) habs]
    generalize e.natAbs = n at *
    simp [spanExponent, hspan, hne, hvalue]

/-- No exponent is read where a number ends. -/
theorem Stops.spanExponent {rest : List Char} (h : Stops rest) : spanExponent rest = none := by
  cases rest with
  | nil => rfl
  | cons c rest =>
      obtain ⟨_, _, he, hE⟩ := h c rfl
      simp [Workflow.spanExponent, he, hE]

/-- So an exponent is read where one was written. -/
theorem spanExponent_optional (exponent : Option Int) {rest : List Char} (hrest : Stops rest) :
    spanExponent ((exponent.map Decimal.exponentText).getD [] ++ rest) =
      exponent.map fun e => (e, rest) := by
  cases exponent with
  | some e => exact spanExponent_exponentText e hrest
  | none => exact hrest.spanExponent

/-- Neither a digit nor a point stands where the digits of a number end. -/
theorem head?_optional (exponent : Option Int) {rest : List Char} (hrest : Stops rest) :
    ∀ c, ((exponent.map Decimal.exponentText).getD [] ++ rest).head? = some c →
      c.isDigit = false ∧ c ≠ '.' := by
  intro c hc
  cases exponent with
  | none => exact ⟨(hrest c hc).1, (hrest c hc).2.1⟩
  | some e =>
      have hfirst : c = 'e' := by
        by_cases he : e < 0
        · simpa [Decimal.exponentText, he] using hc.symm
        · simpa [Decimal.exponentText, he] using hc.symm
      rw [hfirst]
      exact ⟨rfl, by decide⟩

/-- No fraction is read where there is no point. -/
theorem optionalFraction_none {cs : List Char} (hcs : ∀ c, cs.head? = some c → c ≠ '.') :
    optionalFraction cs = ([], cs) := by
  have hspan : spanFraction cs = ([], cs) := by
    unfold spanFraction
    split
    · exact absurd rfl (hcs '.' rfl)
    · rfl
  unfold optionalFraction
  rw [hspan]
  rfl

/-- So a fraction is read where one was written, … -/
theorem optionalFraction_append {ds cs : List Char} (hds : ∀ c ∈ ds, c.isDigit = true)
    (hcs : ∀ c, cs.head? = some c → c.isDigit = false ∧ c ≠ '.') :
    optionalFraction ((if ds = [] then [] else '.' :: ds) ++ cs) = (ds, cs) := by
  by_cases hnil : ds = []
  · rw [if_pos hnil, List.nil_append, hnil, optionalFraction_none fun c hc => (hcs c hc).2]
  · have hspan := spanDigits_append hds fun c hc => (hcs c hc).1
    simp [optionalFraction, spanFraction, hnil, hspan]

/-- … and no digit stands in front of it. -/
theorem head?_fraction {ds cs : List Char}
    (hcs : ∀ c, cs.head? = some c → c.isDigit = false ∧ c ≠ '.') :
    ∀ c, ((if ds = [] then [] else '.' :: ds) ++ cs).head? = some c → c.isDigit = false := by
  intro c hc
  by_cases hnil : ds = []
  · rw [if_pos hnil] at hc
    exact (hcs c hc).1
  · rw [if_neg hnil] at hc
    rw [← Option.some.inj hc]
    rfl

/-- The digits in front are read off first, in full when no zero stands in front of
    them. -/
theorem readNumber_whole {ds rest : List Char} (hds : ∀ c ∈ ds, c.isDigit = true)
    (hne : ds ≠ []) (hleading : ds = ['0'] ∨ ds.head? ≠ some '0')
    (hrest : ∀ c, rest.head? = some c → c.isDigit = false) (s : Bool) :
    readNumber s (ds ++ rest) =
      match spanExponent (optionalFraction rest).2 with
      | some (e, rest') => .ok (.float
          ((Decimal.ofParts ds (optionalFraction rest).1 e).toBinary64 s), rest')
      | none =>
        if (optionalFraction rest).1 ≠ [] then .ok (.float
          ((Decimal.ofParts ds (optionalFraction rest).1 0).toBinary64 s),
            (optionalFraction rest).2)
        else if ds.length ≤ digitLimit then
          .ok (.int (if s then -(ofDigits ds : Int) else ofDigits ds), (optionalFraction rest).2)
        else .error .longInteger := by
  unfold readNumber
  rw [spanDigits_append hds hrest]
  rcases hleading with rfl | hhead
  · rfl
  · obtain ⟨c, ds, rfl⟩ := List.exists_cons_of_ne_nil hne
    have hc : c ≠ '0' := fun h => hhead (congrArg some h)
    cases hexponent : spanExponent (optionalFraction rest).2 with
    | none => simp [hc, hexponent]
    | some r => simp [hc, hexponent]

/-- A number that is no integer is read as what it denotes. -/
theorem readNumber_numeral {x : Numeral} (hx : x.Regular)
    (hfloat : x.fraction ≠ [] ∨ x.exponent.isSome = true) {rest : List Char}
    (hrest : Stops rest) (s : Bool) :
    readNumber s (x.chars ++ rest) = .ok (.float (x.value.toBinary64 s), rest) := by
  have hstops := head?_optional x.exponent hrest
  unfold Numeral.chars Numeral.value
  rw [List.append_assoc, List.append_assoc,
    readNumber_whole hx.whole hx.nonempty hx.leading (head?_fraction hstops),
    optionalFraction_append hx.fraction hstops]
  dsimp only
  rw [spanExponent_optional x.exponent hrest]
  cases hexponent : x.exponent with
  | some e => rfl
  | none =>
      rcases hfloat with hne | hsome
      · exact if_pos hne
      · exact nomatch hexponent ▸ hsome

/-- A natural number is read as the integer that it is. -/
theorem readNumber_digitsOf {n : Nat} (hn : n < 10 ^ digitLimit) {rest : List Char}
    (hrest : Stops rest) (s : Bool) :
    readNumber s (digitsOf n ++ rest) = .ok (.int (if s then -(n : Int) else n), rest) := by
  have hleading : digitsOf n = ['0'] ∨ (digitsOf n).head? ≠ some '0' := by
    by_cases h : n = 0
    · rw [h]
      exact .inl rfl
    · exact .inr (head?_digitsOf h)
  have hlength : (digitsOf n).length ≤ digitLimit :=
    (Nat.length_toDigits_le_iff (by omega) (show 0 < digitLimit by decide)).mpr hn
  rw [readNumber_whole (fun c hc => isDigit_of_mem_digitsOf hc) (digitsOf_ne_nil n) hleading
    fun c hc => (hrest c hc).1, optionalFraction_none fun c hc => (hrest c hc).2.1,
    ofDigits_digitsOf]
  dsimp only
  rw [hrest.spanExponent]
  dsimp only
  rw [if_neg (fun h => h rfl), if_pos hlength]

/-- A finite number is written as a number that is no integer and denotes it. -/
theorem chars_numeral (s : Bool) (e : Fin 2047) (f : Fin (2 ^ 52)) :
    ∃ x : Numeral, (Binary64.finite s e f).chars = Binary64.signText s ++ x.chars ∧
      x.Regular ∧ (x.fraction ≠ [] ∨ x.exponent.isSome = true) ∧
      x.value.toBinary64 s = .finite s e f := by
  by_cases hzero : Binary64.magnitude e f = 0
  · have hparts : e = 0 ∧ f = 0 := by
      unfold Binary64.magnitude at hzero
      by_cases he : e.val = 0
      · rw [if_pos he] at hzero
        exact ⟨Fin.ext he, Fin.ext hzero⟩
      · rw [if_neg he] at hzero
        have := Nat.two_pow_pos (e.val - 1)
        rcases Nat.mul_eq_zero.mp hzero with h | h
        · omega
        · omega
    refine ⟨⟨['0'], ['0'], none⟩, ?_, ⟨by simp, by simp, by simp, .inl rfl⟩, .inl (by simp), ?_⟩
    · unfold Binary64.chars
      dsimp only
      rw [if_pos hzero]
      rfl
    · rw [hparts.1, hparts.2]
      rfl
  · obtain ⟨hne, hround⟩ := Decimal.shortest_toBinary64 s e f hzero
    obtain ⟨x, hchars, hx, hfloat, hvalue⟩ := Decimal.layout_writes hne
    refine ⟨x, ?_, hx, hfloat, (hvalue s).trans hround⟩
    unfold Binary64.chars
    dsimp only
    rw [if_neg hzero, hchars]

/-! ## Atoms -/

/-- A digit is told from what is none. -/
theorem ne_of_isDigit {c x : Char} (h : c.isDigit = true) (hx : x.isDigit = false) : c ≠ x := by
  rintro rfl
  exact nomatch h.symm.trans hx

/-- What starts with a digit, or with a sign before one, is read as a number. -/
theorem readAtom_digit {c : Char} (h : c.isDigit = true) (cs : List Char) :
    readAtom (c :: cs) = readNumber false (c :: cs) ∧
      readAtom ('-' :: c :: cs) = readNumber true (c :: cs) := by
  have hne {x : Char} : x.isDigit = false → c ≠ x := ne_of_isDigit h
  have h1 : c ≠ 'n' := hne rfl
  have h2 : c ≠ 't' := hne rfl
  have h3 : c ≠ 'f' := hne rfl
  have h4 : c ≠ 'N' := hne rfl
  have h5 : c ≠ 'I' := hne rfl
  have h6 : c ≠ '-' := hne rfl
  exact ⟨by simp [readAtom, h1, h2, h3, h4, h5, h6], by simp [readAtom, h5]⟩

theorem readAtom_float (s : Bool) (e : Fin 2047) (f : Fin (2 ^ 52)) {rest : List Char}
    (hrest : Stops rest) :
    readAtom ((Binary64.finite s e f).chars ++ rest) = .ok (.float (.finite s e f), rest) := by
  obtain ⟨x, hchars, hx, hfloat, hvalue⟩ := chars_numeral s e f
  obtain ⟨c, cs, hwhole⟩ := List.exists_cons_of_ne_nil hx.nonempty
  have hc : c.isDigit = true := hx.whole c (by rw [hwhole]; exact List.mem_cons_self)
  have hread := readNumber_numeral hx hfloat hrest s
  rw [hvalue] at hread
  obtain ⟨tail, htail⟩ : ∃ tail, x.chars ++ rest = c :: tail :=
    ⟨_, by rw [Numeral.chars, hwhole]; rfl⟩
  rw [hchars, List.append_assoc, htail]
  rw [htail] at hread
  cases s with
  | false => exact (readAtom_digit hc tail).1.trans hread
  | true => exact (readAtom_digit hc tail).2.trans hread

theorem readAtom_int {i : Int} (hi : i.natAbs < 10 ^ digitLimit) {rest : List Char}
    (hrest : Stops rest) : readAtom (intText i ++ rest) = .ok (.int i, rest) := by
  obtain ⟨c, cs, hdigits⟩ := List.exists_cons_of_ne_nil (digitsOf_ne_nil i.natAbs)
  have hc : c.isDigit = true :=
    isDigit_of_mem_digitsOf (n := i.natAbs) (by rw [hdigits]; exact List.mem_cons_self)
  unfold intText
  by_cases hneg : i < 0
  · have habs : -(i.natAbs : Int) = i := by omega
    have hread := readNumber_digitsOf hi hrest true
    rw [hdigits, if_pos rfl, habs] at hread
    rw [if_pos hneg, hdigits]
    exact (readAtom_digit hc (cs ++ rest)).2.trans hread
  · have habs : (i.natAbs : Int) = i := by omega
    have hread := readNumber_digitsOf hi hrest false
    rw [hdigits, if_neg Bool.false_ne_true, habs] at hread
    rw [if_neg hneg, hdigits]
    exact (readAtom_digit hc (cs ++ rest)).1.trans hread

/-! ## Values -/

/-- Does a value's text start so: not with a blank, and with no closing bracket? -/
def Opens (c : Char) : Prop :=
  c ≠ ' ' ∧ c ≠ '\t' ∧ c ≠ '\n' ∧ c ≠ '\r' ∧ c ≠ ']' ∧ c ≠ '\x7d'

theorem skipBlanks_opens {c : Char} (h : Opens c) (cs : List Char) :
    skipBlanks (c :: cs) = c :: cs := by
  obtain ⟨h1, h2, h3, h4, _⟩ := h
  simp [skipBlanks, h1, h2, h3, h4]

/-- What starts neither a string nor a container is an atom. -/
theorem readValue_atom {c : Char} (hopens : Opens c) (h1 : c ≠ '"') (h2 : c ≠ '[')
    (h3 : c ≠ '\x7b') (fuel : Nat) (cs : List Char) :
    readValue (fuel + 1) (c :: cs) = readAtom (c :: cs) := by
  rw [readValue, skipBlanks_opens hopens]
  split
  · rename_i h
    exact absurd (List.cons.inj h).1 h1
  · rename_i h
    exact absurd (List.cons.inj h).1 h2
  · rename_i h
    exact absurd (List.cons.inj h).1 h3
  · rfl

theorem readValue_blank (fuel : Nat) (cs : List Char) :
    readValue fuel (' ' :: cs) = readValue fuel cs := by
  cases fuel with
  | zero => rw [readValue, readValue]
  | succ fuel => rw [readValue, readValue, skipBlanks, if_pos (.inl rfl)]

theorem readItems_blank (fuel : Nat) (cs : List Char) :
    readItems fuel (' ' :: cs) = readItems fuel cs := by
  cases fuel with
  | zero => rw [readItems, readItems]
  | succ fuel => rw [readItems, readItems, readValue_blank]

theorem readEntries_blank (fuel : Nat) (cs : List Char) :
    readEntries fuel (' ' :: cs) = readEntries fuel cs := by
  cases fuel with
  | zero => rw [readEntries, readEntries]
  | succ fuel => rw [readEntries, readEntries, skipBlanks, if_pos (.inl rfl)]

theorem opens_digit {c : Char} (h : c.isDigit = true) : Opens c := by
  have hne {x : Char} : x.isDigit = false → c ≠ x := ne_of_isDigit h
  exact ⟨hne rfl, hne rfl, hne rfl, hne rfl, hne rfl, hne rfl⟩

theorem encode_scalar {s : Scalar} {cs : List Char} (h : encode false (.scalar s) = .ok cs) :
    isLong s = false ∧ ∀ text, scalarChars? s = some text → cs = text := by
  rw [encode] at h
  by_cases hlong : isLong s = true
  · rw [if_pos hlong] at h
    exact nomatch h
  · rw [if_neg hlong] at h
    refine ⟨Bool.eq_false_iff.mpr hlong, fun text htext => ?_⟩
    rw [htext] at h
    exact (Except.ok.inj h).symm

theorem isLong_int {i : Int} (h : isLong (.int i) = false) : i.natAbs < 10 ^ digitLimit := by
  unfold isLong at h
  exact Nat.lt_of_not_le (of_decide_eq_false h)

/-- Is the text of the value read as this value, whatever stands behind it? -/
def ReadsBack (v : Value) : Prop :=
  ∀ cs, encode false v = .ok cs → (∃ c tail, cs = c :: tail ∧ Opens c) ∧
    ∀ rest fuel, Stops rest → cs.length ≤ fuel → readValue fuel (cs ++ rest) = .ok (v, rest)

/-- An atom is read back when its text is read as an atom. -/
theorem ReadsBack.atom {s : Scalar} {c : Char} {tail : List Char}
    (htext : scalarChars? s = some (c :: tail)) (hopens : Opens c) (h1 : c ≠ '"')
    (h2 : c ≠ '[') (h3 : c ≠ '\x7b')
    (hread : isLong s = false → ∀ rest, Stops rest →
      readAtom (c :: tail ++ rest) = .ok (.scalar s, rest)) : ReadsBack (.scalar s) := by
  intro cs hcs
  obtain ⟨hlong, htext'⟩ := encode_scalar hcs
  obtain rfl := htext' _ htext
  refine ⟨⟨c, tail, rfl, hopens⟩, fun rest fuel hrest hfuel => ?_⟩
  obtain ⟨fuel, rfl⟩ : ∃ k, fuel = k + 1 := ⟨fuel - 1, by rw [List.length_cons] at hfuel; omega⟩
  rw [← hread hlong rest hrest]
  exact readValue_atom hopens h1 h2 h3 fuel _

theorem ReadsBack.number {s : Scalar} {cs : List Char} (htext : scalarChars? s = some cs)
    (hfirst : ∃ c tail, cs = c :: tail ∧ (c.isDigit = true ∨ c = '-'))
    (hread : isLong s = false → ∀ rest, Stops rest →
      readAtom (cs ++ rest) = .ok (.scalar s, rest)) : ReadsBack (.scalar s) := by
  obtain ⟨c, tail, rfl, hc⟩ := hfirst
  rcases hc with hc | rfl
  · have hne {x : Char} : x.isDigit = false → c ≠ x := ne_of_isDigit hc
    exact .atom htext (opens_digit hc) (hne rfl) (hne rfl) (hne rfl) hread
  · exact .atom htext (by unfold Opens; decide) (by decide) (by decide) (by decide) hread

theorem stops_of {c : Char} (h : c = ',' ∨ c = ']' ∨ c = '\x7d') (cs : List Char) :
    Stops (c :: cs) := by
  intro x hx
  rw [← Option.some.inj hx]
  rcases h with rfl | rfl | rfl <;> decide

/-- The texts of items, set off by commas and closed by a bracket, are read as the
    items. -/
theorem readItems_encode {xs : List Value} {t : List Char} {ts : List (List Char)}
    (hxs : ∀ x ∈ xs, ReadsBack x) (hts : encodeItems false xs = .ok (t :: ts))
    (rest : List Char) (fuel : Nat)
    (hfuel : (t ++ (ts.flatMap fun y => ',' :: ' ' :: y)).length < fuel) :
    readItems fuel (t ++ (ts.flatMap fun y => ',' :: ' ' :: y) ++ ']' :: rest) =
      .ok (xs, rest) := by
  induction xs generalizing t ts fuel with
  | nil => exact nomatch Except.ok.inj hts
  | cons x xs ih =>
      obtain ⟨t', ht, hts⟩ := exceptBind_ok.mp hts
      obtain ⟨ts', hts', hts⟩ := exceptBind_ok.mp hts
      obtain ⟨rfl, rfl⟩ := List.cons.inj (Except.ok.inj hts)
      obtain ⟨fuel, rfl⟩ : ∃ k, fuel = k + 1 := ⟨fuel - 1, by omega⟩
      rw [List.length_append] at hfuel
      have hx := (hxs x List.mem_cons_self t' ht).2
      cases ts' with
      | nil =>
          have hnil : xs = [] := by
            cases xs with
            | nil => rfl
            | cons y ys =>
                obtain ⟨_, _, h⟩ := exceptBind_ok.mp hts'
                obtain ⟨_, _, h⟩ := exceptBind_ok.mp h
                exact nomatch Except.ok.inj h
          rw [List.flatMap_nil, List.append_nil, readItems,
            hx _ fuel (stops_of (.inr (.inl rfl)) rest) (by omega), hnil]
          rfl
      | cons u us =>
          rw [List.flatMap_cons, List.length_append, List.length_cons, List.length_cons] at hfuel
          have htail := ih (fun y hy => hxs y (List.mem_cons_of_mem _ hy)) hts' fuel
            (by rw [List.length_append]; omega)
          have hsplit : t' ++ ((u :: us).flatMap fun y => ',' :: ' ' :: y) ++ ']' :: rest =
              t' ++ ',' :: ' ' :: (u ++ (us.flatMap fun y => ',' :: ' ' :: y) ++ ']' :: rest) := by
            simp
          rw [hsplit, readItems, hx _ fuel (stops_of (.inl rfl) _) (by omega)]
          show (readItems fuel (' ' :: _) >>= fun r => pure (x :: r.1, r.2)) = _
          rw [readItems_blank, htail]
          rfl

/-- Up to its value, an entry is read whatever comes behind. -/
theorem readEntries_quote (k : String) (cs : List Char) (fuel : Nat) :
    readEntries (fuel + 1) (quote k ++ ':' :: ' ' :: cs) =
      (readValue fuel cs >>= fun r => match skipBlanks r.2 with
        | '\x7d' :: rest => pure ([(.str k, r.1)], rest)
        | ',' :: rest => readEntries fuel rest >>= fun q => pure ((.str k, r.1) :: q.1, q.2)
        | _ => .error .malformed) := by
  have hquote : quote k ++ ':' :: ' ' :: cs =
      '"' :: (k.toList.flatMap escapeChar ++ '"' :: ':' :: ' ' :: cs) := by
    simp [quote]
  rw [hquote, readEntries, skipBlanks_opens (by unfold Opens; decide)]
  show (required (readString (k.toList.flatMap escapeChar ++ '"' :: _)) >>= _) = _
  rw [readString_quote]
  show (readValue fuel (' ' :: cs) >>= _) = _
  exact (readValue_blank fuel cs).symm ▸ rfl

/-- So are the texts of entries. -/
theorem readEntries_encode {es : Mapping} {t : List Char} {ts : List (List Char)}
    (hkeys : ∀ e ∈ es, ∃ k, e.1 = .str k) (hes : ∀ e ∈ es, ReadsBack e.2)
    (hts : encodeEntries false es = .ok (t :: ts)) (rest : List Char) (fuel : Nat)
    (hfuel : (t ++ (ts.flatMap fun y => ',' :: ' ' :: y)).length < fuel) :
    readEntries fuel (t ++ (ts.flatMap fun y => ',' :: ' ' :: y) ++ '\x7d' :: rest) =
      .ok (es, rest) := by
  induction es generalizing t ts fuel with
  | nil => exact nomatch Except.ok.inj hts
  | cons e es ih =>
      obtain ⟨key, v⟩ := e
      obtain ⟨k, rfl⟩ : ∃ k, key = .str k := hkeys (key, v) List.mem_cons_self
      obtain ⟨k', hk', hts⟩ := exceptBind_ok.mp hts
      obtain rfl : k = k' := Except.ok.inj hk'
      obtain ⟨t', ht, hts⟩ := exceptBind_ok.mp hts
      obtain ⟨ts', hts', hts⟩ := exceptBind_ok.mp hts
      obtain ⟨rfl, rfl⟩ := List.cons.inj (Except.ok.inj hts)
      obtain ⟨fuel, rfl⟩ : ∃ k, fuel = k + 1 := ⟨fuel - 1, by omega⟩
      rw [List.length_append, List.length_append, List.length_cons, List.length_cons] at hfuel
      have hv := (hes (.str k, v) List.mem_cons_self t' ht).2
      cases ts' with
      | nil =>
          have hnil : es = [] := by
            cases es with
            | nil => rfl
            | cons y ys =>
                obtain ⟨_, _, h⟩ := exceptBind_ok.mp hts'
                obtain ⟨_, _, h⟩ := exceptBind_ok.mp h
                obtain ⟨_, _, h⟩ := exceptBind_ok.mp h
                exact nomatch Except.ok.inj h
          have hsplit : quote k ++ ':' :: ' ' :: t' ++
              ([].flatMap fun y : List Char => ',' :: ' ' :: y) ++ '\x7d' :: rest =
                quote k ++ ':' :: ' ' :: (t' ++ '\x7d' :: rest) := by simp
          rw [hsplit, readEntries_quote, hv _ fuel (stops_of (.inr (.inr rfl)) rest) (by omega),
            hnil]
          rfl
      | cons u us =>
          rw [List.flatMap_cons, List.length_append, List.length_cons, List.length_cons] at hfuel
          have htail := ih (fun y hy => hkeys y (List.mem_cons_of_mem _ hy))
            (fun y hy => hes y (List.mem_cons_of_mem _ hy)) hts' fuel
            (by rw [List.length_append]; omega)
          have hsplit : quote k ++ ':' :: ' ' :: t' ++
              ((u :: us).flatMap fun y => ',' :: ' ' :: y) ++ '\x7d' :: rest =
                quote k ++ ':' :: ' ' :: (t' ++ ',' :: ' ' ::
                  (u ++ (us.flatMap fun y => ',' :: ' ' :: y) ++ '\x7d' :: rest)) := by simp
          rw [hsplit, readEntries_quote, hv _ fuel (stops_of (.inl rfl) _) (by omega)]
          show (readEntries fuel (' ' :: _) >>= fun q => pure ((.str k, v) :: q.1, q.2)) = _
          rw [readEntries_blank, htail]
          rfl

/-- A container is read from what stands between its brackets. -/
theorem readValue_list {c : Char} {tail rest : List Char} {xs : List Value} {fuel : Nat}
    (hopens : Opens c) (h : readItems fuel (c :: tail) = .ok (xs, rest)) :
    readValue (fuel + 1) ('[' :: c :: tail) = .ok (.list xs, rest) := by
  have hc : c ≠ ']' := hopens.2.2.2.2.1
  rw [readValue, skipBlanks_opens (by unfold Opens; decide)]
  simp [skipBlanks_opens hopens, hc, h]

theorem readValue_dict {c : Char} {tail rest : List Char} {es : Mapping} {fuel : Nat}
    (hopens : Opens c) (h : readEntries fuel (c :: tail) = .ok (es, rest)) :
    readValue (fuel + 1) ('\x7b' :: c :: tail) = .ok (.dict (Mapping.ofEntries es), rest) := by
  have hc : c ≠ '\x7d' := hopens.2.2.2.2.2
  rw [readValue, skipBlanks_opens (by unfold Opens; decide)]
  simp [skipBlanks_opens hopens, hc, h]

namespace ReadsBack

/-- So are words: `null`, `true` and `false` begin with letters of their own. -/
theorem null : ReadsBack .null := by
  refine .atom rfl (by unfold Opens; decide) (by decide) (by decide) (by decide) ?_
  exact fun _ rest _ => rfl

theorem bool (b : Bool) : ReadsBack (.bool b) := by
  cases b with
  | true =>
      refine .atom rfl (by unfold Opens; decide) (by decide) (by decide) (by decide) ?_
      exact fun _ rest _ => rfl
  | false =>
      refine .atom rfl (by unfold Opens; decide) (by decide) (by decide) (by decide) ?_
      exact fun _ rest _ => rfl

theorem int (i : Int) : ReadsBack (.int i) := by
  refine .number rfl ?_ fun hlong rest hrest => readAtom_int (isLong_int hlong) hrest
  unfold intText
  by_cases hi : i < 0
  · rw [if_pos hi]
    exact ⟨'-', _, rfl, .inr rfl⟩
  · rw [if_neg hi]
    obtain ⟨c, cs, hdigits⟩ := List.exists_cons_of_ne_nil (digitsOf_ne_nil i.natAbs)
    refine ⟨c, cs, hdigits, .inl (isDigit_of_mem_digitsOf (n := i.natAbs) ?_)⟩
    rw [hdigits]
    exact List.mem_cons_self

theorem float {x : Binary64} (hx : x.isFinite = true) : ReadsBack (.float x) := by
  cases x with
  | finite s e f =>
      refine .number rfl ?_ fun _ rest hrest => readAtom_float s e f hrest
      obtain ⟨x, hchars, hregular, _⟩ := chars_numeral s e f
      obtain ⟨c, cs, hwhole⟩ := List.exists_cons_of_ne_nil hregular.nonempty
      have hc : c.isDigit = true := hregular.whole c (by rw [hwhole]; exact List.mem_cons_self)
      show ∃ c tail, (Binary64.finite s e f).chars = c :: tail ∧ _
      rw [hchars, Numeral.chars, hwhole]
      cases s with
      | true => exact ⟨'-', _, rfl, .inr rfl⟩
      | false => exact ⟨c, _, rfl, .inl hc⟩
  | _ => cases hx

theorem str (s : String) : ReadsBack (.str s) := by
  intro cs hcs
  obtain rfl := (encode_scalar hcs).2 _ rfl
  refine ⟨⟨'"', _, rfl, by unfold Opens; decide⟩, fun rest fuel _ hfuel => ?_⟩
  obtain ⟨fuel, rfl⟩ : ∃ k, fuel = k + 1 := ⟨fuel - 1, by simp [quote] at hfuel; omega⟩
  have hquote : quote s ++ rest = '"' :: (s.toList.flatMap escapeChar ++ '"' :: rest) := by
    simp [quote]
  rw [hquote, readValue, skipBlanks_opens (by unfold Opens; decide)]
  show (required (readString (s.toList.flatMap escapeChar ++ '"' :: rest)) >>= _) = _
  rw [readString_quote]
  rfl

/-- A list is read back when its items are. -/
theorem list {xs : List Value} (hxs : ∀ x ∈ xs, ReadsBack x) : ReadsBack (.list xs) := by
  intro cs hcs
  obtain ⟨ts, hts, rfl⟩ := exceptMap_ok.mp hcs
  cases xs with
  | nil =>
      obtain rfl : [] = ts := Except.ok.inj hts
      refine ⟨⟨'[', _, rfl, by unfold Opens; decide⟩, fun rest fuel _ hfuel => ?_⟩
      obtain ⟨fuel, rfl⟩ : ∃ k, fuel = k + 1 := ⟨fuel - 1, by simp [bracket] at hfuel; omega⟩
      rw [bracket, List.cons_append, readValue, skipBlanks_opens (by unfold Opens; decide)]
      rfl
  | cons x xs =>
      obtain ⟨t, ht, h⟩ := exceptBind_ok.mp hts
      obtain ⟨ts', hts', h⟩ := exceptBind_ok.mp h
      obtain rfl : t :: ts' = ts := Except.ok.inj h
      obtain ⟨⟨c, tail, rfl, hopens⟩, _⟩ := hxs x List.mem_cons_self t ht
      refine ⟨⟨'[', _, rfl, by unfold Opens; decide⟩, fun rest fuel _ hfuel => ?_⟩
      obtain ⟨fuel, rfl⟩ : ∃ k, fuel = k + 1 := ⟨fuel - 1, by simp [bracket] at hfuel; omega⟩
      have hitems := readItems_encode hxs hts rest fuel
        (by simp [bracket] at hfuel ⊢; omega)
      have hsplit : bracket '[' ']' ((c :: tail) :: ts') ++ rest =
          '[' :: c :: (tail ++ (ts'.flatMap fun y => ',' :: ' ' :: y) ++ ']' :: rest) := by
        simp [bracket]
      rw [hsplit]
      exact readValue_list hopens hitems

/-- A map under distinct texts is read back when its values are. -/
theorem dict {es : Mapping} (hkeys : ∀ e ∈ es, ∃ k, e.1 = .str k)
    (hnodup : (es.map (·.1)).Nodup) (hes : ∀ e ∈ es, ReadsBack e.2) :
    ReadsBack (.dict es) := by
  intro cs hcs
  obtain ⟨ts, hts, rfl⟩ := exceptMap_ok.mp hcs
  cases es with
  | nil =>
      obtain rfl : [] = ts := Except.ok.inj hts
      refine ⟨⟨'\x7b', _, rfl, by unfold Opens; decide⟩, fun rest fuel _ hfuel => ?_⟩
      obtain ⟨fuel, rfl⟩ : ∃ k, fuel = k + 1 := ⟨fuel - 1, by simp [bracket] at hfuel; omega⟩
      rw [bracket, List.cons_append, readValue, skipBlanks_opens (by unfold Opens; decide)]
      rfl
  | cons e es =>
      obtain ⟨k, _, h⟩ := exceptBind_ok.mp hts
      obtain ⟨t, _, h⟩ := exceptBind_ok.mp h
      obtain ⟨ts', hts', h⟩ := exceptBind_ok.mp h
      obtain rfl : (quote k ++ ':' :: ' ' :: t) :: ts' = ts := Except.ok.inj h
      refine ⟨⟨'\x7b', _, rfl, by unfold Opens; decide⟩, fun rest fuel _ hfuel => ?_⟩
      obtain ⟨fuel, rfl⟩ : ∃ k, fuel = k + 1 := ⟨fuel - 1, by simp [bracket] at hfuel; omega⟩
      have hentries := readEntries_encode hkeys hes hts rest fuel
        (by simp [bracket] at hfuel ⊢; omega)
      have hsplit : bracket '\x7b' '\x7d' ((quote k ++ ':' :: ' ' :: t) :: ts') ++ rest =
          '\x7b' :: (quote k ++ ':' :: ' ' :: t ++ (ts'.flatMap fun y => ',' :: ' ' :: y) ++
            '\x7d' :: rest) := by
        simp [bracket]
      have hread := readValue_dict (by unfold Opens; decide) hentries
      rw [Mapping.ofEntries_distinct hkeys hnodup] at hread
      rw [hsplit]
      exact hread

end ReadsBack

/-- The text of plain data is read as this data. -/
theorem readValue_encode {v : Value} (h : v.Plain) : ReadsBack v := by
  induction h with
  | null => exact .null
  | bool b => exact .bool b
  | int i => exact .int i
  | float hx => exact .float hx
  | str s => exact .str s
  | list _ ih => exact .list ih
  | dict hkeys hnodup _ ih => exact .dict hkeys hnodup ih

/-- What is written as a whole text is read as what it was written from. -/
theorem read_write {v : Value} (h : v.Plain) {s : String} (hs : write v = .ok s) :
    read s = .ok v := by
  obtain ⟨cs, hcs, rfl⟩ := exceptMap_ok.mp hs
  have hread := (readValue_encode h cs hcs).2 [] (cs.length + 1) .nil (Nat.le_succ _)
  rw [List.append_nil] at hread
  unfold read
  rw [String.toList_ofList]
  dsimp only
  rw [hread]
  rfl

end Json

end Workflow
