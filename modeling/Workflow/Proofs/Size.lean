import Mathlib.Data.String.Basic
import Workflow.Proofs.Blockers
import Workflow.Proofs.Json
import Workflow.Proofs.Refusal
import Workflow.Proofs.Traversal
import Workflow.Recovery.Integrity

/-! # Size — the size of a context and the checks of context data

    The size is measured on a text that puts plain texts in the place of what JSON has no
    form for; the checks ask for a text without such help.  Where there is the second text
    it is also the first, so a context without a size never passes its checks: its
    execution is found corrupt, and is not recovered.

    The heart is `encode_lenient`, which goes through all that a value holds. -/

namespace Workflow

/-! ## Texts of ASCII characters -/

/-- Are all characters ASCII? -/
def IsAscii (cs : List Char) : Prop := ∀ c ∈ cs, c.toNat < 128

-- Stated by `all`, as the instance that is found for a bounded quantifier may go through all
-- characters.
instance (cs : List Char) : Decidable (IsAscii cs) :=
  decidable_of_iff (cs.all fun c => decide (c.toNat < 128)) (by
    rw [List.all_eq_true]
    exact forall₂_congr fun _ _ => decide_eq_true_iff)

section Ascii

variable {c : Char} {cs ds : List Char}

theorem isAscii_nil : IsAscii [] := fun _ h => absurd h List.not_mem_nil

theorem isAscii_cons : IsAscii (c :: cs) ↔ c.toNat < 128 ∧ IsAscii cs := List.forall_mem_cons

theorem isAscii_append : IsAscii (cs ++ ds) ↔ IsAscii cs ∧ IsAscii ds := List.forall_mem_append

theorem isAscii_flatMap {α : Type} {f : α → List Char} {xs : List α}
    (h : ∀ x ∈ xs, IsAscii (f x)) : IsAscii (xs.flatMap f) := by
  intro c hc
  obtain ⟨x, hx, hc⟩ := List.mem_flatMap.mp hc
  exact h x hx c hc

theorem isAscii_digits (h : ∀ c ∈ cs, c.isDigit = true) : IsAscii cs := by
  intro c hc
  have hdigit := h c hc
  simp only [Char.isDigit, Bool.and_eq_true, decide_eq_true_eq, ge_iff_le,
    UInt32.le_iff_toNat_le] at hdigit
  have : c.val.toNat ≤ 57 := hdigit.2
  show c.val.toNat < 128
  omega

/-- A text of ASCII characters takes one byte for each. -/
theorem IsAscii.utf8ByteSize (h : IsAscii cs) : (String.ofList cs).utf8ByteSize = cs.length := by
  rw [String.utf8ByteSize_ofList]
  induction cs with
  | nil => rfl
  | cons c cs ih =>
      obtain ⟨hc, hcs⟩ := isAscii_cons.mp h
      have hsize : c.utf8Size = 1 := Char.utf8Size_eq_one_iff.mpr (by
        rw [UInt32.le_iff_toNat_le]
        exact Nat.le_of_lt_succ hc)
      rw [String.utf8Len, ih hcs, hsize, List.length_cons]

/-- Hexadecimal digits are ASCII. -/
theorem isAscii_hexDigits (width n : Nat) : IsAscii (hexDigits width n) := by
  have hdigit : ∀ k < 16, IsAscii [k.digitChar] := by
    intro k hk
    rw [isAscii_cons]
    exact ⟨by revert k; decide, isAscii_nil⟩
  refine isAscii_append.mpr ⟨fun c hc => ?_, ?_⟩
  · rw [List.eq_of_mem_replicate hc]
    decide
  · induction n using Nat.strongRecOn with
    | ind n ih =>
        by_cases hn : n < 16
        · rw [Nat.toDigits_of_lt_base hn]
          exact hdigit n hn
        · rw [Nat.toDigits_of_base_le (by omega) (by omega)]
          exact isAscii_append.mpr ⟨ih (n / 16) (by omega), hdigit _ (by omega)⟩

end Ascii

namespace Json

theorem isAscii_escapeUnit (n : Nat) : IsAscii (escapeUnit n) :=
  isAscii_cons.mpr ⟨by decide, isAscii_cons.mpr ⟨by decide, isAscii_hexDigits 4 n⟩⟩

theorem isAscii_escapeChar (c : Char) : IsAscii (escapeChar c) := by
  unfold escapeChar
  -- seven characters have escapes of their own
  iterate 7
    split
    · decide
  split
  · rename_i hprintable
    exact isAscii_cons.mpr ⟨by omega, isAscii_nil⟩
  split
  · exact isAscii_escapeUnit _
  · exact isAscii_append.mpr ⟨isAscii_escapeUnit _, isAscii_escapeUnit _⟩

theorem isAscii_quote (s : String) : IsAscii (quote s) :=
  isAscii_append.mpr
    ⟨isAscii_cons.mpr ⟨by decide, isAscii_flatMap fun c _ => isAscii_escapeChar c⟩,
      isAscii_cons.mpr ⟨by decide, isAscii_nil⟩⟩

theorem isAscii_intText (i : Int) : IsAscii (intText i) := by
  have hdigits : IsAscii (digitsOf i.natAbs) := isAscii_digits fun _ => isDigit_of_mem_digitsOf
  unfold intText
  split
  · exact isAscii_cons.mpr ⟨by decide, hdigits⟩
  · exact hdigits

theorem isAscii_exponentText (e : Int) : IsAscii (Decimal.exponentText e) := by
  refine isAscii_append.mpr ⟨?_, isAscii_digits fun _ => isDigit_of_mem_paddedDigits⟩
  split <;> decide

theorem isAscii_floatChars (x : Binary64) : IsAscii (floatChars x) := by
  cases x with
  | nan => decide
  | infinite s => cases s <;> decide
  | finite s e f =>
      obtain ⟨x, hchars, hregular, _⟩ := chars_numeral s e f
      have hsign : IsAscii (Binary64.signText s) := by cases s <;> decide
      have hfraction : IsAscii (if x.fraction = [] then [] else '.' :: x.fraction) := by
        split
        · exact isAscii_nil
        · exact isAscii_cons.mpr ⟨by decide, isAscii_digits hregular.fraction⟩
      have hexponent : IsAscii ((x.exponent.map Decimal.exponentText).getD []) := by
        cases x.exponent with
        | none => exact isAscii_nil
        | some e => exact isAscii_exponentText e
      show IsAscii (Binary64.finite s e f).chars
      rw [hchars]
      exact isAscii_append.mpr ⟨hsign, isAscii_append.mpr
        ⟨isAscii_digits hregular.whole, isAscii_append.mpr ⟨hfraction, hexponent⟩⟩⟩

theorem isAscii_scalarChars {s : Scalar} {cs : List Char} (h : scalarChars? s = some cs) :
    IsAscii cs := by
  cases s with
  | null =>
      rw [← Option.some.inj h]
      decide
  | bool b => cases b <;> (rw [← Option.some.inj h]; decide)
  | int i => exact Option.some.inj h ▸ isAscii_intText i
  | float x => exact Option.some.inj h ▸ isAscii_floatChars x
  | str t => exact Option.some.inj h ▸ isAscii_quote t
  | status t => exact Option.some.inj h ▸ isAscii_quote t.text
  | bytes _ => exact nomatch h
  | time _ => exact nomatch h
  | ref _ => exact nomatch h

theorem isAscii_fallback {lenient : Bool} {v : Value} {cs : List Char}
    (h : fallback lenient v = .ok cs) : IsAscii cs := by
  unfold fallback at h
  split at h
  · split at h
    · exact nomatch h
    · exact Except.ok.inj h ▸ isAscii_quote v.display
  · exact nomatch h

theorem isAscii_bracket {left right : Char} {ts : List (List Char)} (hleft : left.toNat < 128)
    (hright : right.toNat < 128) (h : ∀ t ∈ ts, IsAscii t) : IsAscii (bracket left right ts) := by
  have hend : IsAscii [right] := isAscii_cons.mpr ⟨hright, isAscii_nil⟩
  cases ts with
  | nil => exact isAscii_cons.mpr ⟨hleft, hend⟩
  | cons t ts =>
      obtain ⟨ht, hts⟩ := List.forall_mem_cons.mp h
      refine isAscii_append.mpr ⟨isAscii_append.mpr ⟨isAscii_cons.mpr ⟨hleft, ht⟩,
        isAscii_flatMap fun u hu => ?_⟩, hend⟩
      exact isAscii_cons.mpr ⟨by decide, isAscii_cons.mpr ⟨by decide, hts u hu⟩⟩

/-! ## The two texts of a value -/

variable {lenient : Bool} {v : Value} {cs : List Char}

/-- A text of a value is ASCII, be it written with help or without. -/
theorem isAscii_encode (h : encode lenient v = .ok cs) : IsAscii cs := by
  have hitems {xs : List Value} {ts : List (List Char)} (h : encodeItems lenient xs = .ok ts)
      (ih : ∀ x ∈ xs, ∀ {cs}, encode lenient x = .ok cs → IsAscii cs) :
      IsAscii (bracket '[' ']' ts) := by
    refine isAscii_bracket (by decide) (by decide) fun t ht => ?_
    obtain ⟨x, hx, hxt⟩ := exists_of_encodeItems h ht
    exact ih x hx hxt
  induction v using Value.induction generalizing cs with
  | scalar s =>
      rw [encode] at h
      split at h
      · cases h
      · split at h
        · rename_i hs
          exact Except.ok.inj h ▸ isAscii_scalarChars hs
        · exact isAscii_fallback h
  | thing c id => exact isAscii_fallback h
  | list xs ih =>
      obtain ⟨ts, hts, rfl⟩ := exceptMap_ok.mp h
      exact hitems hts fun x hx _ => ih x hx
  | tuple xs ih =>
      obtain ⟨ts, hts, rfl⟩ := exceptMap_ok.mp h
      exact hitems hts fun x hx _ => ih x hx
  | set xs _ => exact isAscii_fallback h
  | dict es ih =>
      obtain ⟨ts, hts, rfl⟩ := exceptMap_ok.mp h
      refine isAscii_bracket (by decide) (by decide) fun t ht => ?_
      obtain ⟨e, he, k, u, hu, rfl⟩ := exists_of_encodeEntries hts ht
      exact isAscii_append.mpr ⟨isAscii_quote k, isAscii_cons.mpr ⟨by decide,
        isAscii_cons.mpr ⟨by decide, ih e he hu⟩⟩⟩
  | up n => cases h

theorem encodeItems_congr {xs : List Value} (h : ∀ x ∈ xs, encode true x = encode false x) :
    encodeItems true xs = encodeItems false xs := by
  induction xs with
  | nil => rfl
  | cons x xs ih =>
      rw [encodeItems, encodeItems, h x List.mem_cons_self,
        ih fun y hy => h y (List.mem_cons_of_mem _ hy)]

theorem encodeEntries_congr {es : Mapping} (h : ∀ e ∈ es, encode true e.2 = encode false e.2) :
    encodeEntries true es = encodeEntries false es := by
  induction es with
  | nil => rfl
  | cons e es ih =>
      rw [encodeEntries, encodeEntries, h e List.mem_cons_self,
        ih fun f hf => h f (List.mem_cons_of_mem _ hf)]

/-- What has a text without help has the same text with help. -/
theorem encode_lenient (h : v.Encodes) : encode true v = encode false v := by
  induction v using Value.induction with
  | scalar s =>
      obtain ⟨cs, h⟩ := h
      rw [encode] at h ⊢
      rw [encode]
      cases hs : scalarChars? s with
      | some t => rfl
      | none =>
          -- a scalar that JSON has no form for is no integer, and is refused
          rw [hs] at h
          split at h <;> cases h
  | thing c id =>
      obtain ⟨cs, h⟩ := h
      cases h
  | list xs ih =>
      have hxs := Value.encodes_list.mp h
      rw [encode, encode, encodeItems_congr fun x hx => ih x hx (hxs x hx)]
  | tuple xs ih =>
      have hxs := Value.encodes_tuple.mp h
      rw [encode, encode, encodeItems_congr fun x hx => ih x hx (hxs x hx)]
  | set xs _ =>
      obtain ⟨cs, h⟩ := h
      cases h
  | dict es ih =>
      have hes := Value.encodes_dict.mp h
      rw [encode, encode, encodeEntries_congr fun e he => ih e he (hes e he).2]
  | up n => rfl

end Json

/-! ## The size of a context -/

variable {g : Engine} {e : Execution} {m : Mapping} {word : String}

/-- The size of a context that has a JSON text is the size of that text in bytes. -/
theorem Execution.contextSize_of_encodes (h : e.context.Encodes) :
    ∃ text, Json.write e.context = .ok text ∧ e.contextSize = text.utf8ByteSize := by
  obtain ⟨cs, hcs⟩ := h
  refine ⟨String.ofList cs, exceptMap_ok.mpr ⟨cs, hcs, rfl⟩, ?_⟩
  unfold contextSize
  rw [Json.encode_lenient ⟨cs, hcs⟩, hcs, (Json.isAscii_encode hcs).utf8ByteSize]

/-- What passes as context data has a JSON text. -/
theorem encodes_of_valueProblems {v : Value} {allow : Bool} (h : valueProblems allow v = []) :
    v.Encodes := by
  obtain ⟨m, rfl, hm⟩ := valueProblems_nil.mp h
  exact (contextProblems_nil.mp hm).1.encodes

/-! ## What follows where there is no size -/

namespace IntegrityReport

/-- One problem with a grave word makes the state critical. -/
theorem severityOf_critical {issues : List String} {issue : String} (h : issue ∈ issues)
    (hword : word ∈ criticalWords) (hmentions : mentions (lowerChars issue) word = true) :
    severityOf issues = .critical := by
  unfold severityOf
  rw [if_neg (by rw [List.isEmpty_iff]; exact List.ne_nil_of_mem h), if_pos]
  exact List.any_eq_true.mpr ⟨issue, h, List.any_eq_true.mpr ⟨word, hword, hmentions⟩⟩

/-- A text that mentions a word does so whatever follows. -/
theorem mentions_append {s : String} (h : mentions (lowerChars s) word = true) (t : String) :
    mentions (lowerChars (s ++ t)) word = true := by
  unfold mentions lowerChars at *
  rw [Value.occursIn_iff] at *
  rw [String.toList_append, List.flatMap_append]
  exact h.trans (List.infix_append_left)

end IntegrityReport

/-- A map without a JSON text has a problem that tells so. -/
theorem exists_mem_contextProblems (h : ¬(Value.dict m).Encodes) (allow : Bool) :
    ∃ r : JsonRefusal, s!"Context data is corrupted or not serializable: {r.message}" ∈
      contextProblems allow m := by
  cases hr : Json.encode false (.dict m) with
  | ok cs => exact absurd ⟨cs, hr⟩ h
  | error r =>
      refine ⟨r, List.mem_append_right _ ?_⟩
      unfold dataProblem?
      rw [hr]
      exact List.mem_singleton.mpr rfl

namespace Engine

/-- An execution whose context has no JSON text is found to be critical. -/
theorem integrity_critical (he : e.context = .dict m) (hname : e.workflowName.isHashable = true)
    (h : ¬e.context.Encodes) : ∃ r, g.integrity e = .ok r ∧ r.severity = .critical := by
  rw [he] at h
  obtain ⟨o, ho⟩ : ∃ o, g.definitionFor e = .ok o := ⟨_, if_pos hname⟩
  obtain ⟨r, hr⟩ := exists_mem_contextProblems h true
  have hissues : contextIssues o e = contextProblems true m := by
    unfold contextIssues
    rw [he]
    refine if_pos ?_
    rw [Bool.not_eq_true', List.isEmpty_eq_false_iff]
    exact List.ne_nil_of_mem hr
  refine ⟨_, exceptMap_ok.mpr ⟨_, exceptBind_ok.mpr ⟨o, ho, rfl⟩, rfl⟩, ?_⟩
  have hmem := List.mem_append_left (g.subjectIssues e) (List.mem_append_left (stepIssues o e)
    (List.mem_append_left (historyIssues o e) (hissues ▸ hr)))
  have hword : "corrupt" ∈ IntegrityReport.criticalWords := by decide
  exact IntegrityReport.severityOf_critical hmem hword (IntegrityReport.mentions_append
    (s := "Context data is corrupted or not serializable: ") (by decide) _)

/-- Does the execution have these blockers, so that a recovery that is shown it ends with
    them, whichever strategy is asked for? -/
structure Blocks (g : Engine) (e : Execution) (blockers : List String) : Prop where
  told   : g.recoveryBlockers e = .ok blockers
  closed : g.canRecover e = .ok false
  ends   : ∀ (on : Target) (strategy : Strategy) (target : Value) (force : Bool),
    ∃ next, g.recover on strategy.text target force = .ask (.load on.executionId) next ∧
      next (.ok (some e)) = .fail (blockedFailure blockers e)

/-- An execution whose context fails its checks is not recovered. -/
theorem blocks_corrupted (hname : e.workflowName.isHashable = true)
    (h : valueProblems true e.context ≠ []) :
    ∃ blockers, g.Blocks e blockers ∧ "Context data appears corrupted" ∈ blockers := by
  have hmem : "Context data appears corrupted" ∈ (Blocker.holding g e).map (Blocker.text e) :=
    List.mem_map_of_mem (f := Blocker.text e) ((Blocker.mem_holding .corrupted).mpr h)
  have htold := recoveryBlockers_eq (g := g) hname
  obtain ⟨b, bs, hbs⟩ := List.exists_cons_of_ne_nil (List.ne_nil_of_mem hmem)
  rw [hbs] at hmem htold
  refine ⟨b :: bs, ⟨htold, exceptMap_ok.mpr ⟨_, htold, rfl⟩, fun on strategy target force => ?_⟩,
    hmem⟩
  have hs : Strategy.ofText? strategy.text = some strategy := by cases strategy <;> decide
  exact recover_blocked on target force hs htold

end Engine

/-- The size of a context and its checks agree: what passes the checks has a JSON text, and
    its size is that of just this text; what has no size fails the checks, its execution is
    not recovered, and the state of the execution is critical if the context is a map. -/
theorem context_encoders_agree (g : Engine) (e : Execution) :
    (valueProblems true e.context = [] → ∃ text, Json.write e.context = .ok text ∧
      e.contextSize = text.utf8ByteSize ∧ e.contextSize ≠ -1) ∧
    (e.contextSize = -1 → valueProblems true e.context ≠ [] ∧
      (e.workflowName.isHashable = true →
        (∀ m, e.context = .dict m → ∃ r, g.integrity e = .ok r ∧ r.severity = .critical) ∧
        ∃ blockers, g.Blocks e blockers ∧ "Context data appears corrupted" ∈ blockers)) := by
  constructor
  · intro hproblems
    obtain ⟨text, htext, hsize⟩ :=
      Execution.contextSize_of_encodes (encodes_of_valueProblems hproblems)
    exact ⟨text, htext, hsize, by omega⟩
  · intro hsize
    have hencodes : ¬e.context.Encodes := by
      intro h
      obtain ⟨text, _, htext⟩ := Execution.contextSize_of_encodes h
      omega
    have hproblems : valueProblems true e.context ≠ [] :=
      fun h => hencodes (encodes_of_valueProblems h)
    exact ⟨hproblems, fun hname => ⟨fun m hm => Engine.integrity_critical hm hname hencodes,
      Engine.blocks_corrupted hname hproblems⟩⟩

/-- A review whose context holds itself. -/
def loopedReview : Execution :=
  { openReview with context := .dict [(.str "title", .str "notes"), (.str "self", .up 1)] }

/-- The open review passes the checks, and has a size of two bytes; the looped one has no
    size, is critical and is not recovered. -/
theorem loopedReview_blocked :
    (valueProblems true openReview.context = [] ∧
      ∃ text, Json.write openReview.context = .ok text ∧ text.utf8ByteSize = 2) ∧
    loopedReview.contextSize = -1 ∧
      (∃ r, reviewEngine.integrity loopedReview = .ok r ∧ r.severity = .critical) ∧
      ∃ blockers, reviewEngine.Blocks loopedReview blockers := by
  obtain ⟨hopen, _⟩ := context_encoders_agree reviewEngine openReview
  obtain ⟨text, htext, hsize, _⟩ := hopen (by decide +kernel)
  have hbytes : openReview.contextSize = 2 := by decide +kernel
  have hlooped : loopedReview.contextSize = -1 := by decide +kernel
  obtain ⟨_, hlost⟩ := context_encoders_agree reviewEngine loopedReview
  obtain ⟨_, hends⟩ := hlost hlooped
  obtain ⟨hcritical, blockers, hblocks, _⟩ := hends rfl
  exact ⟨⟨by decide +kernel, text, htext, by omega⟩, hlooped, hcritical _ rfl, blockers, hblocks⟩

end Workflow
