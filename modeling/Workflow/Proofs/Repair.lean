import Workflow.Proofs.Change
import Workflow.Proofs.Definition
import Workflow.Proofs.Settle

/-! # Repair — a repair mends what it can and leaves the rest as it was

    A repair fills in the required keys that are missing, behind the entries that are
    there, and resets a step that is not declared by one more record.  The record begins
    where the history left off, so it opens no gap.  What is reported afterwards was
    reported before, and a second repair finds nothing to do, also through the row of a
    table, whenever it comes.

    The heart is `mends_of_decides`, on the snapshot; `repair_converges` carries it
    through the store, among other writers. -/

namespace Workflow

open Client

variable {g : Engine} {d : Definition} {base p e : Execution} {m : Moment}
  {entries added : Mapping} {o : Option Execution} {repairs : List String}

/-! ## Contexts that are filled -/

namespace Mapping

variable {k : String}

theorem contains_append (m m' : Mapping) (k : String) :
    Mapping.contains (m ++ m') k = (m.contains k || m'.contains k) := List.any_append

/-- What is found is found in front of other entries, too. -/
theorem find?_append_left {key v : Value} (h : entries.find? key = some v) (added : Mapping) :
    Mapping.find? (entries ++ added) key = some v := by
  obtain ⟨x, hx, rfl⟩ := Option.map_eq_some_iff.mp h
  unfold find?
  rw [List.find?_append, hx]
  rfl

theorem set_of_lacks (h : entries.contains k = false) (v : Value) :
    entries.set k v = entries ++ [(.str k, v)] :=
  insert_new fun x hx => Bool.eq_false_iff.mpr (List.any_eq_false.mp h x hx)

end Mapping

namespace Engine

/-- Missing keys are added at the end, with their defaults, and then none is missing. -/
theorem fillMissing_append (d : Definition) (ks : List String) (entries : Mapping) :
    ∃ added : Mapping, (fillMissing d ks entries).1 = entries ++ added ∧
      (∀ x ∈ added, ∃ k ∈ ks, x = (.str k, d.defaultFor k)) ∧
      ∀ k ∈ ks, Mapping.contains (entries ++ added) k = true := by
  induction ks generalizing entries with
  | nil => exact ⟨[], (List.append_nil _).symm, fun x hx => absurd hx List.not_mem_nil,
      fun k hk => absurd hk List.not_mem_nil⟩
  | cons k ks ih =>
      unfold fillMissing
      split
      · rename_i hk
        obtain ⟨added, hfilled, hadded, hall⟩ := ih entries
        refine ⟨added, hfilled, fun x hx => ?_, fun k' hk' => ?_⟩
        · obtain ⟨k', hk', hx⟩ := hadded x hx
          exact ⟨k', List.mem_cons_of_mem _ hk', hx⟩
        · rcases List.mem_cons.mp hk' with rfl | hk'
          · rw [Mapping.contains_append, hk, Bool.true_or]
          · exact hall k' hk'
      · -- the default goes behind the entries, and the rest is added behind it
        rename_i hk
        have hset := Mapping.set_of_lacks (Bool.eq_false_iff.mpr hk) (d.defaultFor k)
        obtain ⟨added, hfilled, hadded, hall⟩ := ih (entries.set k (d.defaultFor k))
        rw [hset, List.append_assoc] at hfilled
        rw [hset, List.append_assoc] at hall
        refine ⟨(.str k, d.defaultFor k) :: added, ?_, fun x hx => ?_, fun k' hk' => ?_⟩
        · rw [← hset] at hfilled
          exact hfilled
        · rcases List.mem_cons.mp hx with rfl | hx
          · exact ⟨k, List.mem_cons_self, rfl⟩
          · obtain ⟨k', hk', hx⟩ := hadded x hx
            exact ⟨k', List.mem_cons_of_mem _ hk', hx⟩
        · rcases List.mem_cons.mp hk' with rfl | hk'
          · rw [Mapping.contains_append]
            simp [Mapping.contains, Value.str_equal_str]
          · exact hall k' hk'

/-- Where no key is missing nothing is added. -/
theorem fillMissing_idle {ks : List String} (h : ∀ k ∈ ks, entries.contains k = true) :
    fillMissing d ks entries = (entries, []) := by
  induction ks with
  | nil => rfl
  | cons k ks ih =>
      unfold fillMissing
      rw [if_pos (h k List.mem_cons_self)]
      exact ih fun x hx => h x (List.mem_cons_of_mem _ hx)

/-- Where none is reported none is missing. -/
theorem contains_of_fillMissing {ks : List String} (h : (fillMissing d ks entries).2 = []) :
    ∀ k ∈ ks, entries.contains k = true := by
  induction ks with
  | nil => exact fun k hk => absurd hk List.not_mem_nil
  | cons k ks ih =>
      unfold fillMissing at h
      split at h
      · rename_i hk
        exact List.forall_mem_cons.mpr ⟨hk, ih h⟩
      · exact absurd h (List.cons_ne_nil _ _)

end Engine

/-! ## Issues -/

/-- An entry without a JSON text hides whatever stands behind it. -/
theorem Json.encodeEntries_append {lenient : Bool} {es fs : Mapping} {r : JsonRefusal}
    (h : encodeEntries lenient es = .error r) :
    encodeEntries lenient (es ++ fs) = .error r := by
  induction es with
  | nil => cases h
  | cons e es ih =>
      obtain ⟨k, v⟩ := e
      rw [List.cons_append, encodeEntries]
      rw [encodeEntries] at h
      cases hk : keyText k with
      | error r' =>
          rw [hk] at h
          exact h
      | ok key =>
          -- the key is one, so the refusal is of the value or comes later
          rw [hk] at h
          cases hv : encode lenient v with
          | error r' =>
              rw [hv] at h
              exact h
          | ok t =>
              rw [hv] at h
              cases hes : encodeEntries lenient es with
              | error r' =>
                  rw [hes] at h
                  obtain rfl : r' = r := Except.error.inj h
                  rw [ih hes]
                  rfl
              | ok ts =>
                  rw [hes] at h
                  cases h

/-- Entries with texts as keys and data as values change nothing of what is wrong with the
    data before them. -/
theorem dataProblem?_append (h : ∀ x ∈ added, (∃ k, x.1 = .str k) ∧ x.2.Encodes) :
    dataProblem? (entries ++ added) = dataProblem? entries := by
  have hencode (es : Mapping) : Json.encode false (.dict es) =
      (Json.encodeEntries false es).map (Json.bracket '\x7b' '\x7d') := by rw [Json.encode]
  cases hes : Json.encodeEntries false entries with
  | error r =>
      unfold dataProblem?
      rw [hencode, hencode, hes, Json.encodeEntries_append hes]
  | ok ts =>
      have hentries : (Value.dict entries).Encodes := ⟨_, (hencode entries).trans (by rw [hes]; rfl)⟩
      rw [dataProblem?_none.mpr hentries, dataProblem?_none]
      refine Value.encodes_dict.mpr fun x hx => ?_
      rcases List.mem_append.mp hx with hx | hx
      · exact Value.encodes_dict.mp hentries x hx
      · obtain ⟨⟨k, hk⟩, hvalue⟩ := h x hx
        exact ⟨⟨k, hk ▸ rfl⟩, hvalue⟩

theorem contextProblems_append (h : ∀ x ∈ added, (∃ k, x.1 = .str k) ∧ x.2.Encodes) :
    contextProblems true (entries ++ added) = contextProblems true entries := by
  have hkeys : added.filterMap (fun x => keyProblem? true x.1) = [] := by
    refine List.filterMap_eq_nil_iff.mpr fun x hx => ?_
    obtain ⟨⟨k, hk⟩, _⟩ := h x hx
    rw [hk]
    rfl
  unfold contextProblems
  rw [dataProblem?_append h, List.filterMap_append, hkeys, List.append_nil]

namespace Engine

/-- A record that goes on from where the last one led opens no gap. -/
theorem historyGaps_concat {rs : List TransitionRecord} {x : TransitionRecord}
    (h : ∀ r, rs.getLast? = some r → r.toStep = x.fromStep) :
    historyGaps (rs ++ [x]) = historyGaps rs := by
  induction rs with
  | nil => rfl
  | cons r rs ih =>
      cases rs with
      | nil =>
          show (if r.toStep = x.fromStep then _ else _) = _
          rw [if_pos (h r rfl)]
          rfl
      | cons r' rs =>
          have hrest := ih fun y hy => h y (by rw [List.getLast?_cons_cons]; exact hy)
          rw [List.cons_append] at hrest
          rw [List.cons_append, List.cons_append, historyGaps, historyGaps, hrest]

/-- A reset of the step leaves the issues of the history as they were: it starts a history
    at the initial step, or goes on where it left off. -/
theorem historyIssues_reset {initial : String} {status : Status} {context : Value}
    {now : Timestamp} (h : d.initialStep? = some initial) :
    historyIssues (some d) (relocate base ((base.lastTransition?.map (·.toStep)).getD initial)
      initial resetAction status context now) = historyIssues (some d) base := by
  generalize hsource : (base.lastTransition?.map (·.toStep)).getD initial = source
  have hgaps : historyGaps (base.history ++ [⟨source, initial, resetAction,
      some .systemRecovery, now⟩]) = historyGaps base.history := by
    refine historyGaps_concat fun r hr => ?_
    rw [← hsource, show base.lastTransition? = some r from hr]
    rfl
  unfold historyIssues relocate
  dsimp only
  rw [hgaps]
  congr 1
  cases hhistory : base.history with
  | nil =>
      -- the record is the first one, so it starts where the workflow does
      have hlast : base.lastTransition? = none := by
        unfold Execution.lastTransition?
        rw [hhistory]
        rfl
      rw [hlast] at hsource
      rw [← hsource]
      exact if_pos h
  | cons r rs => rfl

/-! ## Snapshots that are mended -/

/-- Does the second snapshot have what a repair of the first one makes, which has such a
    context: the missing keys with their defaults, a declared step, and a history that goes
    on without a new gap? -/
structure Mends (d : Definition) (entries : Mapping) (base p : Execution) : Prop where
  named    : (d.named? p.currentStep).isSome
  context  : ∃ added : Mapping, p.context = .dict (entries ++ added) ∧
    (∀ x ∈ added, ∃ k ∈ d.requiredKeys, x = (.str k, d.defaultFor k)) ∧
    ∀ k ∈ d.requiredKeys, Mapping.contains (entries ++ added) k = true
  history  : base.history <+: p.history
  issues   : historyIssues (some d) p = historyIssues (some d) base
  workflow : p.workflowName = base.workflowName
  subject  : p.subject = base.subject

/-- What is decided on a snapshot mends it; nothing is proposed where it is whole. -/
theorem mends_of_decides (h : g.repairMutation.Decides base m o repairs)
    (hdef : g.definitionFor base = .ok (some d)) (he : base.context = .dict entries) :
    Mends d entries base (o.getD base) := by
  obtain ⟨d', context, missing, hdef', hfill, hdecided⟩ := repairMutation_decides h
  obtain rfl : d = d' := Option.some.inj (Except.ok.inj (hdef.symm.trans hdef'))
  obtain ⟨added, hfilled, hadded, hall⟩ := fillMissing_append d d.requiredKeys entries
  rw [he] at hfill
  have hcontext : context = .dict (entries ++ added) := hfilled ▸ fillContext_dict hfill
  -- What is proposed is a filled context, nothing, or a reset of the step.
  rcases hdecided with ⟨hnamed, rfl | ⟨rfl, hmissing, _⟩⟩ | ⟨_, initial, hinitial, rfl⟩
  · exact ⟨hnamed, ⟨added, hcontext, hadded, hall⟩, List.prefix_rfl, rfl, rfl, rfl⟩
  · have hnone : (fillMissing d d.requiredKeys entries).2 = [] :=
      (Prod.mk.inj (Except.ok.inj hfill)).2.trans hmissing
    have hkeys := contains_of_fillMissing hnone
    refine ⟨hnamed, ⟨[], ?_, fun x hx => absurd hx List.not_mem_nil, ?_⟩, List.prefix_rfl, rfl,
      rfl, rfl⟩
    · rw [List.append_nil]
      exact he
    · rw [List.append_nil]
      exact hkeys
  · refine ⟨?_, ⟨added, hcontext, hadded, hall⟩, List.prefix_append _ _,
      historyIssues_reset hinitial, rfl, rfl⟩
    exact Definition.hasStep_of_initialStep? hinitial

/-- A repair leaves the id alone, writes a text where it writes a step, and gives every new
    record the present as its time. -/
theorem frame_of_decides (h : g.repairMutation.Decides base m (some p) repairs) :
    p.id = base.id ∧ p.idValue = base.idValue ∧ p.workflowName = base.workflowName ∧
      (p.currentStep = base.currentStep ∨ ∃ step, p.currentStep = .str step) ∧
      ∀ r ∈ p.history, r ∈ base.history ∨ r.timestamp = m.time := by
  obtain ⟨d, context, missing, _, _, hdecided⟩ := repairMutation_decides h
  rcases hdecided with ⟨_, ho | ⟨hnone, _⟩⟩ | ⟨_, initial, _, ho⟩
  · rw [Option.some.inj ho]
    exact ⟨rfl, rfl, rfl, .inl rfl, fun r hr => .inl hr⟩
  · exact nomatch hnone
  · rw [Option.some.inj ho]
    refine ⟨rfl, rfl, rfl, .inr ⟨initial, rfl⟩, fun r hr => ?_⟩
    rcases List.mem_append.mp hr with hr | hr
    · exact .inl hr
    · exact .inr (List.mem_singleton.mp hr ▸ rfl)

namespace Mends

/-- The stamp of a commit leaves alone what was mended. -/
theorem committed (h : Mends d entries base p) (v : Int) (now : Timestamp) :
    Mends d entries base (p.committed v now) :=
  ⟨h.named, h.context, h.history, h.issues, h.workflow, h.subject⟩

/-- The issues of what is mended: those of the context that hide the missing keys, and all
    others as they were. -/
theorem integrityIssues_eq (h : Mends d entries base p)
    (hdefaults : ∀ x ∈ d.requirements, x.default.Encodes)
    (hdef : g.definitionFor base = .ok (some d)) :
    g.integrityIssues p = .ok (contextProblems true entries ++ historyIssues (some d) base ++
      g.subjectIssues base) := by
  obtain ⟨added, hcontext, hadded, hall⟩ := h.context
  have hproblems : contextProblems true (entries ++ added) = contextProblems true entries := by
    refine contextProblems_append fun x hx => ?_
    obtain ⟨k, _, rfl⟩ := hadded x hx
    exact ⟨⟨k, rfl⟩, Definition.encodes_defaultFor hdefaults k⟩
  have hmissing : missingKeys (some d) p.context = .ok [] := by
    rw [hcontext]
    refine congrArg Except.ok (List.filter_eq_nil_iff.mpr fun k hk => ?_)
    rw [hall k hk]
    exact Bool.false_ne_true
  -- Where the context has problems nothing else is looked for, and else no key is missing.
  have hissues : contextIssues (some d) p = contextProblems true entries := by
    unfold contextIssues
    rw [hmissing, hcontext, show valueProblems true (.dict (entries ++ added)) =
      contextProblems true entries from hproblems]
    cases contextProblems true entries with
    | nil => rfl
    | cons x xs => rfl
  have hstep : stepIssues (some d) p = [] := if_pos h.named
  have hsubject : g.subjectIssues p = g.subjectIssues base := by
    unfold subjectIssues
    rw [h.subject]
  have hdef' : g.definitionFor p = .ok (some d) := by
    unfold definitionFor
    rw [h.workflow]
    exact hdef
  unfold integrityIssues
  rw [hdef']
  show Except.ok (contextIssues (some d) p ++ historyIssues (some d) p ++ stepIssues (some d) p ++
    g.subjectIssues p) = _
  rw [hissues, h.issues, hstep, hsubject, List.append_nil]

/-- So none of them is new. -/
theorem issues_sublist (h : Mends d entries base p) (he : base.context = .dict entries)
    (hdefaults : ∀ x ∈ d.requirements, x.default.Encodes)
    (hdef : g.definitionFor base = .ok (some d)) :
    ∃ before after, g.integrityIssues base = .ok before ∧ g.integrityIssues p = .ok after ∧
      after.Sublist before := by
  refine ⟨_, _, exceptBind_ok.mpr ⟨some d, hdef, rfl⟩, h.integrityIssues_eq hdefaults hdef, ?_⟩
  have hcontext : (contextProblems true entries).Sublist (contextIssues (some d) base) := by
    unfold contextIssues
    rw [he]
    show (contextProblems true entries).Sublist
      (if !(contextProblems true entries).isEmpty then contextProblems true entries else _)
    cases contextProblems true entries with
    | nil => exact List.nil_sublist _
    | cons x xs => exact List.Sublist.refl _
  refine List.Sublist.append ?_ (List.Sublist.refl _)
  exact (hcontext.append (List.Sublist.refl _)).trans (List.sublist_append_left _ _)

end Mends

/-! ## The words of issues -/

/-- The first letters of an issue, which tell what kind it is of. -/
def heading (issue : String) : List Char := issue.toList.take 9

theorem heading_append {s : String} (h : 9 ≤ s.toList.length) (t : String) :
    heading (s ++ t) = heading s := by
  unfold heading
  rw [String.toList_append, List.take_append_of_le_length h]

/-- The headings of all issues but those of a missing key and of an unknown step. -/
def otherHeadings : List (List Char) :=
  ["Context k", "Context d", "History d", "History g", "Missing s", "Error loa", "Subject r"].map
    String.toList

theorem heading_of_contextProblems {issue : String} (h : issue ∈ contextProblems true entries) :
    heading issue ∈ otherHeadings := by
  rcases List.mem_append.mp h with h | h
  · obtain ⟨x, _, hx⟩ := List.mem_filterMap.mp h
    unfold keyProblem? at hx
    split at hx
    · rw [← Option.some.inj hx, String.append_assoc]
      exact heading_append (s := "Context key ") (by decide) _ ▸ by decide
    · exact nomatch hx
  · unfold dataProblem? at h
    split at h
    · exact absurd h List.not_mem_nil
    · rw [List.mem_singleton.mp h]
      exact heading_append (s := "Context data is corrupted or not serializable: ") (by decide) _ ▸
        by decide

theorem heading_of_historyGaps {rs : List TransitionRecord} {issue : String}
    (h : issue ∈ historyGaps rs) : heading issue ∈ otherHeadings := by
  induction rs with
  | nil => exact absurd h List.not_mem_nil
  | cons r rs ih =>
      cases rs with
      | nil => exact absurd h List.not_mem_nil
      | cons r' rs =>
          rw [historyGaps] at h
          split at h
          · exact ih h
          · rcases List.mem_cons.mp h with rfl | h
            · rw [String.append_assoc, String.append_assoc]
              exact heading_append (s := "History gap between steps ") (by decide) _ ▸ by decide
            · exact ih h

theorem heading_of_historyIssues {issue : String} (h : issue ∈ historyIssues (some d) base) :
    heading issue ∈ otherHeadings := by
  rcases List.mem_append.mp h with h | h
  · split at h
    · split at h
      · exact absurd h List.not_mem_nil
      · rw [List.mem_singleton.mp h]
        decide
    · exact absurd h List.not_mem_nil
  · exact heading_of_historyGaps h

theorem heading_of_subjectIssues {issue : String} (h : issue ∈ g.subjectIssues base) :
    heading issue ∈ otherHeadings := by
  unfold subjectIssues at h
  split at h
  · rw [List.mem_singleton.mp h]
    decide
  · split at h
    · rw [List.mem_singleton.mp h]
      exact heading_append (s := "Error loading subject: ") (by decide) _ ▸ by decide
    · split at h
      · rw [List.mem_singleton.mp h]
        decide
      · exact absurd h List.not_mem_nil

/-- So no issue that is left tells of a missing key or of an unknown step. -/
theorem Mends.no_missing {after : List String} (h : Mends d entries base p)
    (hdefaults : ∀ x ∈ d.requirements, x.default.Encodes)
    (hdef : g.definitionFor base = .ok (some d)) (hafter : g.integrityIssues p = .ok after) :
    (∀ key : String, s!"Missing required context field: {key}" ∉ after) ∧
      ∀ step : String, s!"Current step '{step}' is not defined in workflow" ∉ after := by
  have hheading : ∀ issue ∈ after, heading issue ∈ otherHeadings := by
    intro issue hissue
    rw [← Except.ok.inj ((h.integrityIssues_eq hdefaults hdef).symm.trans hafter)] at hissue
    rcases List.mem_append.mp hissue with hissue | hissue
    · rcases List.mem_append.mp hissue with hissue | hissue
      · exact heading_of_contextProblems hissue
      · exact heading_of_historyIssues hissue
    · exact heading_of_subjectIssues hissue
  constructor
  · intro key hkey
    have hmissing := hheading _ hkey
    rw [show heading s!"Missing required context field: {key}" = _ from
      heading_append (by decide) _] at hmissing
    exact absurd hmissing (by decide)
  · intro step hstep
    have hcurrent := hheading _ hstep
    rw [String.append_assoc, show heading (toString "Current step '" ++ _) = _ from
      heading_append (by decide) _] at hcurrent
    exact absurd hcurrent (by decide)

/-! ## Repairs in a store -/

variable {w w' : World} {t : Target} {r : RepairReport} {c : Climate}

/-- On a snapshot that is whole a repair proposes nothing. -/
theorem repairMutation_idle (hdef : g.definitionFor e = .ok (some d))
    (he : e.context = .dict entries)
    (hkeys : ∀ k ∈ d.requiredKeys, entries.contains k = true)
    (hnamed : (d.named? e.currentStep).isSome) (now : Timestamp) (s : Serials) :
    (g.repairMutation e).runAt now s = (.ok (none, []), s) := by
  have hrequire := requireDefinition_ok.mpr hdef
  have hfill : fillContext d e.context = .ok (.dict entries, []) := by
    rw [he]
    show Except.ok (Value.dict (fillMissing d d.requiredKeys entries).1,
      (fillMissing d d.requiredKeys entries).2) = _
    rw [fillMissing_idle hkeys]
  refine Draft.runAt_ofExcept_bind_ok.mpr ⟨d, hrequire, ?_⟩
  refine Draft.runAt_ofExcept_bind_ok.mpr ⟨_, hfill, ?_⟩
  refine Draft.runAt_ite_bind_ok.mpr ⟨(e, []), s, ?_, rfl⟩
  rw [if_pos hnamed]
  exact Draft.runAt_pure _ now s

/-- Where a whole execution is stored a repair does nothing, whoever else is at work. -/
theorem autoRepair_idle (hfind : w.store.find? w.now t.executionId = .ok (some e))
    (hdef : g.definitionFor e = .ok (some d)) (he : e.context = .dict entries)
    (hkeys : ∀ k ∈ d.requiredKeys, entries.contains k = true)
    (hnamed : (d.named? e.currentStep).isSome) :
    ∃ issues, (g.autoRepair t).run w = (.ok ⟨[], issues, e⟩, w) := by
  obtain ⟨issues, hissues⟩ : ∃ issues, g.integrityIssues e = .ok issues :=
    ⟨_, exceptBind_ok.mpr ⟨some d, hdef, rfl⟩⟩
  refine ⟨issues, ?_⟩
  refine (run_bind_ok (run_mutate_unchanged _ _ hfind
    (repairMutation_idle hdef he hkeys hnamed w.now w.serials))).trans ?_
  show ((ofExcept (g.integrityIssues e)).bind _).run w = _
  rw [hissues]
  rfl

/-- Has the repair of a snapshot with such a context come to such a report?  All that was
    there is there, and nothing is wrong that was not wrong before. -/
structure Repaired (g : Engine) (d : Definition) (base : Execution) (entries : Mapping)
    (r : RepairReport) : Prop where
  filled   : ∃ m : Mapping, r.execution.context = .dict m ∧
    (∀ k ∈ d.requiredKeys, m.contains k = true) ∧
    ∀ key v, entries.find? key = some v → m.find? key = some v
  named    : (d.named? r.execution.currentStep).isSome
  history  : base.history <+: r.execution.history
  gaps     : historyIssues (some d) r.execution = historyIssues (some d) base
  issues   : ∃ before, g.integrityIssues base = .ok before ∧
    g.integrityIssues r.execution = .ok r.remaining ∧ r.remaining.Sublist before
  complete : ∀ key : String, s!"Missing required context field: {key}" ∉ r.remaining
  known    : ∀ step : String, s!"Current step '{step}' is not defined in workflow" ∉ r.remaining

theorem Mends.repaired (h : Mends d entries base r.execution)
    (he : base.context = .dict entries)
    (hdefaults : ∀ x ∈ d.requirements, x.default.Encodes)
    (hdef : g.definitionFor base = .ok (some d))
    (hremaining : g.integrityIssues r.execution = .ok r.remaining) :
    g.Repaired d base entries r := by
  obtain ⟨added, hcontext, _, hall⟩ := h.context
  obtain ⟨before, after, hbefore, hafter, hsublist⟩ := h.issues_sublist he hdefaults hdef
  obtain rfl := Except.ok.inj (hafter.symm.trans hremaining)
  obtain ⟨hcomplete, hknown⟩ := h.no_missing hdefaults hdef hremaining
  exact
    { filled   := ⟨_, hcontext, hall, fun _ _ hv => Mapping.find?_append_left hv added⟩
      named    := h.named
      history  := h.history
      gaps     := h.issues
      issues   := ⟨before, hbefore, hremaining, hsublist⟩
      complete := hcomplete
      known    := hknown }

/-- Does a repair of the target do nothing where this is stored, at any time and with any
    trouble?  It comes to a snapshot of such a version. -/
def Idle (g : Engine) (t : Target) (store : Store) (version : Int) : Prop :=
  ∀ w : World, w.store = store → ∃ r, (g.autoRepair t).run w = (.ok r, w) ∧ r.repairs = [] ∧
    r.execution.version = version

/-- A mended snapshot stays whole where it is shown. -/
theorem Mends.idle {store : Store} (h : Mends d entries base p) (hentries : entries.Texts)
    (hdef : g.definitionFor base = .ok (some d))
    (hshown : ∀ now, ∃ e, store.find? now t.executionId = .ok (some e) ∧ p.StandsAs e) :
    g.Idle t store p.version := by
  intro w hw
  obtain ⟨e, hfind, hstands⟩ := hshown w.now
  obtain ⟨added, hcontext, hadded, hall⟩ := h.context
  have htexts : Mapping.Texts (entries ++ added) := by
    intro x hx
    rcases List.mem_append.mp hx with hx | hx
    · exact hentries x hx
    · obtain ⟨k, _, rfl⟩ := hadded x hx
      rfl
  obtain ⟨m, hm, hkeys⟩ := hstands.keys _ hcontext htexts
  have hdefe : g.definitionFor e = .ok (some d) := by
    unfold definitionFor
    rw [hstands.workflow, h.workflow]
    exact hdef
  obtain ⟨issues, hrun⟩ := autoRepair_idle (t := t) (hw.symm ▸ hfind) hdefe hm
    (fun k hk => hkeys k (hall k hk)) (hstands.current ▸ h.named)
  exact ⟨_, hrun, rfl, hstands.version⟩

end Engine

open Engine in
/-- Whatever is stored, whatever state it is in and whatever trouble saves meet: a repair
    that comes to a result has repaired a snapshot that the store held when it began its
    last attempt, and has put the result in the place of exactly that, or left it there as
    it was.  A second repair finds nothing to do, whenever it comes. -/
theorem repair_converges {g : Engine} {c : Climate} {w w' : World} {t : Target}
    {r : RepairReport} (hc : c.Contests) (hallows : c.Allows w) (hkeyed : w.store.Keyed)
    (hnow : w.now.offset = some 0) (h : (g.autoRepair t).run w = (.ok r, w')) :
    ∃ (store : Store) (base : Execution) (d : Definition),
      (w.disturbances = [] → store = w.store) ∧
      store.find? w.now t.executionId = .ok (some base) ∧
      g.definitionFor base = .ok (some d) ∧
      (r.execution = base ∧ w'.store = store ∨ store.Replaces w'.store base r.execution) ∧
      ∀ entries : Mapping, base.context = .dict entries → entries.Texts →
        (∀ x ∈ d.requirements, x.default.Encodes) →
        g.Repaired d base entries r ∧ g.Idle t w'.store r.execution.version := by
  obtain ⟨⟨saved, repairs⟩, w₁, hmutate, hreport⟩ := run_bind_inv h
  obtain ⟨remaining, w₂, hissues, hdone⟩ := run_bind_inv hreport
  obtain ⟨hremaining, rfl⟩ := run_ofExcept_inv hissues
  obtain ⟨hr, rfl⟩ := Prod.mk.inj hdone
  obtain rfl := Except.ok.inj hr
  obtain ⟨w₀, base, old, m, o, hpending, hfind, hold, hshown, htime, hdecides, hends⟩ :=
    settles_contested hc hallows hkeyed
      (fun _ _ _ _ hd => ⟨(frame_of_decides hd).1, (frame_of_decides hd).2.1⟩) hmutate
  obtain ⟨d, _, _, hdef, _⟩ := repairMutation_decides hdecides
  have hminutes : w.now.OnMinutes := .universal hnow
  refine ⟨w₀.store, base, d, fun hcalm => (hpending.calm hcalm).2, hfind, hdef, ?_,
    fun entries he htexts hdefaults => ?_⟩
  · rcases hends with ⟨_, hsame, hstore⟩ | ⟨p, new, _, _, hbecomes, hnew⟩
    · exact .inl ⟨hsame, hstore⟩
    · exact .inr ⟨old, new, hold, .of_shownAt hshown, hnew, hbecomes⟩
  · have hmends := mends_of_decides hdecides hdef he
    rcases hends with ⟨rfl, rfl, hstore⟩ | ⟨p, new, rfl, rfl, hbecomes, hnew⟩
    · -- Nothing was written, and what was read is whole.
      refine ⟨hmends.repaired he hdefaults hdef hremaining, hmends.idle htexts hdef fun now => ?_⟩
      obtain ⟨e, hlater, hstands⟩ := Slot.shownAt_later hshown now
      refine ⟨e, ?_, hstands⟩
      rw [hstore]
      exact Store.find?_of_follows hfind hold hold (.inl rfl) hlater
    · have hcommitted := hmends.committed base.version w.now
      refine ⟨hcommitted.repaired he hdefaults hdef hremaining,
        hcommitted.idle htexts hdef fun now => ?_⟩
      obtain ⟨_, _, hname, hstep, hhistory⟩ := frame_of_decides hdecides
      obtain ⟨e, hlater, hstands⟩ := Slot.shownAt_of_becomes hshown hminutes hbecomes hname hstep
        (fun x hx => (hhistory x hx).imp_right fun hx => by rw [hx, htime]; exact hminutes)
        hnow now
      exact ⟨e, Store.find?_of_follows hfind hold hnew (.inr ⟨_, hbecomes⟩) hlater, hstands⟩

/-! ## A pot that was dropped -/

/-- Pots are shaped and fired; each has a glaze and an owner. -/
def potteryWorkflow : Definition where
  serial       := 1
  name         := "pottery"
  steps        := [{ name := "shaped", actions := [⟨"fire", "fired", none, none, false⟩] },
    { name := "fired" }]
  requirements := [⟨"glaze", .str "matt"⟩, ⟨"owner", .null⟩]

def potteryEngine : Engine := { registry := ⟨[potteryWorkflow]⟩ }

/-- A pot that is done with, at a step that nobody has declared, by a history with a gap
    and another beginning, and without glaze and owner. -/
def crackedPot : Execution :=
  { id := "exec-1", workflowName := .str "pottery", subject := .subject "Pot" "7"
    currentStep := .str "cracked", status := .completed
    context := .dict [(.str "clay", .str "red")]
    history := [⟨"dug", "shaped", "turn", none, .defaultNow⟩,
      ⟨"dried", "cracked", "drop", none, .defaultNow⟩]
    assignedActor := none, version := 3, createdAt := .defaultNow, updatedAt := .defaultNow }

/-- The pot is filled in, reset and reopened.  Its history is reported as before, and there
    is nothing to repair any more. -/
theorem crackedPot_mended :
    let repair := potteryEngine.autoRepair (.id (.str "exec-1"))
    ∃ r w', repair.run { store := .memory ⟨[crackedPot]⟩ } = (.ok r, w') ∧
      r.repairs = ["Added missing context field: glaze", "Added missing context field: owner",
        "Reset invalid current step 'cracked' to initial step 'shaped'",
        "Reopened completed execution at initial step"] ∧
      r.remaining = ["History doesn't start from initial step",
        "History gap between steps shaped and dried"] ∧
      potteryEngine.Repaired potteryWorkflow crackedPot [(.str "clay", .str "red")] r ∧
      potteryEngine.Idle (.id (.str "exec-1")) w'.store r.execution.version := by
  intro repair
  have hreport : (repair.run { store := .memory ⟨[crackedPot]⟩ }).1.toOption.map
      (fun r => (r.repairs, r.remaining)) =
        some (["Added missing context field: glaze", "Added missing context field: owner",
          "Reset invalid current step 'cracked' to initial step 'shaped'",
          "Reopened completed execution at initial step"],
        ["History doesn't start from initial step",
          "History gap between steps shaped and dried"]) := by decide +kernel
  cases hrun : repair.run { store := .memory ⟨[crackedPot]⟩ } with
  | mk result w' =>
      rw [hrun] at hreport
      cases result with
      | error f => exact nomatch hreport
      | ok r =>
          obtain ⟨hrepairs, hremaining⟩ := Prod.mk.inj (Option.some.inj hreport)
          refine ⟨r, w', rfl, hrepairs, hremaining, ?_⟩
          have hkeyed : (Store.memory ⟨[crackedPot]⟩).Keyed := List.forall_mem_singleton.mpr rfl
          obtain ⟨store, base, d, hstore, hfind, hdef, _, hresult⟩ :=
            repair_converges (w := { store := .memory ⟨[crackedPot]⟩ })
              Climate.calm_spares.contests
              ⟨trivial, fun _ hx => absurd hx List.not_mem_nil⟩ hkeyed rfl hrun
          -- nothing meets trouble here, so what was repaired is the pot itself
          obtain rfl := hstore rfl
          obtain rfl : crackedPot = base := Option.some.inj (Except.ok.inj hfind)
          obtain rfl : potteryWorkflow = d := Option.some.inj (Except.ok.inj hdef)
          refine hresult _ rfl ?_ ?_
          · exact List.forall_mem_singleton.mpr rfl
          · exact List.forall_mem_cons.mpr ⟨Value.encodes_str _,
              List.forall_mem_singleton.mpr ⟨_, rfl⟩⟩

end Workflow
