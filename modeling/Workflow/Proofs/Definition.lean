import Mathlib.Data.List.Chain
import Workflow.Definition.Builder
import Workflow.Proofs.Checkpoint

/-! # Definition — the ways through a registered workflow

    A definition is registered only when its actions lead to steps that it declares.
    So whoever begins at the initial step and goes on from where the record before
    led, to declared steps, is at a declared step and has come through declared
    steps only.

    The heart is `Leads`, told by recursion on the history: everything that is said
    of the history of a sound execution is read off it. -/

namespace Workflow

namespace Definition

variable {d : Definition} {s s' : String} {r : TransitionRecord}
  {rs rs' : List TransitionRecord}

/-! ## Declared steps -/

theorem findStep?_some {step : StepDefinition} (h : d.findStep? s = some step) :
    step.name = s ∧ step ∈ d.steps :=
  ⟨beq_iff_eq.mp (List.find?_some (p := fun x : StepDefinition => x.name == s) h),
    List.mem_of_find?_eq_some h⟩

theorem hasStep_iff : d.hasStep s = true ↔ ∃ step ∈ d.steps, step.name = s := by
  unfold hasStep findStep?
  rw [List.find?_isSome]
  constructor
  · rintro ⟨step, hstep, hs⟩
    exact ⟨step, hstep, beq_iff_eq.mp hs⟩
  · rintro ⟨step, hstep, hs⟩
    exact ⟨step, hstep, beq_iff_eq.mpr hs⟩

theorem hasStep_of_initialStep? (h : d.initialStep? = some s) : d.hasStep s = true := by
  obtain ⟨step, hstep, hs⟩ := Option.map_eq_some_iff.mp h
  exact hasStep_iff.mpr ⟨step, List.mem_of_head? hstep, hs⟩

/-- Do all actions lead to declared steps?  And can what is filled in for a
    required key be stored, under a key that is not reserved? -/
structure Valid (d : Definition) : Prop where
  targets  : ∀ step ∈ d.steps, ∀ a ∈ step.actions, d.hasStep a.target = true
  keys     : ∀ x ∈ d.requirements, isReservedName x.key = false
  defaults : ∀ x ∈ d.requirements, x.default.Encodes

/-- Without issues every action leads to a declared step. -/
theorem targets_of_issues (h : d.issues = []) :
    ∀ step ∈ d.steps, ∀ a ∈ step.actions, d.hasStep a.target = true := by
  intro step hstep a ha
  unfold issues at h
  split at h
  · exact nomatch h
  · obtain ⟨h, _⟩ := List.append_eq_nil_iff.mp h
    have h := List.map_eq_nil_iff.mp (List.flatMap_eq_nil_iff.mp h step hstep)
    have htarget := List.filter_eq_nil_iff.mp h a ha
    have htarget : d.stepNames.contains a.target = true := by simpa using htarget
    obtain ⟨x, hx, hname⟩ := List.mem_map.mp (List.contains_iff_mem.mp htarget)
    exact hasStep_iff.mpr ⟨x, hx, hname⟩

/-- Where all declared defaults have JSON texts, what is filled in has one. -/
theorem encodes_defaultFor (h : ∀ x ∈ d.requirements, x.default.Encodes) (k : String) :
    (d.defaultFor k).Encodes := by
  unfold Definition.defaultFor
  cases hf : d.requirements.find? fun r => r.key == k with
  | none => exact inherited_encodes.null
  | some y => exact h y (List.mem_of_find?_eq_some hf)

/-- What is filled in for a required key is declared for it. -/
theorem Valid.defaultFor (h : d.Valid) {k : String} (hk : k ∈ d.requiredKeys) :
    isReservedName k = false ∧ (d.defaultFor k).Encodes := by
  obtain ⟨x, hx, rfl⟩ := List.mem_map.mp hk
  exact ⟨h.keys x hx, encodes_defaultFor h.defaults x.key⟩

/-! ## Ways -/

/-- Do the records lead from one step to another, each from where the one before
    led, and to a declared step? -/
def Leads (d : Definition) : String → List TransitionRecord → String → Prop
  | s, [],      s' => s = s'
  | s, r :: rs, s' => r.fromStep = s ∧ d.hasStep r.toStep = true ∧ d.Leads r.toStep rs s'

namespace Leads

theorem concat (h : d.Leads s rs r.fromStep) (hr : d.hasStep r.toStep = true) :
    d.Leads s (rs ++ [r]) r.toStep := by
  induction rs generalizing s with
  | nil => exact ⟨h.symm, hr, rfl⟩
  | cons x rs ih => exact ⟨h.1, h.2.1, ih h.2.2⟩

/-- A way that begins at a declared step goes through declared steps. -/
theorem hasStep (h : d.Leads s rs s') (hs : d.hasStep s = true) :
    d.hasStep s' = true ∧ ∀ r ∈ rs, d.hasStep r.fromStep = true := by
  induction rs generalizing s with
  | nil => exact ⟨h ▸ hs, fun _ hr => absurd hr List.not_mem_nil⟩
  | cons x rs ih =>
      obtain ⟨hend, hall⟩ := ih h.2.2 h.2.1
      refine ⟨hend, fun r hr => ?_⟩
      rcases List.mem_cons.mp hr with rfl | hr
      · exact h.1.symm ▸ hs
      · exact hall r hr

/-- Records that tell the same transitions lead the same way. -/
theorem of_sameMoves (h : d.Leads s rs s') (hrs : SameMoves rs rs') : d.Leads s rs' s' := by
  induction hrs generalizing s with
  | nil => exact h
  | cons hr _ ih =>
      refine ⟨hr.1.trans h.1, hr.2.1.symm ▸ h.2.1, ?_⟩
      rw [hr.2.1]
      exact ih h.2.2

theorem isChain (h : d.Leads s rs s') : rs.IsChain fun r r' => r.toStep = r'.fromStep := by
  induction rs generalizing s with
  | nil => exact .nil
  | cons x rs ih =>
      cases rs with
      | nil => exact .singleton x
      | cons y rs => exact .cons_cons h.2.2.1.symm (ih h.2.2)

theorem head (h : d.Leads s rs s') (hr : rs.head? = some r) : r.fromStep = s := by
  cases rs with
  | nil => exact nomatch hr
  | cons x rs =>
      rw [← Option.some.inj hr]
      exact h.1

theorem last (h : d.Leads s rs s') (hr : rs.getLast? = some r) : r.toStep = s' := by
  induction rs generalizing s with
  | nil => exact nomatch hr
  | cons x rs ih =>
      cases rs with
      | nil =>
          rw [← Option.some.inj hr]
          exact h.2.2
      | cons y rs => exact ih h.2.2 hr

end Leads

/-- Is this where an execution can be: at the end of a way from the initial step,
    and completed only at a final one? -/
structure Standing (d : Definition) (step : String) (status : Status)
    (history : List TransitionRecord) : Prop where
  way   : ∃ initial, d.initialStep? = some initial ∧ d.Leads initial history step
  final : status = .completed → d.isFinalStep step = true

namespace Standing

variable {step target : String} {status status' : Status}

theorem hasStep (h : d.Standing step status rs) : d.hasStep step = true := by
  obtain ⟨initial, hinitial, hway⟩ := h.way
  exact (hway.hasStep (hasStep_of_initialStep? hinitial)).1

theorem hasStep_of_mem (h : d.Standing step status rs) (hr : r ∈ rs) :
    d.hasStep r.fromStep = true := by
  obtain ⟨initial, hinitial, hway⟩ := h.way
  exact (hway.hasStep (hasStep_of_initialStep? hinitial)).2 r hr

theorem withStatus (h : d.Standing step status rs)
    (hstatus : status' = .completed → d.isFinalStep step = true) :
    d.Standing step status' rs := ⟨h.way, hstatus⟩

/-- One record more, from the step where the execution is. -/
theorem move (h : d.Standing step status rs) (hfrom : r.fromStep = step)
    (hto : d.hasStep r.toStep = true)
    (hstatus : status' = .completed → d.isFinalStep r.toStep = true) :
    d.Standing r.toStep status' (rs ++ [r]) := by
  obtain ⟨initial, hinitial, hway⟩ := h.way
  exact ⟨⟨initial, hinitial, (hfrom ▸ hway).concat hto⟩, hstatus⟩

theorem of_sameMoves (h : d.Standing step status rs) (hrs : SameMoves rs rs') :
    d.Standing step status rs' := by
  obtain ⟨initial, hinitial, hway⟩ := h.way
  exact ⟨⟨initial, hinitial, hway.of_sameMoves hrs⟩, h.final⟩

end Standing

end Definition

/-! ## Registries -/

namespace Registry

variable {r r' : Registry} {d : Definition} {name : String}

/-- Does the registry hold definitions that were built and then registered, none
    of which requires a reserved key, or fills one in with a value that has no
    JSON text? -/
inductive Built : Registry → Prop where
  | empty : Built {}
  | register {r r' : Registry} {d : Definition} {serial : Nat} {name : String}
      {description : Option String} {script : List Declaration} {replace : Bool} :
      Built r → Definition.define serial name description script = .ok d →
      (∀ x ∈ d.requirements, isReservedName x.key = false ∧ x.default.Encodes) →
      r.register d replace = .ok r' → Built r'

theorem mem_put {ds : List Definition} {x : Definition} (h : x ∈ put d ds) :
    x = d ∨ x ∈ ds := by
  induction ds with
  | nil => exact .inl (List.mem_singleton.mp h)
  | cons y ds ih =>
      unfold put at h
      split at h
      · rcases List.mem_cons.mp h with rfl | h
        · exact .inl rfl
        · exact .inr (List.mem_cons_of_mem _ h)
      · rcases List.mem_cons.mp h with rfl | h
        · exact .inr List.mem_cons_self
        · exact (ih h).imp id (List.mem_cons_of_mem _)

/-- What is registered has no issues and takes no other definition's place, unless it
    is to; then it is planted. -/
theorem register_iff {replace : Bool} : r.register d replace = .ok r' ↔
    d.issues = [] ∧
      (∀ e, r.get? d.name = some e → e.serial = d.serial ∨ replace = true) ∧
      r' = r.plant d := by
  unfold register
  cases hissues : d.issues with
  | cons i is => simp
  | nil =>
      rw [eq_comm (a := r') (b := r.plant d)]
      cases hget : r.get? d.name with
      | none => simp
      | some e =>
          by_cases hserial : e.serial = d.serial
          · simp [hserial]
          · cases replace with
            | true => simp
            | false => simp [hserial]

/-- Every definition of such a registry is valid. -/
theorem Built.valid (h : r.Built) (hd : r.get? name = some d) : d.Valid := by
  have hall : ∀ x ∈ r.definitions, x.Valid := by
    clear hd
    induction h with
    | empty => exact fun _ hx => absurd hx List.not_mem_nil
    | @register r r' d _ _ _ _ replace _ _ hkeys hregister ih =>
        obtain ⟨hissues, -, rfl⟩ := register_iff.mp hregister
        intro x hx
        rcases mem_put hx with rfl | hx
        · exact ⟨Definition.targets_of_issues hissues, fun y hy => (hkeys y hy).1,
            fun y hy => (hkeys y hy).2⟩
        · exact ih x hx
  exact hall d (List.mem_of_find?_eq_some hd)

end Registry

end Workflow
