import Workflow.Proofs.Builder

/-! # Registry — what a registry holds after any calls

    A registry takes a definition in only after checking it, and puts it under its
    name.  So what it holds is always whole, a call that fails has not touched it,
    and a name loses its definition only to a replacement or when all is cleared.

    The heart is `Kept.serve`: what one call leaves, of whatever is held before it. -/

namespace Workflow

/-- A call that may change a registry. -/
inductive RegistryCall where
  | register (d : Definition) (replace : Bool)
  | clear

namespace RegistryCall

/-- The definition that the call hands in. -/
def definition? : RegistryCall → Option Definition
  | .register d _ => some d
  | .clear        => none

/-- Does the call leave the definition of the name in its place?  A call does that
    neither replaces that definition nor clears the registry. -/
def Spares (call : RegistryCall) (name : String) : Prop :=
  match call with
  | .register d replace => replace = true → d.name ≠ name
  | .clear              => False

end RegistryCall

/-- Are these definitions that were built from scripts, and that their serials tell
    from one another? -/
structure Definition.Stock (ds : List Definition) : Prop where
  built : ∀ d ∈ ds, ∃ serial name description script,
    Definition.define serial name description script = .ok d
  told  : ∀ d ∈ ds, ∀ e ∈ ds, d.serial = e.serial → d = e

theorem Definition.Stock.distinct {ds : List Definition} (h : Stock ds)
    {d : Definition} (hd : d ∈ ds) : d.Distinct := by
  obtain ⟨serial, name, description, script, hdefine⟩ := h.built d hd
  exact distinct_of_define hdefine

namespace Registry

variable {r : Registry} {ds : List Definition} {d e : Definition} {name : String}
  {call : RegistryCall} {calls : List RegistryCall}

/-- What a call leaves, and the error that it raises, if it does. -/
def serve (r : Registry) : RegistryCall → Registry × Option Failure
  | .register d replace =>
    match r.register d replace with
    | .ok r'   => (r', none)
    | .error f => (r, some f)
  | .clear => (clear, none)

/-- What calls leave. -/
def serveAll (r : Registry) : List RegistryCall → Registry
  | []            => r
  | call :: calls => (r.serve call).1.serveAll calls

/-- What calls leave of a registry that was empty. -/
def after (calls : List RegistryCall) : Registry := serveAll {} calls

theorem serveAll_append {later : List RegistryCall} :
    r.serveAll (calls ++ later) = (r.serveAll calls).serveAll later := by
  induction calls generalizing r with
  | nil => rfl
  | cons call calls ih => exact ih

/-! ## One call -/

/-- A definition that is planted is found under its name; the other names keep theirs. -/
theorem get?_plant :
    (r.plant d).get? name = if d.name = name then some d else r.get? name := by
  unfold get? plant
  induction r.definitions with
  | nil => simp [put, List.find?_singleton]
  | cons x ds ih =>
      dsimp only at ih
      unfold put
      -- the first entry of the name gives way, and the others keep their places
      by_cases hx : x.name = d.name
      · by_cases hname : d.name = name <;> simp [hx, hname]
      · rw [if_neg hx, List.find?_cons, List.find?_cons, ih]
        by_cases hname : d.name = name
        · have hx : x.name ≠ name := fun h => hx (h.trans hname.symm)
          rw [beq_eq_false_iff_ne.mpr hx]
        · simp [hname]

theorem serve_register_ok {replace : Bool} {r' : Registry}
    (h : r.register d replace = .ok r') :
    r.serve (.register d replace) = (r', none) := by
  simp only [serve, h]

theorem serve_register_error {replace : Bool} {f : Failure}
    (h : r.register d replace = .error f) :
    r.serve (.register d replace) = (r, some f) := by
  simp only [serve, h]

/-- A call that raises leaves the registry as it was. -/
theorem serve_of_raised {f : Failure} (h : (r.serve call).2 = some f) :
    (r.serve call).1 = r := by
  cases call with
  | clear => exact nomatch h
  | register d replace =>
      cases hregister : r.register d replace with
      | ok r' =>
          rw [serve_register_ok hregister] at h
          exact nomatch h
      | error f' => rw [serve_register_error hregister]

/-- A built definition is taken in exactly when it is whole, and its name is free, or
    its own already, or to be replaced. -/
theorem serve_accepts_iff (hd : d.Distinct) {replace : Bool} :
    (r.serve (.register d replace)).2 = none ↔ d.WellFormed ∧
      ∀ e, r.get? d.name = some e → e.serial = d.serial ∨ replace = true := by
  rw [Definition.wellFormed_iff hd]
  constructor
  · intro h
    cases hregister : r.register d replace with
    | ok r' =>
        obtain ⟨hissues, htaken, -⟩ := register_iff.mp hregister
        exact ⟨hissues, htaken⟩
    | error f =>
        rw [serve_register_error hregister] at h
        exact nomatch h
  · rintro ⟨hissues, htaken⟩
    rw [serve_register_ok (register_iff.mpr ⟨hissues, htaken, rfl⟩)]

/-! ## All calls -/

/-- Is everything that the registry holds whole, and from the stock? -/
def Kept (ds : List Definition) (r : Registry) : Prop :=
  ∀ d ∈ r.definitions, d ∈ ds ∧ d.WellFormed

namespace Kept

/-- What one call leaves is whole, and holds the definitions that the call spares. -/
theorem serve (hstock : Definition.Stock ds) (h : Kept ds r)
    (hcall : ∀ x, call.definition? = some x → x ∈ ds) :
    Kept ds (r.serve call).1 ∧ ∀ name d, call.Spares name → r.get? name = some d →
      (r.serve call).1.get? name = some d := by
  cases call with
  | clear => exact ⟨fun _ hd => absurd hd List.not_mem_nil, fun _ _ hno => hno.elim⟩
  | register x replace =>
      have hx : x ∈ ds := hcall x rfl
      cases hregister : r.register x replace with
      | error f =>
          rw [serve_register_error hregister]
          exact ⟨h, fun _ _ _ hget => hget⟩
      | ok r' =>
          obtain ⟨hissues, htaken, rfl⟩ := register_iff.mp hregister
          rw [serve_register_ok hregister]
          constructor
          · intro y hy
            rcases mem_put hy with rfl | hy
            · exact ⟨hx, (Definition.wellFormed_iff (hstock.distinct hx)).mpr hissues⟩
            · exact h y hy
          · intro name d hspares hget
            rw [get?_plant]
            by_cases hname : x.name = name
            · -- the name was taken, and not to be replaced: it is the same object
              subst hname
              have hserial : d.serial = x.serial :=
                (htaken d hget).resolve_right fun hreplace => hspares hreplace rfl
              have hd : d ∈ ds := (h d (List.mem_of_find?_eq_some hget)).1
              rw [if_pos rfl, hstock.told d hd x hx hserial]
            · rw [if_neg hname]
              exact hget

theorem serveAll (hstock : Definition.Stock ds) (h : Kept ds r)
    (hcalls : ∀ call ∈ calls, ∀ x, call.definition? = some x → x ∈ ds) :
    Kept ds (r.serveAll calls) ∧
      ∀ name d, (∀ call ∈ calls, call.Spares name) → r.get? name = some d →
        (r.serveAll calls).get? name = some d := by
  induction calls generalizing r with
  | nil => exact ⟨h, fun _ _ _ hget => hget⟩
  | cons call calls ih =>
      rw [List.forall_mem_cons] at hcalls
      obtain ⟨hkept, hget⟩ := h.serve hstock hcalls.1
      obtain ⟨hkept', hget'⟩ := ih hkept hcalls.2
      refine ⟨hkept', fun name d hspares hd => ?_⟩
      rw [List.forall_mem_cons] at hspares
      exact hget' name d hspares.2 (hget name d hspares.1 hd)

theorem wellFormed_of_get? (h : Kept ds r) (hget : r.get? name = some d) : d.WellFormed :=
  (h d (List.mem_of_find?_eq_some hget)).2

theorem wellFormed_of_require (h : Kept ds r) (hrequire : r.require name = .ok d) :
    d.WellFormed := by
  unfold require at hrequire
  cases hget : r.get? name with
  | none => rw [hget] at hrequire; exact nomatch hrequire
  | some e =>
      rw [hget] at hrequire
      exact Except.ok.inj hrequire ▸ h.wellFormed_of_get? hget

end Kept

/-- Whatever calls are made on a registry, whatever it answers is a whole step graph;
    a call that raises leaves it as it was; and a name keeps its definition over all
    further calls that neither replace that definition nor clear the registry. -/
theorem answers_wellFormed (hstock : Definition.Stock ds) {later : List RegistryCall}
    (hcalls : ∀ call ∈ calls ++ later, ∀ d, call.definition? = some d → d ∈ ds) :
    (∀ name d, (after calls).get? name = some d → d.WellFormed) ∧
    (∀ name d, (after calls).require name = .ok d → d.WellFormed) ∧
    (∀ d ∈ (after calls).definitions, d.WellFormed) ∧
    (∀ x ∈ (after calls).summaries,
      ∃ d ∈ (after calls).definitions, d.summary = x ∧ d.WellFormed) ∧
    (∀ call f, ((after calls).serve call).2 = some f →
      ((after calls).serve call).1 = after calls) ∧
    (∀ name d, (after calls).get? name = some d → (∀ call ∈ later, call.Spares name) →
      (after (calls ++ later)).get? name = some d) := by
  have hempty : Kept ds {} := fun _ hd => absurd hd List.not_mem_nil
  rw [List.forall_mem_append] at hcalls
  obtain ⟨hkept, -⟩ := hempty.serveAll hstock hcalls.1
  obtain ⟨-, hlater⟩ := hkept.serveAll hstock hcalls.2
  refine ⟨fun _ _ => hkept.wellFormed_of_get?, fun _ _ => hkept.wellFormed_of_require,
    fun d hd => (hkept d hd).2, ?_, fun _ _ => serve_of_raised, ?_⟩
  · intro x hx
    obtain ⟨d, hd, hsummary⟩ := List.mem_map.mp hx
    exact ⟨d, hd, hsummary, (hkept d hd).2⟩
  · intro name d hget hspares
    unfold after
    rw [serveAll_append]
    exact hlater name d hspares hget

/-! ## A registry of reports -/

/-- Two whole step graphs, and one with a step that no action leads to. -/
def reportScripts : Nat → List Declaration
  | 1 => [.step "draft" none true [.action "submit" "done" none none false],
          .step "done" none false []]
  | 2 => [.step "draft" none true [],
          .onStep "draft" (.action "submit" "read" none none true),
          .step "read" none false [.action "return" "draft" none none false]]
  | _ => [.step "draft" none true [], .step "lost" none false []]

/-- The definition of a script, all under one name. -/
def report (n : Nat) : Definition :=
  match Definition.define n "report" none (reportScripts n) with
  | .ok d    => d
  | .error _ => { serial := n, name := "report" }

/-- One definition is refused as it is not whole, another is cleared away, and a third
    keeps its name against that one. -/
def reportCalls : List RegistryCall :=
  [.register (report 3) true, .register (report 2) false, .clear,
    .register (report 1) false, .register (report 2) false]

theorem reports_stock : Definition.Stock [report 1, report 2, report 3] where
  built := by
    intro d hd
    simp only [List.mem_cons, List.not_mem_nil, or_false] at hd
    rcases hd with rfl | rfl | rfl
    · exact ⟨1, "report", none, reportScripts 1, rfl⟩
    · exact ⟨2, "report", none, reportScripts 2, rfl⟩
    · exact ⟨3, "report", none, reportScripts 3, rfl⟩
  told := by
    have hserials : [report 1, report 2, report 3].map (·.serial) = [1, 2, 3] := rfl
    have hnodup : ([report 1, report 2, report 3].map (·.serial)).Nodup := by
      rw [hserials]
      decide
    intro d hd e he
    exact List.inj_on_of_nodup_map hnodup hd he

theorem reports_wellFormed :
    (after reportCalls).get? "report" = some (report 1) ∧ (report 1).WellFormed ∧
    ((after reportCalls).serve (.register (report 3) true)).2.isSome = true ∧
    ((after reportCalls).serve (.register (report 3) true)).1 = after reportCalls ∧
    (after (reportCalls ++ [.register (report 1) false, .register (report 2) false])).get?
      "report" = some (report 1) := by
  have hcalls : ∀ call ∈ reportCalls ++ [.register (report 1) false,
      .register (report 2) false], ∀ d, call.definition? = some d →
      d ∈ [report 1, report 2, report 3] := by
    simp [reportCalls, RegistryCall.definition?]
  obtain ⟨hget, -, -, -, hraised, hlater⟩ := answers_wellFormed reports_stock hcalls
  have hreport : (after reportCalls).get? "report" = some (report 1) := rfl
  have hrefused : ((after reportCalls).serve (.register (report 3) true)).2.isSome = true := by
    decide +kernel
  obtain ⟨f, hf⟩ := Option.isSome_iff_exists.mp hrefused
  refine ⟨hreport, hget _ _ hreport, hrefused, hraised _ f hf, hlater _ _ hreport ?_⟩
  simp [RegistryCall.Spares]

end Registry

end Workflow
