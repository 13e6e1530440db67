import HybridAutomata.Component.Check
import HybridAutomata.Proofs.Expr.Variables
import HybridAutomata.Proofs.ForStd.Except
/-!
# What the checks of one component say

Each check of a component is read as the rule that it decides. The rules do not mention the name of
the component, so a component that is called otherwise passes the same checks.

* `checkNames_eq_ok_iff`        names are different identifiers
* `Binding.check_eq_ok_iff`     both sides of a binding are declared
* `checkAutomaton_eq_ok_iff`    the rules of automata, `AutomatonOk`
-/

namespace HybridAutomata

variable {κ : Type}

/-! ## Names and bindings -/

/-- `checkName` asks for an identifier and for nothing else. -/
theorem checkName_eq_ok_iff {name component : String} :
    checkName (κ := κ) name component = .ok () ↔ Text.isIdentifier name = true := by
  rw [checkName]
  split <;> simp_all

/-- The names that pass are identifiers, different from each other and from those seen before. -/
theorem checkNames_eq_ok_iff {component : String} {seen names : List String} :
    checkNames (κ := κ) component seen names = .ok () ↔
      names.Nodup ∧ ∀ name ∈ names, Text.isIdentifier name = true ∧ name ∉ seen := by
  -- each name is compared with those before it, so the names seen vary
  induction names generalizing seen with
  | nil => simp [checkNames]
  | cons name rest ih =>
    rw [checkNames]
    by_cases hs : name ∈ seen
    · rw [if_pos (by simpa using hs)]
      constructor
      · intro h
        cases h
      · exact fun h => absurd hs (h.2 name List.mem_cons_self).2
    · rw [if_neg (by simpa using hs), Except.check_bind_eq_ok_iff, checkName_eq_ok_iff, ih,
        List.nodup_cons, List.forall_mem_cons]
      constructor
      · rintro ⟨hi, hn, hr⟩
        exact ⟨⟨fun hm => (hr name hm).2 List.mem_cons_self, hn⟩, ⟨hi, hs⟩,
          fun other ho => ⟨(hr other ho).1, fun hm => (hr other ho).2 (List.mem_cons_of_mem _ hm)⟩⟩
      · rintro ⟨⟨hm, hn⟩, ⟨hi, -⟩, hr⟩
        refine ⟨hi, hn, fun other ho => ⟨(hr other ho).1, fun hc => ?_⟩⟩
        rcases List.mem_cons.1 hc with rfl | hc
        · exact hm ho
        · exact (hr other ho).2 hc

/-- Both sides of a binding are declared, or the outer one is a literal and constants are left
alone. -/
theorem Binding.check_eq_ok_iff_of_constants {binding : Binding}
    {outerDeclared innerDeclared : String → Bool} {kind : NameKind} {component : String}
    {constants : Bool} :
    binding.check (κ := κ) outerDeclared innerDeclared kind component constants = .ok () ↔
      (binding.inner ≠ "" ∧ binding.outer ≠ "") ∧
        (outerDeclared binding.outer = true ∨
          (constants = false ∧ binding.literal?.isSome = true)) ∧
        innerDeclared binding.inner = true := by
  -- the check tests for emptiness, the rule speaks of inequality
  have hempty (text : String) : text.isEmpty = true ↔ text = "" := String.isEmpty_iff
  rw [check]
  by_cases he : (binding.inner.isEmpty || binding.outer.isEmpty) = true
  · rw [if_pos he]
    rw [Bool.or_eq_true, hempty, hempty] at he
    constructor
    · intro h
      cases h
    · exact fun h => absurd he (not_or.2 h.1)
  · rw [if_neg he]
    rw [Bool.or_eq_true, hempty, hempty, not_or] at he
    -- what the check answers depends on four Booleans only
    cases ho : outerDeclared binding.outer <;> cases hi : innerDeclared binding.inner <;>
      cases constants <;> cases hl : binding.literal?.isSome <;> simp [he]

/-- Both sides of a binding are declared, so neither of them is empty. -/
theorem Binding.check_eq_ok_iff {binding : Binding} {outerDeclared innerDeclared : String → Bool}
    {kind : NameKind} {component : String} :
    binding.check (κ := κ) outerDeclared innerDeclared kind component true = .ok () ↔
      (binding.inner ≠ "" ∧ binding.outer ≠ "") ∧
        outerDeclared binding.outer = true ∧ innerDeclared binding.inner = true := by
  rw [check_eq_ok_iff_of_constants]
  simp

namespace Component

/-- `declares .var` is membership in the variables. -/
theorem declares_var_iff {component : Component κ} {name : String} :
    component.declares .var name = true ↔ name ∈ component.vars := by
  simp [declares]

/-- `declares .const` looks a constant up, whether or not it has a value. -/
theorem declares_const_iff {component : Component κ} {name : String} :
    component.declares .const name = true ↔ name ∈ component.constants.keys :=
  NameMap.contains_iff

/-- `declares .label` is membership in the labels. -/
theorem declares_label_iff {component : Component κ} {name : String} :
    component.declares .label name = true ↔ name ∈ component.labels := by
  simp [declares]

/-- A component has a name just if it has a parent, and the name is an identifier. -/
theorem checkLinks_eq_ok_iff {component : Component κ} :
    component.checkLinks = .ok () ↔
      (∀ own, component.instanceName = some own → Text.isIdentifier own = true) ∧
        component.instanceName.isSome = component.parent.isSome := by
  rw [checkLinks]
  -- without a name there is no identifier to ask for, only a parent to miss
  cases component.instanceName with
  | none => cases component.parent <;> simp
  | some own =>
    simp only [Except.check_bind_eq_ok_iff, checkName_eq_ok_iff, Option.some.injEq]
    cases component.parent <;> simp

/-! ## Automata -/

/-- The rules of a mode. -/
structure ModeOk (component : Component κ) (mode : Mode κ) : Prop where
  name : Text.isIdentifier mode.name = true
  invariant : mode.invariant.isFalse = false
  /-- A mode has flows just if it is not urgent. -/
  flows : mode.flows.isSome = !mode.urgent
  flowVars : ∀ name ∈ mode.flowMap.keys, name ∈ component.vars

/-- The rules of the automaton of a component. -/
structure AutomatonOk (component : Component κ) (automaton : Automaton κ) : Prop where
  modes : automaton.modes.isEmpty = false
  /-- Modes are filed by name. -/
  filed : ∀ entry ∈ automaton.modes.entries, entry.1 = entry.2.name
  mode : ∀ mode ∈ automaton.modes.values, component.ModeOk mode
  transition : ∀ transition ∈ automaton.transitions,
    (transition.source ∈ automaton.modes.keys ∧ transition.target ∈ automaton.modes.keys) ∧
      transition.label ≠ some ""
  label : ∀ label ∈ component.labels, ∃ transition ∈ automaton.transitions,
    transition.label = some label
  /-- All modes that are not urgent have flows for the same variables. -/
  sameFlows : ∀ first rest,
    automaton.modes.values.filter (fun mode => !mode.urgent) = first :: rest →
    ∀ mode ∈ rest, sameNames first.flowMap.keys mode.flowMap.keys = true
  flowSymbols : ∀ mode ∈ automaton.modes.values, mode.urgent = false →
    ∀ entry ∈ mode.flowMap.entries, ∀ symbol ∈ entry.2.expr.vars,
      symbol ∈ component.vars ∨ symbol ∈ component.constants.keys

/-- `AutomatonOk` reads of the component the names that it declares, and of constants not even the
values. -/
theorem AutomatonOk.congr {component other : Component κ} {automaton : Automaton κ}
    (h : component.AutomatonOk automaton) (hvars : other.vars = component.vars)
    (hconstants : other.constants.keys = component.constants.keys)
    (hlabels : other.labels = component.labels) : other.AutomatonOk automaton where
  modes := h.modes
  filed := h.filed
  -- the flows are defined for variables, which are the same
  mode mode hm := by
    have hok := h.mode mode hm
    exact ⟨hok.name, hok.invariant, hok.flows, by rw [hvars]; exact hok.flowVars⟩
  transition := h.transition
  label := by
    rw [hlabels]
    exact h.label
  sameFlows := h.sameFlows
  flowSymbols := by
    rw [hvars, hconstants]
    exact h.flowSymbols

/-- Keys of modes are identifiers: each is the name of its mode, for which `ModeOk` holds. -/
theorem AutomatonOk.isIdentifier_of_mem_keys {component : Component κ} {automaton : Automaton κ}
    (h : component.AutomatonOk automaton) {name : String} (hname : name ∈ automaton.modes.keys) :
    Text.isIdentifier name = true := by
  obtain ⟨entry, he, rfl⟩ := List.mem_map.1 hname
  rw [h.filed entry he]
  exact (h.mode entry.2 (List.mem_map_of_mem he)).name

/-- `checkMode` asks for what `ModeOk` says, one rule after the other. -/
theorem checkMode_eq_ok_iff {component : Component κ} {mode : Mode κ} :
    component.checkMode mode = .ok () ↔ component.ModeOk mode := by
  -- the last rule is a search for a flow of an undeclared variable
  have hflow : mode.flowMap.keys.find? (fun name => !component.vars.contains name) = none ↔
      ∀ name ∈ mode.flowMap.keys, name ∈ component.vars := by simp
  rw [checkMode, Except.check_bind_eq_ok_iff, checkName_eq_ok_iff]
  simp only [Except.guard_bind_eq_ok_iff]
  constructor
  · rintro ⟨hname, hi, hu, hm, h⟩
    refine ⟨hname, by simpa using hi, ?_, hflow.1 ?_⟩
    -- the two guards on flows and urgency together leave the two cases of the rule
    · cases hs : mode.flows <;> cases hg : mode.urgent <;> simp_all
    · split at h
      · cases h
      · next hf => exact hf
  · rintro ⟨hname, hi, hs, hf⟩
    refine ⟨hname, by simp [hi], ?_, ?_, by rw [hflow.2 hf]; rfl⟩
    · simp [hs]
    · rw [← Option.not_isSome, hs]
      simp

/-- `checkTransition` looks both ends up and refuses the empty label. -/
theorem checkTransition_eq_ok_iff {component : Component κ} {modes : NameMap (Mode κ)}
    {transition : Transition κ} :
    component.checkTransition modes transition = .ok () ↔
      (transition.source ∈ modes.keys ∧ transition.target ∈ modes.keys) ∧
        transition.label ≠ some "" := by
  -- the check searches for the first end that is no mode
  have hends : [transition.source, transition.target].find? (fun mode => !modes.contains mode) =
      none ↔ transition.source ∈ modes.keys ∧ transition.target ∈ modes.keys := by
    simp [NameMap.contains_iff]
  rw [checkTransition, ← hends]
  split
  · next he => simp [he]
  · next he => by_cases hl : transition.label = some "" <;> simp [hl, he]

/-- `checkFlowSymbols` finds a declaration for every symbol of every flow. -/
theorem checkFlowSymbols_eq_ok_iff {component : Component κ} {mode : Mode κ} :
    component.checkFlowSymbols mode = .ok () ↔
      ∀ entry ∈ mode.flowMap.entries, ∀ symbol ∈ entry.2.expr.vars,
        symbol ∈ component.vars ∨ symbol ∈ component.constants.keys := by
  rw [checkFlowSymbols, List.forM_eq_ok_iff]
  refine forall_congr' fun entry => imp_congr_right fun _ => ?_
  -- in one flow the check searches for the first symbol without a declaration
  have hsymbols : entry.2.expr.vars.find?
      (fun symbol => !component.declares .var symbol && !component.declares .const symbol) = none ↔
        ∀ symbol ∈ entry.2.expr.vars,
          symbol ∈ component.vars ∨ symbol ∈ component.constants.keys := by
    rw [List.find?_eq_none]
    refine forall_congr' fun symbol => imp_congr_right fun _ => ?_
    rw [← declares_var_iff, ← declares_const_iff]
    cases component.declares .var symbol <;> cases component.declares .const symbol <;> simp
  rw [← hsymbols]
  dsimp only
  split
  · next he => simp [he]
  · next he => simp [he]

/-- `checkFlows` compares flows with those of the first mode that is not urgent, and looks symbols
up on the way. -/
theorem checkFlows_eq_ok_iff {component : Component κ} {modes : List (Mode κ)} :
    component.checkFlows modes = .ok () ↔
      (∀ first rest, modes.filter (fun mode => !mode.urgent) = first :: rest →
        ∀ mode ∈ rest, sameNames first.flowMap.keys mode.flowMap.keys = true) ∧
      ∀ mode ∈ modes, mode.urgent = false → component.checkFlowSymbols mode = .ok () := by
  -- the check looks at modes that are not urgent, and compares them with the first of these
  have hmem (mode : Mode κ) : (mode ∈ modes ∧ mode.urgent = false) ↔
      mode ∈ modes.filter (fun mode => !mode.urgent) := by simp
  simp only [← and_imp, hmem]
  rw [checkFlows]
  cases modes.filter fun mode => !mode.urgent with
  | nil => simp
  | cons first rest =>
    simp only [Except.check_bind_eq_ok_iff, List.forM_eq_ok_iff, List.forall_mem_cons]
    constructor
    · rintro ⟨hf, hr⟩
      -- comparison and symbols alternate in the loop, and are told apart here
      have hr' : ∀ mode ∈ rest, sameNames first.flowMap.keys mode.flowMap.keys = true ∧
          component.checkFlowSymbols mode = .ok () := by
        intro mode hm
        have h := hr mode hm
        split at h
        · next hs => exact ⟨hs, h⟩
        · cases h
      refine ⟨?_, hf, fun mode hm => (hr' mode hm).2⟩
      intro first' rest' he mode hm
      obtain ⟨rfl, rfl⟩ := List.cons.inj he
      exact (hr' mode hm).1
    · rintro ⟨hs, hf, hr⟩
      refine ⟨hf, fun mode hm => ?_⟩
      rw [if_pos (hs first rest rfl mode hm)]
      exact hr mode hm

/-- `checkAutomaton` accepts an automaton just if `AutomatonOk` holds. -/
theorem checkAutomaton_eq_ok_iff {component : Component κ} {automaton : Automaton κ} :
    component.checkAutomaton automaton = .ok () ↔ component.AutomatonOk automaton := by
  -- what the check searches for directly, as rules
  have hfiled : automaton.modes.entries.find? (fun x => decide (x.1 ≠ x.2.name)) = none ↔
      ∀ entry ∈ automaton.modes.entries, entry.1 = entry.2.name := by simp
  have hlabels : component.labels.find? (fun label =>
      !automaton.transitions.any fun transition => decide (transition.label = some label)) = none ↔
      ∀ label ∈ component.labels, ∃ transition ∈ automaton.transitions,
        transition.label = some label := by
    simp
  rw [checkAutomaton]
  constructor
  · intro h
    -- every `split` leaves the branch in which the check goes on
    split at h
    · cases h
    next hm =>
    split at h
    · cases h
    next hn =>
    simp only [Except.check_bind_eq_ok_iff, List.forM_eq_ok_iff, checkMode_eq_ok_iff,
      checkTransition_eq_ok_iff] at h
    obtain ⟨hmodes, htransitions, h⟩ := h
    split at h
    · cases h
    next hl =>
    obtain ⟨hsame, hsymbols⟩ := checkFlows_eq_ok_iff.1 h
    exact {
      modes := by simpa using hm
      filed := hfiled.1 hn
      mode := hmodes
      transition := htransitions
      label := hlabels.1 hl
      sameFlows := hsame
      flowSymbols := fun mode hm hu => checkFlowSymbols_eq_ok_iff.1 (hsymbols mode hm hu) }
  · intro h
    -- the checks come in a fixed order, and each one finds its rule obeyed
    have hmodes := List.forM_eq_ok_iff.2 fun mode hm => checkMode_eq_ok_iff.2 (h.mode mode hm)
    have htransitions :
        automaton.transitions.forM (component.checkTransition automaton.modes) = .ok () :=
      List.forM_eq_ok_iff.2 fun transition ht =>
        checkTransition_eq_ok_iff.2 (h.transition transition ht)
    have hflows : component.checkFlows automaton.modes.values = .ok () :=
      checkFlows_eq_ok_iff.2 ⟨h.sameFlows,
        fun mode hm hu => checkFlowSymbols_eq_ok_iff.2 (h.flowSymbols mode hm hu)⟩
    rw [h.modes, hfiled.2 h.filed, hmodes, htransitions]
    simp only [Bool.false_eq_true, if_false, Except.ok_bind, hlabels.2 h.label, hflows]

end Component
end HybridAutomata
