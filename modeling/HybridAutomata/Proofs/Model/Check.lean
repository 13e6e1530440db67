import HybridAutomata.Model.Check
import HybridAutomata.Proofs.Tree.Variables
/-!
# What the check of a model says

With all checks on, a model passes if its tree is well-formed and its conditions and settings fit
the tree: `Rules`.
-/

namespace HybridAutomata

variable {κ : Type}

/-- `Settings.check` asks for plot variables that exist, and for both of them if there is anything
to plot. -/
theorem Settings.check_eq_ok_iff {settings : Settings κ} {vars : List String} :
    settings.check vars = .ok () ↔
      (∀ name ∈ settings.plotVariables, name ∈ vars) ∧
        (vars = [] ∨ (settings.plotX.isSome = true ∧ settings.plotY.isSome = true)) := by
  -- the check searches for an unknown plot variable
  have hknown : settings.plotVariables.find? (fun name => !vars.contains name) = none ↔
      ∀ name ∈ settings.plotVariables, name ∈ vars := by simp
  rw [check, ← hknown]
  cases settings.plotVariables.find? fun name => !vars.contains name with
  | some name => simp
  | none => cases vars <;> cases settings.plotX <;> cases settings.plotY <;> simp

namespace Model

/-- The rules of models, for the variables that the model has. -/
structure Rules (model : Model κ) (vars : List String) : Prop where
  tree : model.tree.WellFormed
  listed : model.allVariables = .ok vars
  nonempty : model.initial.isEmpty = false
  modes : ∀ states, ∀ entry ∈ (model.states states).entries,
    model.tree.modeExists model.tree.root entry.1 = true
  names : ∀ states, ∀ entry ∈ (model.states states).entries, ∀ name ∈ entry.2.vars,
    name ∈ vars ∨ name ∈ model.allConstants.keys
  settings : model.settings.check vars = .ok ()
  dots : model.tree.rootComponent.isNetwork = true → ∀ states, ∀ mode ∈ (model.states states).keys,
    '.' ∈ mode.toList

/-- `conditionNames` are the variables and the listed constants. -/
theorem mem_conditionNames_iff {model : Model κ} {vars : List String} {name : String} :
    name ∈ model.conditionNames vars ↔ name ∈ vars ∨ name ∈ model.allConstants.keys := by
  rw [conditionNames, mem_firstOccurrences, List.mem_append]

/-- `checkStates` asks for modes that exist and names that are known, and for an initial condition.
-/
theorem checkStates_eq_ok_iff {model : Model κ} {states : StateSet} {known : List String} :
    model.checkStates states known = .ok () ↔
      ¬ (states = .initial ∧ model.initial.isEmpty = true) ∧
        ∀ entry ∈ (model.states states).entries,
          model.tree.modeExists model.tree.root entry.1 = true ∧
            ∀ name ∈ entry.2.vars, name ∈ known := by
  -- in one condition the check searches for an unknown name
  have hknown (condition : Expr κ) :
      condition.vars.find? (fun name => !known.contains name) = none ↔
        ∀ name ∈ condition.vars, name ∈ known := by simp
  rw [checkStates]
  split
  · next hempty =>
    constructor
    · intro h
      cases h
    · exact fun h => absurd hempty h.1
  · next h =>
    rw [List.forM_eq_ok_iff, and_iff_right h]
    refine forall_congr' fun entry => imp_congr_right fun _ => ?_
    rw [← hknown]
    -- the mode is looked up before the names
    cases hm : model.tree.modeExists model.tree.root entry.1 with
    | false => simp [hm]
    | true =>
      simp only [hm, if_true, true_and]
      cases hf : entry.2.vars.find? fun name => !known.contains name with
      | some name => simp
      | none => exact ⟨fun _ => rfl, fun _ => rfl⟩

/-- `checkDots` asks for a dot in every mode. -/
theorem checkDots_eq_ok_iff {model : Model κ} {states : StateSet} :
    model.checkDots states = .ok () ↔ ∀ mode ∈ (model.states states).keys, '.' ∈ mode.toList := by
  -- the check searches for a mode without a dot
  have hdots : (model.states states).keys.find? (fun mode => !mode.toList.contains '.') = none ↔
      ∀ mode ∈ (model.states states).keys, '.' ∈ mode.toList := by simp
  rw [checkDots, ← hdots]
  cases (model.states states).keys.find? fun mode => !mode.toList.contains '.' with
  | some mode => simp
  | none => exact ⟨fun _ => rfl, fun _ => rfl⟩

/-- There are two families of conditions. -/
theorem forall_states_iff {p : StateSet → Prop} :
    (∀ states, p states) ↔ p .initial ∧ p .forbidden := by
  constructor
  · exact fun h => ⟨h _, h _⟩
  · rintro ⟨hinitial, hforbidden⟩ states
    cases states with
    | initial => exact hinitial
    | forbidden => exact hforbidden

/-- `check`, if it is enabled, goes through the links of the root, the tree, the conditions and the
settings. -/
theorem check_eq {model : Model κ} (henabled : model.checks.enabled = true) :
    model.check =
      match model.tree.rootComponent.instanceName, model.tree.rootComponent.parent with
      | some name, _ => .error (.rootHasInstanceName name)
      | none, some _ => .error .rootHasParent
      | none, none => (do
        model.tree.check model.checks
        let vars ← model.allVariables.mapError Violation.lookup
        model.checkStates .initial (model.conditionNames vars)
        model.checkStates .forbidden (model.conditionNames vars)
        model.settings.check vars
        if model.tree.rootComponent.isNetwork then
          model.checkDots .initial
          model.checkDots .forbidden) := by
  -- links of the root are looked at first, and each has its own complaint
  simp only [check, henabled, Bool.not_true, Bool.false_eq_true, if_false]
  cases model.tree.rootComponent.instanceName with
  | some name => rfl
  | none => cases model.tree.rootComponent.parent <;> rfl

/-- `check`, if it is enabled, goes through the links of the root and the tree, whatever else it
leaves out. -/
theorem tree_of_check {model : Model κ} (henabled : model.checks.enabled = true)
    (hcheck : model.check = .ok ()) :
    (model.tree.rootComponent.instanceName = none ∧ model.tree.rootComponent.parent = none) ∧
      model.tree.check model.checks = .ok () := by
  rw [check_eq henabled] at hcheck
  split at hcheck
  · cases hcheck
  · cases hcheck
  · next hname hparent => exact ⟨⟨hname, hparent⟩, (Except.check_bind_eq_ok_iff.1 hcheck).1⟩

/-- The rules of conditions and settings, for the variables that the model has. -/
structure Fits (model : Model κ) (vars : List String) : Prop where
  listed : model.allVariables = .ok vars
  nonempty : model.initial.isEmpty = false
  modes : ∀ states, ∀ entry ∈ (model.states states).entries,
    model.tree.modeExists model.tree.root entry.1 = true
  names : ∀ states, ∀ entry ∈ (model.states states).entries, ∀ name ∈ entry.2.vars,
    name ∈ vars ∨ name ∈ model.allConstants.keys
  settings : model.settings.check vars = .ok ()
  dots : model.tree.rootComponent.isNetwork = true → ∀ states, ∀ mode ∈ (model.states states).keys,
    '.' ∈ mode.toList

/-- `check`, if it is enabled, accepts a model just if its root is no instance, its tree passes, and
`Fits` holds for its variables. -/
theorem check_eq_ok_iff_of_enabled {model : Model κ} (henabled : model.checks.enabled = true) :
    model.check = .ok () ↔
      (model.tree.rootComponent.instanceName = none ∧ model.tree.rootComponent.parent = none) ∧
        model.tree.check model.checks = .ok () ∧ ∃ vars, model.Fits vars := by
  -- both families of conditions are checked alike, but that an initial condition has to be there
  have hstates (vars : List String) :
      (model.checkStates .initial (model.conditionNames vars) = .ok () ∧
        model.checkStates .forbidden (model.conditionNames vars) = .ok ()) ↔
      model.initial.isEmpty = false ∧
        (∀ states, ∀ entry ∈ (model.states states).entries,
          model.tree.modeExists model.tree.root entry.1 = true) ∧
        ∀ states, ∀ entry ∈ (model.states states).entries, ∀ name ∈ entry.2.vars,
          name ∈ vars ∨ name ∈ model.allConstants.keys := by
    simp only [checkStates_eq_ok_iff, forall_states_iff, mem_conditionNames_iff]
    cases model.initial.isEmpty with
    | true => simp
    | false =>
      simp
      grind
  -- the rule of dots is for networks only
  have hdots : (if model.tree.rootComponent.isNetwork = true then do
        model.checkDots .initial
        model.checkDots .forbidden
      else pure () : Except (Violation κ) Unit) = .ok () ↔
      (model.tree.rootComponent.isNetwork = true →
        ∀ states, ∀ mode ∈ (model.states states).keys, '.' ∈ mode.toList) := by
    rw [forall_states_iff, ← checkDots_eq_ok_iff, ← checkDots_eq_ok_iff]
    cases model.tree.rootComponent.isNetwork with
    | false => simp
    | true => simp [Except.check_bind_eq_ok_iff]
  -- variables are listed in between, which may fail
  have hvars (rest : List String → Except (Violation κ) Unit) :
      (model.allVariables.mapError Violation.lookup >>= rest) = .ok () ↔
        ∃ vars, model.allVariables = .ok vars ∧ rest vars = .ok () := by
    cases model.allVariables with
    | error cause =>
      constructor
      · intro h
        cases h
      · rintro ⟨_, h, -⟩
        cases h
    | ok vars =>
      show rest vars = .ok () ↔ _
      constructor
      · exact fun h => ⟨vars, rfl, h⟩
      · rintro ⟨_, hv, h⟩
        cases hv
        exact h
  -- go through the check from the root on; the conditions come last
  rw [check_eq henabled]
  cases hname : model.tree.rootComponent.instanceName with
  | some name => simp
  | none =>
  cases hparent : model.tree.rootComponent.parent with
  | some parent => simp
  | none =>
  simp only [and_self, true_and]
  rw [Except.check_bind_eq_ok_iff, hvars]
  refine and_congr_right fun _ => exists_congr fun vars => ?_
  constructor
  · rintro ⟨hv, h⟩
    obtain ⟨hi, h⟩ := Except.check_bind_eq_ok_iff.1 h
    obtain ⟨hf, h⟩ := Except.check_bind_eq_ok_iff.1 h
    obtain ⟨hs, h⟩ := Except.check_bind_eq_ok_iff.1 h
    obtain ⟨hne, hm, hn⟩ := (hstates vars).1 ⟨hi, hf⟩
    exact ⟨hv, hne, hm, hn, hs, hdots.1 h⟩
  · intro h
    obtain ⟨hi, hf⟩ := (hstates vars).2 ⟨h.nonempty, h.modes, h.names⟩
    refine ⟨h.listed, ?_⟩
    rw [hi, Except.ok_bind, hf, Except.ok_bind, h.settings, Except.ok_bind]
    exact hdots.2 h.dots

/-- `check` with all checks on accepts a model just if `Rules` hold for its variables. -/
theorem check_eq_ok_iff {model : Model κ} (hchecks : model.checks = {}) :
    model.check = .ok () ↔ ∃ vars, model.Rules vars := by
  rw [check_eq_ok_iff_of_enabled (by rw [hchecks]), hchecks]
  constructor
  · rintro ⟨⟨hname, hparent⟩, htree, vars, h⟩
    exact ⟨vars, ⟨hname, hparent, htree⟩, h.listed, h.nonempty, h.modes, h.names, h.settings,
      h.dots⟩
  · rintro ⟨vars, h⟩
    exact ⟨⟨h.tree.rootName, h.tree.rootParent⟩, h.tree.check, vars, h.listed, h.nonempty, h.modes,
      h.names, h.settings, h.dots⟩

end Model
end HybridAutomata
